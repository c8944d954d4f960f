import Mathlib.Data.List.Basic

-- The values of RFC 8259 whose numbers are natural ones.
inductive Json
  | null
  | bool (b : Bool)
  | num (n : ℕ)
  | str (s : String)
  | arr (values : List Json)
  | obj (members : List (String × Json))

namespace Json

def isSpace (c : Char) : Bool :=
  c = ' ' ∨ c = '\t' ∨ c = '\n' ∨ c = '\r'

def hexDigit (c : Char) : Option ℕ :=
  if c.isDigit then some (c.toNat - '0'.toNat)
  else if 'a' ≤ c ∧ c ≤ 'f' then some (c.toNat - 'a'.toNat + 10)
  else if 'A' ≤ c ∧ c ≤ 'F' then some (c.toNat - 'A'.toNat + 10)
  else none

def hex4 : List Char → Option (ℕ × List Char)
  | w :: x :: y :: z :: cs => do
    let w ← hexDigit w
    let x ← hexDigit x
    let y ← hexDigit y
    let z ← hexDigit z
    some (((w * 16 + x) * 16 + y) * 16 + z, cs)
  | _ => none

-- The characters that a single one behind a backslash can stand for.
def unescape : Char → Option Char
  | '\"' => some '\"'
  | '\\' => some '\\'
  | '/'  => some '/'
  | 'b'  => some '\x08'
  | 'f'  => some '\x0c'
  | 'n'  => some '\n'
  | 'r'  => some '\r'
  | 't'  => some '\t'
  | _    => none

def highSurrogate (n : ℕ) : Bool :=
  0xd800 ≤ n ∧ n ≤ 0xdbff

def lowSurrogate (n : ℕ) : Bool :=
  0xdc00 ≤ n ∧ n ≤ 0xdfff

def combine (high low : ℕ) : ℕ :=
  0x10000 + (high - 0xd800) * 0x400 + (low - 0xdc00)

-- The ways to write a character of a string.
inductive Piece (c : Char) : List Char → Prop
  | plain (quote : c ≠ '\"') (backslash : c ≠ '\\') (control : 0x20 ≤ c.toNat) : Piece c [c]
  | short {e} (escape : unescape e = some c) : Piece c ['\\', e]
  | unicode {ds} (digits : hex4 ds = some (c.toNat, [])) : Piece c ('\\' :: 'u' :: ds)
  | surrogates {ds es high low} (digits : hex4 ds = some (high, []))
    (digits' : hex4 es = some (low, [])) (isHigh : highSurrogate high) (isLow : lowSurrogate low)
    (char : c.toNat = combine high low) : Piece c ('\\' :: 'u' :: ds ++ '\\' :: 'u' :: es)

inductive Chars : List Char → List Char → Prop
  | nil : Chars [] []
  | cons {c s cs ds} (head : Piece c cs) (tail : Chars s ds) : Chars (c :: s) (cs ++ ds)

def Quoted (s : String) (cs : List Char) : Prop :=
  ∃ ds, Chars s.toList ds ∧ cs = '\"' :: ds ++ ['\"']

def Space (cs : List Char) : Prop :=
  cs.all isSpace

-- What a part of a text stands for, an element is a value with space around it.
inductive Node
  | value (v : Json)
  | element (v : Json)
  | elements (vs : List Json)
  | members (ms : List (String × Json))

inductive Text : Node → List Char → Prop
  | null  : Text (.value .null) ['n', 'u', 'l', 'l']
  | true  : Text (.value (.bool .true)) ['t', 'r', 'u', 'e']
  | false : Text (.value (.bool .false)) ['f', 'a', 'l', 's', 'e']
  | num {n} : Text (.value (.num n)) (Nat.toDigits 10 n)
  | str {s cs} (quoted : Quoted s cs) : Text (.value (.str s)) cs
  | emptyArr {ws} (space : Space ws) : Text (.value (.arr [])) ('[' :: ws ++ [']'])
  | arr {vs cs} (elements : Text (.elements vs) cs) : Text (.value (.arr vs)) ('[' :: cs ++ [']'])
  | emptyObj {ws} (space : Space ws) : Text (.value (.obj [])) ('\x7b' :: ws ++ ['\x7d'])
  | obj {ms cs} (members : Text (.members ms) cs) :
    Text (.value (.obj ms)) ('\x7b' :: cs ++ ['\x7d'])
  | element {ws v cs ws'} (space : Space ws) (value : Text (.value v) cs) (space' : Space ws') :
    Text (.element v) (ws ++ cs ++ ws')
  | lastElement {v cs} (element : Text (.element v) cs) : Text (.elements [v]) cs
  | elements {v cs vs ds} (element : Text (.element v) cs) (rest : Text (.elements vs) ds) :
    Text (.elements (v :: vs)) (cs ++ ',' :: ds)
  | lastMember {ws k ks ws' v cs} (space : Space ws) (key : Quoted k ks) (space' : Space ws')
    (element : Text (.element v) cs) : Text (.members [(k, v)]) (ws ++ ks ++ ws' ++ ':' :: cs)
  | members {ws k ks ws' v cs ms ds} (space : Space ws) (key : Quoted k ks) (space' : Space ws')
    (element : Text (.element v) cs) (rest : Text (.members ms) ds) :
    Text (.members ((k, v) :: ms)) (ws ++ ks ++ ws' ++ ':' :: cs ++ ',' :: ds)

-- The whole text.
def Represents (cs : List Char) (v : Json) : Prop :=
  Text (.element v) cs

section Rendering

-- Compact, and nothing is escaped that need not be.
def escape (c : Char) : List Char :=
  match c with
  | '\"'   => ['\\', '\"']
  | '\\'   => ['\\', '\\']
  | '\x08' => ['\\', 'b']
  | '\x0c' => ['\\', 'f']
  | '\n'   => ['\\', 'n']
  | '\r'   => ['\\', 'r']
  | '\t'   => ['\\', 't']
  | c      =>
    if c.toNat < 0x20 then
      ['\\', 'u', '0', '0', (c.toNat / 16).digitChar, (c.toNat % 16).digitChar]
    else
      [c]

def quote (s : String) : List Char :=
  '\"' :: s.toList.flatMap escape ++ ['\"']

mutual

def render : Json → List Char
  | null       => ['n', 'u', 'l', 'l']
  | bool true  => ['t', 'r', 'u', 'e']
  | bool false => ['f', 'a', 'l', 's', 'e']
  | num n      => Nat.toDigits 10 n
  | str s      => quote s
  | arr vs     => '[' :: renderElements vs ++ [']']
  | obj ms     => '\x7b' :: renderMembers ms ++ ['\x7d']

def renderElements : List Json → List Char
  | []      => []
  | [v]     => v.render
  | v :: vs => v.render ++ ',' :: renderElements vs

def renderMembers : List (String × Json) → List Char
  | []           => []
  | [(k, v)]     => quote k ++ ':' :: v.render
  | (k, v) :: ms => quote k ++ ':' :: v.render ++ ',' :: renderMembers ms

end

theorem hexDigit_digitChar : ∀ n < 16, hexDigit n.digitChar = some n := by
  decide

theorem escape_piece (c : Char) : Piece c (escape c) := by
  unfold escape
  split
  case h_8 quote backslash _ _ _ _ _ =>
    split
    case isTrue control =>
      refine .unicode ?_
      have low := hexDigit_digitChar (c.toNat % 16) (Nat.mod_lt _ (by simp))
      have high := hexDigit_digitChar (c.toNat / 16) (by omega)
      have zero : hexDigit '0' = some 0 := rfl
      simp only [hex4, zero, low, high, Option.bind_eq_bind, Option.bind_some]
      congr 2
      omega
    case isFalse control => exact .plain quote backslash (Nat.le_of_not_lt control)
  all_goals exact .short rfl

theorem flatMap_chars (s : List Char) : Chars s (s.flatMap escape) := by
  induction s
  case nil => exact .nil
  case cons c s ih => exact .cons (escape_piece c) ih

theorem quote_quoted (s : String) : Quoted s (quote s) :=
  ⟨_, flatMap_chars s.toList, rfl⟩

theorem Space.nil : Space [] :=
  rfl

theorem Text.alone {v : Json} {cs : List Char} (text : Text (.value v) cs) :
    Text (.element v) cs := by
  simpa using Text.element .nil text .nil

mutual

theorem render_text : ∀ v : Json, Text (.value v) v.render
  | null          => .null
  | bool true     => .true
  | bool false    => .false
  | num n         => .num
  | str s         => .str <| quote_quoted s
  | arr []        => .emptyArr .nil
  | arr (v :: vs) => .arr <| renderElements_text (v :: vs) (by simp)
  | obj []        => .emptyObj .nil
  | obj (m :: ms) => .obj <| renderMembers_text (m :: ms) (by simp)

theorem renderElements_text : ∀ vs ≠ [], Text (.elements vs) (renderElements vs)
  | [], h           => absurd rfl h
  | [v], _          => .lastElement <| .alone <| render_text v
  | v :: w :: vs, _ =>
    .elements (.alone <| render_text v) (renderElements_text (w :: vs) (by simp))

theorem renderMembers_text : ∀ ms ≠ [], Text (.members ms) (renderMembers ms)
  | [], h                => absurd rfl h
  | [(k, v)], _          => by
    simpa [renderMembers] using
      Text.lastMember .nil (quote_quoted k) .nil (.alone <| render_text v)
  | (k, v) :: m :: ms, _ => by
    simpa [renderMembers] using
      Text.members .nil (quote_quoted k) .nil (.alone <| render_text v)
        (renderMembers_text (m :: ms) (by simp))

end

theorem render_represents (v : Json) : Represents v.render v :=
  .alone <| render_text v

end Rendering
end Json
