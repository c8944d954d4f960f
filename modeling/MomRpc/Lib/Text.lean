import Mathlib.Data.List.Basic
import Mathlib.Data.Nat.Notation

namespace Text

section SplitOnce

variable {α : Type*} [DecidableEq α] {sep : α} {l xs ys : List α}

-- The parts of the list before and after the first separator.
def splitOnce (sep : α) : List α → Option (List α × List α)
  | []      => none
  | a :: as =>
    if a = sep then some ([], as) else (splitOnce sep as).map fun (xs, ys) => (a :: xs, ys)

theorem splitOnce_eq_none_iff : splitOnce sep l = none ↔ sep ∉ l := by
  induction l
  case nil => simp [splitOnce]
  case cons a as ih =>
    by_cases h : a = sep
    case pos => simp [splitOnce, h]
    case neg =>
      have hs : sep ≠ a := fun he => h he.symm
      simp [splitOnce, h, hs, ih]

theorem splitOnce_eq_some_iff :
    splitOnce sep l = some (xs, ys) ↔ l = xs ++ sep :: ys ∧ sep ∉ xs := by
  induction l generalizing xs ys
  case nil => simp [splitOnce]
  case cons a as ih =>
    by_cases h : a = sep
    case pos => cases xs <;> simp +contextual [splitOnce, h, eq_comm]
    case neg =>
      have hs : sep ≠ a := fun he => h he.symm
      cases xs
      case nil       => simp [splitOnce, h]
      case cons x xs => simp [splitOnce, h, ih]; grind

end SplitOnce

-- Why a text is not an unsigned integer.
inductive IntErrorKind
  | empty
  | invalidDigit
  | posOverflow
  deriving DecidableEq, Repr

namespace IntErrorKind

def description : IntErrorKind → String
  | empty        => "cannot parse integer from empty string"
  | invalidDigit => "invalid digit found in string"
  | posOverflow  => "number too large to fit in target type"

instance : ToString IntErrorKind where
  toString := description

end IntErrorKind

-- The digits are read from the left, the first failure is the one that is reported.
def parseDigits (size acc : ℕ) : List Char → Except IntErrorKind ℕ
  | []      => .ok acc
  | c :: cs =>
    if c.isDigit then
      let acc := 10 * acc + (c.toNat - '0'.toNat)
      if acc < size then parseDigits size acc cs else .error .posOverflow
    else
      .error .invalidDigit

-- An unsigned integer below `size`: it may have a plus sign, which is not a number on its own.
def parseUnsigned (size : ℕ) : List Char → Except IntErrorKind ℕ
  | []            => .error .empty
  | ['+'] | ['-'] => .error .invalidDigit
  | '+' :: cs     => parseDigits size 0 cs
  | cs            => parseDigits size 0 cs

variable {size acc n : ℕ} {cs : List Char} {c : Char}

theorem isDigit_of_parseDigits (h : parseDigits size acc cs = .ok n) (hc : c ∈ cs) : c.isDigit := by
  induction cs generalizing acc
  case nil => cases hc
  case cons d ds ih =>
    simp only [parseDigits] at h
    split at h <;> try cases h
    split at h <;> try cases h
    rcases List.mem_cons.mp hc with rfl | hc
    · assumption
    · exact ih h hc

theorem mem_of_parseUnsigned (h : parseUnsigned size cs = .ok n) (hc : c ∈ cs) :
    c = '+' ∨ c.isDigit := by
  unfold parseUnsigned at h
  split at h <;> try cases h
  case _ ds _ =>
    rcases List.mem_cons.mp hc with rfl | hc
    · exact .inl rfl
    · exact .inr <| isDigit_of_parseDigits h hc
  case _ => exact .inr <| isDigit_of_parseDigits h hc

end Text
