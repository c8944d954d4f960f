import MomRpc.Lib.Json

-- A recursive descent parser. What it parses is given together with the rest of the text.
namespace Json

abbrev Parser (α : Type) := List Char → Option (α × List Char)

def spaces (cs : List Char) : List Char :=
  cs.dropWhile isSpace

namespace Parser

def unicode (cs : List Char) : Option (Char × List Char) := do
  let (n, cs) ← hex4 cs
  if highSurrogate n then
    match cs with
    | '\\' :: 'u' :: cs =>
      let (low, cs) ← hex4 cs
      if lowSurrogate low then some (Char.ofNat (combine n low), cs) else none
    | _ => none
  else if lowSurrogate n then
    none
  else
    some (Char.ofNat n, cs)

def escaped : Parser Char
  | []      => none
  | e :: cs => if e = 'u' then unicode cs else (unescape e).map (·, cs)

def piece : Parser Char
  | []      => none
  | c :: cs =>
    if c = '\"' ∨ c.toNat < 0x20 then none else if c = '\\' then escaped cs else some (c, cs)

-- Up to the closing quote.
def chars : ℕ → Parser (List Char)
  | 0, _            => none
  | _, []           => none
  | fuel + 1, c :: cs =>
    if c = '\"' then
      some ([], cs)
    else do
      let (c, cs) ← piece (c :: cs)
      let (s, cs) ← chars fuel cs
      some (c :: s, cs)

def quoted : Parser String
  | '\"' :: cs => (chars (cs.length + 1) cs).map fun (s, cs) => (String.ofList s, cs)
  | _          => none

-- No zeros lead.
def number (cs : List Char) : Option (ℕ × List Char) :=
  let digits := cs.takeWhile Char.isDigit
  let n := Nat.ofDigitChars 10 digits 0
  if Nat.toDigits 10 n = digits then some (n, cs.dropWhile Char.isDigit) else none

def literal : Parser Json
  | 'n' :: 'u' :: 'l' :: 'l' :: cs        => some (null, cs)
  | 't' :: 'r' :: 'u' :: 'e' :: cs        => some (bool true, cs)
  | 'f' :: 'a' :: 'l' :: 's' :: 'e' :: cs => some (bool false, cs)
  | _                                     => none

-- What is separated by commas, up to what closes it.
def items {α : Type} (item : Parser α) (close : Char) : ℕ → Parser (List α)
  | 0, _         => none
  | fuel + 1, cs => do
    let (a, cs) ← item (spaces cs)
    match spaces cs with
    | []      => none
    | c :: cs =>
      if c = close then
        some ([a], cs)
      else if c = ',' then
        (items item close fuel cs).map fun (as, cs) => (a :: as, cs)
      else
        none

def sequence {α : Type} (item : Parser α) (close : Char) (cs : List Char) :
    Option (List α × List Char) :=
  match spaces cs with
  | []      => none
  | c :: ds => if c = close then some ([], ds) else items item close cs.length cs

def member (value : Parser Json) (cs : List Char) : Option ((String × Json) × List Char) := do
  let (k, cs) ← quoted cs
  match spaces cs with
  | ':' :: cs => (value (spaces cs)).map fun (v, cs) => ((k, v), cs)
  | _         => none

def value : ℕ → Parser Json
  | 0, _              => none
  | _, []             => none
  | fuel + 1, c :: cs =>
    if c = '\"' then
      (quoted (c :: cs)).map fun (s, cs) => (str s, cs)
    else if c = '[' then
      (sequence (value fuel) ']' cs).map fun (vs, cs) => (arr vs, cs)
    else if c = '\x7b' then
      (sequence (member (value fuel)) '\x7d' cs).map fun (ms, cs) => (obj ms, cs)
    else if c.isDigit then
      (number (c :: cs)).map fun (n, cs) => (num n, cs)
    else
      literal (c :: cs)

theorem hex4_append {ds cs : List Char} {n : ℕ} (digits : hex4 ds = some (n, [])) :
    hex4 (ds ++ cs) = some (n, cs) := by
  unfold hex4 at digits
  split at digits
  case h_1 w x y z ds =>
    simp only [Option.bind_eq_bind, Option.bind_eq_some_iff] at digits
    obtain ⟨w', hw, x', hx, y', hy, z', hz, he⟩ := digits
    obtain ⟨rfl, rfl⟩ := by simpa using he
    simp [hex4, hw, hx, hy, hz]
  case h_2 => cases digits

-- No character is a surrogate.
theorem not_surrogate (c : Char) :
    highSurrogate c.toNat = false ∧ lowSurrogate c.toNat = false := by
  have valid : c.toNat.isValidChar := c.valid
  simp only [Nat.isValidChar] at valid
  simp [highSurrogate, lowSurrogate]
  omega

theorem unicode_append {c : Char} {ds cs : List Char} (digits : hex4 ds = some (c.toNat, [])) :
    unicode (ds ++ cs) = some (c, cs) := by
  simp [unicode, hex4_append digits, not_surrogate]

theorem unicode_surrogates {c : Char} {ds es cs : List Char} {high low : ℕ}
    (digits : hex4 ds = some (high, [])) (digits' : hex4 es = some (low, []))
    (isHigh : highSurrogate high) (isLow : lowSurrogate low) (char : c.toNat = combine high low) :
    unicode (ds ++ '\\' :: 'u' :: es ++ cs) = some (c, cs) := by
  simp [unicode, hex4_append digits, hex4_append digits', isHigh, isLow, ← char]

theorem piece_append {c : Char} {ds : List Char} (text : Piece c ds) (cs : List Char) :
    piece (ds ++ cs) = some (c, cs) := by
  cases text
  case plain quote backslash control => simp [piece, quote, backslash, control]
  case short e escape =>
    have other : e ≠ 'u' := by rintro rfl; simp [unescape] at escape
    simp [piece, escaped, other, escape]
  case unicode ds digits => simp [piece, escaped, unicode_append digits]
  case surrogates digits digits' isHigh isLow char =>
    simpa [piece, escaped] using unicode_surrogates digits digits' isHigh isLow char

theorem piece_head {c : Char} {ds : List Char} (text : Piece c ds) :
    ∃ d ds', ds = d :: ds' ∧ d ≠ '\"' := by
  cases text
  case plain quote _ _ => exact ⟨c, [], rfl, quote⟩
  all_goals exact ⟨'\\', _, rfl, by simp⟩

theorem chars_append {s ds : List Char} (text : Chars s ds) (cs : List Char) {fuel : ℕ}
    (enough : ds.length < fuel) : chars fuel (ds ++ '\"' :: cs) = some (s, cs) := by
  induction text generalizing fuel
  case nil =>
    obtain ⟨fuel, rfl⟩ := Nat.exists_eq_add_one.mpr enough
    simp [chars]
  case cons c s ds es head tail ih =>
    obtain ⟨fuel, rfl⟩ := Nat.exists_eq_add_one.mpr (Nat.zero_lt_of_lt enough)
    have parsed := piece_append head (es ++ '\"' :: cs)
    obtain ⟨d, ds', rfl, noQuote⟩ := piece_head head
    have enough : es.length < fuel := by
      simp only [List.length_append, List.length_cons] at enough
      omega
    rw [List.cons_append] at parsed
    simp [chars, noQuote, parsed, ih enough]

theorem quoted_append {s : String} {ds : List Char} (text : Quoted s ds) (cs : List Char) :
    quoted (ds ++ cs) = some (s, cs) := by
  obtain ⟨es, text, rfl⟩ := text
  have enough : es.length < (es ++ '\"' :: cs).length + 1 := by
    rw [List.length_append]
    omega
  have parsed := chars_append text cs enough
  simp only [List.append_assoc, List.cons_append, List.nil_append, quoted, parsed, Option.map_some,
    String.ofList_toList]

-- The text goes on with something that is no digit.
def NoDigit (cs : List Char) : Prop :=
  ∀ c ∈ cs.head?, ¬c.isDigit

theorem number_append (n : ℕ) {cs : List Char} (noDigit : NoDigit cs) :
    number (Nat.toDigits 10 n ++ cs) = some (n, cs) := by
  have digits : ∀ c ∈ Nat.toDigits 10 n, c.isDigit := fun c hc =>
    Nat.isDigit_of_mem_toDigits (by simp) (by simp) hc
  have stop : cs.takeWhile Char.isDigit = [] ∧ cs.dropWhile Char.isDigit = cs := by
    cases cs
    case nil => simp
    case cons c cs =>
      have noDigit : c.isDigit = false := by simpa [NoDigit] using noDigit
      simp [noDigit]
  simp [number, List.takeWhile_append_of_pos digits, List.dropWhile_append_of_pos digits, stop]

theorem spaces_append {ws cs : List Char} (space : Space ws) : spaces (ws ++ cs) = spaces cs :=
  List.dropWhile_append_of_pos <| List.all_eq_true.mp space

theorem spaces_cons {c : Char} {cs : List Char} (other : isSpace c = false) :
    spaces (c :: cs) = c :: cs :=
  List.dropWhile_cons_of_neg (by simp [other])

theorem quoted_spaces {s : String} {ds cs : List Char} (text : Quoted s ds) :
    spaces (ds ++ cs) = ds ++ cs := by
  obtain ⟨es, _, rfl⟩ := text
  exact spaces_cons rfl

theorem isSpace_of_isDigit {c : Char} (digit : c.isDigit) : isSpace c = false := by
  rw [Char.isDigit_iff_toNat] at digit
  simp only [isSpace, decide_eq_false_iff_not]
  rintro (rfl | rfl | rfl | rfl) <;> simp at digit

theorem digits_cons (n : ℕ) : ∃ c cs, Nat.toDigits 10 n = c :: cs ∧ c.isDigit := by
  have nonempty : Nat.toDigits 10 n ≠ [] := Nat.toDigits_ne_nil
  have ⟨c, cs, he⟩ := List.exists_cons_of_ne_nil nonempty
  have mem : c ∈ Nat.toDigits 10 n := he ▸ List.mem_cons_self ..
  exact ⟨c, cs, he, Nat.isDigit_of_mem_toDigits (by simp) (by simp) mem⟩

-- A value begins with none of the characters that are skipped before it, nor with one that closes
-- an array.
theorem value_head {v : Json} {cs : List Char} (text : Text (.value v) cs) :
    ∃ c ds, cs = c :: ds ∧ isSpace c = false ∧ c ≠ ']' := by
  cases text
  case num n =>
    have ⟨c, cs, he, digit⟩ := digits_cons n
    refine ⟨c, cs, he, isSpace_of_isDigit digit, ?_⟩
    rintro rfl
    simp at digit
  case str quoted =>
    obtain ⟨ds, _, rfl⟩ := quoted
    exact ⟨_, _, rfl, rfl, by simp⟩
  all_goals exact ⟨_, _, rfl, rfl, by simp⟩

theorem value_spaces {v : Json} {cs ds : List Char} (text : Text (.value v) cs) :
    spaces (cs ++ ds) = cs ++ ds := by
  obtain ⟨c, cs, rfl, noSpace, _⟩ := value_head text
  exact spaces_cons noSpace

theorem element_head {v : Json} {cs : List Char} (text : Text (.element v) cs) (ds : List Char) :
    ∃ c es, spaces (cs ++ ds) = c :: es ∧ c ≠ ']' := by
  cases text
  case element space _ value =>
    rw [List.append_assoc, List.append_assoc, spaces_append space, value_spaces value]
    obtain ⟨c, cs, rfl, _, other⟩ := value_head value
    exact ⟨c, _, rfl, other⟩

theorem elements_head {vs : List Json} {cs : List Char} (text : Text (.elements vs) cs)
    (ds : List Char) :
    ∃ c es, spaces (cs ++ ds) = c :: es ∧ c ≠ ']' := by
  cases text
  case lastElement element => exact element_head element ds
  case elements element _ =>
    rw [List.append_assoc]
    exact element_head element _

theorem key_head {k : String} {ws ks cs : List Char} (space : Space ws) (key : Quoted k ks) :
    ∃ es, spaces (ws ++ (ks ++ cs)) = '\"' :: es := by
  rw [spaces_append space, quoted_spaces key]
  obtain ⟨ds, _, rfl⟩ := key
  exact ⟨_, rfl⟩

theorem members_head {ms : List (String × Json)} {cs : List Char} (text : Text (.members ms) cs)
    (ds : List Char) :
    ∃ es, spaces (cs ++ ds) = '\"' :: es := by
  cases text
  case lastMember space key _ _ =>
    simp only [List.append_assoc]
    exact key_head space key
  case members space key _ _ _ =>
    simp only [List.append_assoc]
    exact key_head space key

theorem NoDigit.of_head {c : Char} {cs : List Char} (noDigit : c.isDigit = false) :
    NoDigit (c :: cs) := by
  simp [NoDigit, noDigit]

theorem NoDigit.space {ws cs : List Char} (space : Space ws) (noDigit : NoDigit cs) :
    NoDigit (ws ++ cs) := by
  cases ws
  case nil => exact noDigit
  case cons c ws =>
    have isSpace : isSpace c := by simp [Space] at space; exact space.left
    refine .of_head <| Bool.eq_false_iff.mpr fun digit => ?_
    simp [isSpace_of_isDigit digit] at isSpace

section Items

variable {α : Type} {item : Parser α} {close : Char} {fuel : ℕ} {a : α} {as : List α}
  {cs ds rest : List Char}

-- The item's text goes as far as `rest`, but for space.
def Reads (item : Parser α) (cs : List Char) (a : α) (rest : List Char) : Prop :=
  ∃ ds, item (spaces (cs ++ rest)) = some (a, ds) ∧ spaces ds = spaces rest

theorem items_last (reads : Reads item cs a (close :: rest)) (other : isSpace close = false) :
    items item close (fuel + 1) (cs ++ close :: rest) = some ([a], rest) := by
  have ⟨ds, parsed, after⟩ := reads
  rw [spaces_cons other] at after
  simp [items, parsed, after]

theorem items_cons (others : items item close fuel ds = some (as, rest)) (comma : close ≠ ',')
    (reads : Reads item cs a (',' :: ds)) :
    items item close (fuel + 1) (cs ++ ',' :: ds) = some (a :: as, rest) := by
  have ⟨es, parsed, after⟩ := reads
  rw [spaces_cons rfl] at after
  simp [items, parsed, after, comma.symm, others]

theorem sequence_items {c : Char} (head : spaces cs = c :: ds) (other : c ≠ close) :
    sequence item close cs = items item close cs.length cs := by
  simp [sequence, head, other]

theorem sequence_empty (space : Space cs) (other : isSpace close = false) :
    sequence item close (cs ++ close :: rest) = some ([], rest) := by
  simp [sequence, spaces_append space, spaces_cons other]

theorem member_reads {value : Parser Json} {k : String} {v : Json} {ws ks ws' : List Char}
    (space : Space ws) (key : Quoted k ks) (space' : Space ws') (reads : Reads value cs v rest) :
    Reads (member value) (ws ++ ks ++ ws' ++ ':' :: cs) (k, v) rest := by
  have ⟨ds, parsed, after⟩ := reads
  refine ⟨ds, ?_, after⟩
  have colon : spaces (':' :: (cs ++ rest)) = ':' :: (cs ++ rest) := spaces_cons rfl
  simp [member, spaces_append space, quoted_spaces key, quoted_append key, spaces_append space',
    colon, parsed]

end Items

-- What the parser does with the text of a node, if it goes on with something that the node's last
-- number does not.
def Parses : Node → List Char → Prop
  | .value v, cs     => ∀ fuel rest, cs.length ≤ fuel → NoDigit rest →
    value fuel (cs ++ rest) = some (v, rest)
  | .element v, cs   => ∀ fuel rest, cs.length ≤ fuel → NoDigit rest → Reads (value fuel) cs v rest
  | .elements vs, cs => ∀ fuel n rest, cs.length ≤ fuel → cs.length < n →
    items (value fuel) ']' n (cs ++ ']' :: rest) = some (vs, rest)
  | .members ms, cs  => ∀ fuel n rest, cs.length ≤ fuel → cs.length < n →
    items (member (value fuel)) '\x7d' n (cs ++ '\x7d' :: rest) = some (ms, rest)

theorem parses {node : Node} {cs : List Char} (text : Text node cs) : Parses node cs := by
  induction text
  case null | true | false =>
    intro fuel rest enough _
    obtain ⟨fuel, rfl⟩ := Nat.exists_eq_add_one.mpr (Nat.zero_lt_of_lt enough)
    rfl
  case num n =>
    intro fuel rest enough noDigit
    have pos : 0 < fuel := Nat.lt_of_lt_of_le Nat.length_toDigits_pos enough
    obtain ⟨fuel, rfl⟩ := Nat.exists_eq_add_one.mpr pos
    have parsed := number_append n noDigit
    have ⟨c, cs, he, digit⟩ := digits_cons n
    rw [he, List.cons_append] at parsed ⊢
    have others : c ≠ '\"' ∧ c ≠ '[' ∧ c ≠ '\x7b' := by
      refine ⟨?_, ?_, ?_⟩ <;> rintro rfl <;> simp at digit
    simp [value, others, digit, parsed]
  case str quoted =>
    intro fuel rest enough _
    have parsed := quoted_append quoted rest
    obtain ⟨ds, _, rfl⟩ := quoted
    obtain ⟨fuel, rfl⟩ := Nat.exists_eq_add_one.mpr (Nat.zero_lt_of_lt enough)
    simp only [List.cons_append, List.append_assoc, List.nil_append] at parsed ⊢
    simp [value, parsed]
  case emptyArr space =>
    intro fuel rest enough _
    obtain ⟨fuel, rfl⟩ := Nat.exists_eq_add_one.mpr (Nat.zero_lt_of_lt enough)
    simpa [value] using sequence_empty space rfl
  case arr cs elements ih =>
    intro fuel rest enough _
    obtain ⟨fuel, rfl⟩ := Nat.exists_eq_add_one.mpr (Nat.zero_lt_of_lt enough)
    have ⟨c, es, head, other⟩ := elements_head elements (']' :: rest)
    have parsed := ih fuel (cs ++ ']' :: rest).length rest (by simp at enough; omega) (by simp)
    simpa [value, sequence_items head other] using parsed
  case emptyObj space =>
    intro fuel rest enough _
    obtain ⟨fuel, rfl⟩ := Nat.exists_eq_add_one.mpr (Nat.zero_lt_of_lt enough)
    simpa [value] using sequence_empty space rfl
  case obj cs members ih =>
    intro fuel rest enough _
    obtain ⟨fuel, rfl⟩ := Nat.exists_eq_add_one.mpr (Nat.zero_lt_of_lt enough)
    have ⟨es, head⟩ := members_head members ('\x7d' :: rest)
    have parsed := ih fuel (cs ++ '\x7d' :: rest).length rest (by simp at enough; omega) (by simp)
    simpa [value, sequence_items head] using parsed
  case element space value space' ih =>
    intro fuel rest enough noDigit
    have parsed := ih fuel _ (by simp at enough; omega) (noDigit.space space')
    refine ⟨_, ?_, spaces_append space'⟩
    rw [List.append_assoc, List.append_assoc, spaces_append space, value_spaces value, parsed]
  case lastElement element ih =>
    intro fuel n rest enough enough'
    obtain ⟨n, rfl⟩ := Nat.exists_eq_add_one.mpr (Nat.zero_lt_of_lt enough')
    exact items_last (ih fuel _ enough (.of_head rfl)) rfl
  case elements element rest ih ih' =>
    intro fuel n rest enough enough'
    obtain ⟨n, rfl⟩ := Nat.exists_eq_add_one.mpr (Nat.zero_lt_of_lt enough')
    simp only [List.length_append, List.length_cons] at enough enough'
    have others := ih' fuel n rest (by omega) (by omega)
    simpa using items_cons others (by simp) <| ih fuel _ (by omega) (.of_head rfl)
  case lastMember space key space' element ih =>
    intro fuel n rest enough enough'
    obtain ⟨n, rfl⟩ := Nat.exists_eq_add_one.mpr (Nat.zero_lt_of_lt enough')
    simp only [List.length_append, List.length_cons] at enough
    have reads := ih fuel ('\x7d' :: rest) (by omega) (.of_head rfl)
    exact items_last (member_reads space key space' reads) rfl
  case members space key space' element rest ih ih' =>
    intro fuel n rest enough enough'
    obtain ⟨n, rfl⟩ := Nat.exists_eq_add_one.mpr (Nat.zero_lt_of_lt enough')
    simp only [List.length_append, List.length_cons] at enough enough'
    have others := ih' fuel n rest (by omega) (by omega)
    simpa using items_cons others (by simp) <| member_reads space key space' <|
      ih fuel _ (by omega) (.of_head rfl)

end Parser

def parse (cs : List Char) : Option Json := do
  let (v, cs) ← Parser.value cs.length (spaces cs)
  if spaces cs = [] then some v else none

-- The parser knows every text.
theorem parse_represents {v : Json} {cs : List Char} (text : Represents cs v) :
    parse cs = some v := by
  have noDigit : Parser.NoDigit [] := by simp [Parser.NoDigit]
  have ⟨ds, parsed, after⟩ := Parser.parses text cs.length [] (Nat.le_refl _) noDigit
  rw [List.append_nil] at parsed
  rw [show spaces [] = [] from rfl] at after
  simp [parse, parsed, after]

-- So a text stands for one value only.
theorem Represents.unique {v w : Json} {cs : List Char} (text : Represents cs v)
    (text' : Represents cs w) : v = w :=
  Option.some.inj <| (parse_represents text).symm.trans (parse_represents text')

theorem parse_render (v : Json) : parse v.render = some v :=
  parse_represents <| render_represents v

end Json
