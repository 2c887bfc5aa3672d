import NodeForest.Json.Number

set_option autoImplicit false

/-! # The tokens of JSON text

`Token.read?` cuts text into brackets, separators and scalars and drops the blanks between them.
Strings are taken over decoded: an escaped character becomes the character, and two escapes that
are the halves of one character beyond the first 65536 become that character. -/

namespace NodeForest.Json

/-- The value of a hexadecimal digit of either case. -/
def hexDigit? (c : Char) : Option Nat :=
  if '0' ≤ c && c ≤ '9' then some (c.toNat - '0'.toNat)
  else if 'a' ≤ c && c ≤ 'f' then some (c.toNat - 'a'.toNat + 10)
  else if 'A' ≤ c && c ≤ 'F' then some (c.toNat - 'A'.toNat + 10)
  else none

/-- The number that four hexadecimal digits spell. -/
def hexQuad? (a b c d : Char) : Option Nat :=
  match hexDigit? a, hexDigit? b, hexDigit? c, hexDigit? d with
  | some a, some b, some c, some d => some (((a * 16 + b) * 16 + c) * 16 + d)
  | _, _, _, _ => none

/-- The character that a single letter after a backslash stands for. -/
def unescape? (c : Char) : Option Char :=
  if c = '"' || c = '\\' || c = '/' then some c
  else if c = 'b' then some (Char.ofNat 0x08)
  else if c = 'f' then some (Char.ofNat 0x0c)
  else if c = 'n' then some '\n'
  else if c = 'r' then some '\r'
  else if c = 't' then some '\t'
  else none

/-- Whether a number is the first half of a pair of escapes. -/
def isHighHalf (n : Nat) : Bool :=
  0xd800 ≤ n && n < 0xdc00

/-- Whether a number is the second half of a pair of escapes. -/
def isLowHalf (n : Nat) : Bool :=
  0xdc00 ≤ n && n < 0xe000

/-- Puts a character before the ones already taken. -/
def prepend (c : Char) (taken : Option (List Char × List Char)) : Option (List Char × List Char) :=
  taken.map fun (s, rest) => (c :: s, rest)

/-- The characters of a string up to its closing quote, and what follows the quote. Refused are an
    end without a quote, an unknown escape, half of a pair without the other half, and a control
    character that is not escaped. -/
def stringBody? : List Char → Option (List Char × List Char)
  | [] => none
  | '"' :: rest => some ([], rest)
  | '\\' :: 'u' :: a :: b :: c :: d :: rest =>
    match hexQuad? a b c d with
    | none => none
    | some n =>
      if isHighHalf n then
        match rest with
        | '\\' :: 'u' :: a' :: b' :: c' :: d' :: rest =>
          match hexQuad? a' b' c' d' with
          | none => none
          | some low =>
            if isLowHalf low then
              prepend (Char.ofNat (0x10000 + (n - 0xd800) * 0x400 + (low - 0xdc00)))
                (stringBody? rest)
            else none
        | _ => none
      else if isLowHalf n then none
      else prepend (Char.ofNat n) (stringBody? rest)
  | '\\' :: c :: rest =>
    match unescape? c with
    | none => none
    | some c => prepend c (stringBody? rest)
  | c :: rest => if c.toNat < 0x20 then none else prepend c (stringBody? rest)

theorem rest_of_prepend {c : Char} {taken : Option (List Char × List Char)} {s rest : List Char}
    (h : prepend c taken = some (s, rest)) : ∃ s', taken = some (s', rest) := by
  obtain ⟨⟨s', r⟩, hs, heq⟩ := Option.map_eq_some_iff.mp h
  exact ⟨s', by simp_all⟩

/-- What follows a string is shorter than the text that begins with it. -/
theorem length_of_stringBody? {cs s rest : List Char} (h : stringBody? cs = some (s, rest)) :
    rest.length < cs.length := by
  fun_induction stringBody? cs generalizing s rest <;> try simp at h
  case case2 => simp [← h.2]
  all_goals
    rename_i ih
    obtain ⟨s', hs⟩ := rest_of_prepend h
    have := ih hs
    simp only [List.length_cons]
    omega

/-- A token of JSON text. -/
inductive Token where
  | openArray
  | closeArray
  | openObject
  | closeObject
  | comma
  | colon
  | scalar (value : Json)

/-- Whether a character may stand between tokens. -/
def isBlank (c : Char) : Bool :=
  c = ' ' || c = '\t' || c = '\n' || c = '\r'

/-- Whether a character can be part of a number literal. -/
def isNumeral (c : Char) : Bool :=
  c.isDigit || c = '-' || c = '+' || c = '.' || c = 'e' || c = 'E'

/-- The bracket or separator that a character is. -/
def Token.punctuation? (c : Char) : Option Token :=
  match c with
  | '[' => some openArray
  | ']' => some closeArray
  | '\x7b' => some openObject
  | '\x7d' => some closeObject
  | ',' => some comma
  | ':' => some colon
  | _ => none

/-- The scalar at the start of the text, and what follows it. -/
def scalar? : List Char → Option (Json × List Char)
  | 'n' :: 'u' :: 'l' :: 'l' :: rest => some (null, rest)
  | 't' :: 'r' :: 'u' :: 'e' :: rest => some (bool true, rest)
  | 'f' :: 'a' :: 'l' :: 's' :: 'e' :: rest => some (bool false, rest)
  | '"' :: cs => (stringBody? cs).map fun (s, rest) => (string (String.ofList s), rest)
  | c :: cs =>
    (number? (c :: cs.takeWhile isNumeral)).map fun v => (v, cs.dropWhile isNumeral)
  | [] => none

/-- What follows a scalar is shorter than the text that begins with it. -/
theorem length_of_scalar? {cs rest : List Char} {v : Json} (h : scalar? cs = some (v, rest)) :
    rest.length < cs.length := by
  unfold scalar? at h
  split at h
  · grind
  · grind
  · grind
  · obtain ⟨⟨s, r⟩, hs, heq⟩ := Option.map_eq_some_iff.mp h
    have := length_of_stringBody? hs
    grind
  · obtain ⟨v', _, heq⟩ := Option.map_eq_some_iff.mp h
    have := (List.dropWhile_sublist isNumeral (l := ‹List Char›)).length_le
    grind
  · grind

/-- The tokens of the text, first to last, if it consists of tokens and blanks alone. -/
def Token.read? : List Char → Option (List Token)
  | [] => some []
  | c :: cs =>
    if isBlank c then read? cs
    else
      match punctuation? c with
      | some t => (read? cs).map (t :: ·)
      | none =>
        match h : scalar? (c :: cs) with
        | none => none
        | some (v, rest) =>
          have : rest.length < cs.length + 1 := length_of_scalar? h
          (read? rest).map (scalar v :: ·)
  termination_by cs => cs.length

end NodeForest.Json
