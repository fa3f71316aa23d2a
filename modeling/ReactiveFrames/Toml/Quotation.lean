/-!
# Strings of TOML documents

A string stands between quotes or apostrophes, one of them or three. Between quotes a backslash
starts an escape; between three of them it may also stand at the end of a line, which then goes on
at the next character that is no blank. Line ends are line feeds here: a carriage return before one
has been dropped.
-/

namespace ReactiveFrames.Toml

/-- A blank within a line. -/
def isSpace (c : Char) : Bool := c == ' ' || c == '\t'

/-- A character may stand in a comment, or unescaped in a string. -/
def isPrintable (c : Char) : Bool := c == '\t' || (decide (' ' ≤ c) && c != '\x7f')

/-! ## Ends of strings -/

/-- Characters up to the closing quote, and what follows it. If `escapes` is set, a backslash takes
the next character along, and `escaped` tells that there was one. -/
def spanLine (quote : Char) (escapes : Bool) : Bool → List Char → Option (List Char × List Char)
  | _, [] => none
  | true, c :: rest => (spanLine quote escapes false rest).map fun s ↦ (c :: s.1, s.2)
  | false, c :: rest =>
    if c = quote then some ([], rest)
    else if isPrintable c then
      (spanLine quote escapes (escapes && c == '\\') rest).map fun s ↦ (c :: s.1, s.2)
    else none

/-- Characters up to three closing quotes, and what follows them. Of a run of more quotes up to two
belong to the string. -/
def spanBlock (quote : Char) (escapes : Bool) : Bool → List Char → Option (List Char × List Char)
  | _, [] => none
  | true, c :: rest => (spanBlock quote escapes false rest).map fun s ↦ (c :: s.1, s.2)
  | false, c :: rest =>
    if c = quote ∧ rest.take 2 = [quote, quote] then
      let inner := ((rest.drop 2).take 2).takeWhile (· = quote)
      some (inner, rest.drop (2 + inner.length))
    else if isPrintable c ∨ c = '\n' then
      (spanBlock quote escapes (escapes && c == '\\') rest).map fun s ↦ (c :: s.1, s.2)
    else none

/-! ## Escapes -/

/-- Value of a hexadecimal digit. -/
def hexDigit? (c : Char) : Option Nat :=
  if '0' ≤ c ∧ c ≤ '9' then some (c.toNat - 48)
  else if 'a' ≤ c ∧ c ≤ 'f' then some (c.toNat - 87)
  else if 'A' ≤ c ∧ c ≤ 'F' then some (c.toNat - 55)
  else none

/-- Character with a code point. -/
def scalar? (n : Nat) : Option Char := if n.isValidChar then some (Char.ofNat n) else none

/-- Character that a letter stands for after a backslash. -/
def escape? (c : Char) : Option Char :=
  match c with
  | 'b' => some '\x08'
  | 'f' => some '\x0c'
  | 'n' => some '\n'
  | 'r' => some '\r'
  | 't' => some '\t'
  | '"' => some '"'
  | '\\' => some '\\'
  | _ => none

/-- What has been read of an escape. -/
inductive Pending where
  | nothing
  | backslash
  /-- Digits that are still missing, and the value of those before them. -/
  | digits (missing value : Nat)

/-- Value of the characters of a string with escapes. -/
def unescape : Pending → List Char → Option (List Char)
  | .nothing, [] => some []
  | .nothing, c :: rest =>
    if c = '\\' then unescape .backslash rest else (unescape .nothing rest).map (c :: ·)
  | .backslash, c :: rest =>
    if c = 'u' then unescape (.digits 4 0) rest
    else if c = 'U' then unescape (.digits 8 0) rest
    else (escape? c).bind fun d ↦ (unescape .nothing rest).map (d :: ·)
  | .digits (missing + 1) value, c :: rest =>
    (hexDigit? c).bind fun digit ↦
      if missing = 0 then
        (scalar? (16 * value + digit)).bind fun d ↦ (unescape .nothing rest).map (d :: ·)
      else unescape (.digits missing (16 * value + digit)) rest
  | .digits .., _ => none
  | .backslash, [] => none

/-- Joins each line that ends in a backslash with what follows its blanks. -/
def joinLines : List Char → List Char
  | [] => []
  | '\\' :: '\\' :: rest => '\\' :: '\\' :: joinLines rest
  | c :: rest =>
    if c = '\\' ∧ (rest.dropWhile isSpace).head? = some '\n' then
      joinLines (rest.dropWhile fun d ↦ isSpace d || d == '\n')
    else c :: joinLines rest
  termination_by text => text.length
  decreasing_by
    all_goals simp only [List.length_cons]
    · omega
    · exact Nat.lt_succ_of_le (List.dropWhile_sublist _).length_le
    · omega

/-! ## Strings -/

/-- String within a line, after its opening quote, and what follows it. -/
def lineString? (quote : Char) (text : List Char) : Option (String × List Char) :=
  let escapes := quote == '"'
  (spanLine quote escapes false text).bind fun s ↦
    (if escapes then unescape .nothing s.1 else some s.1).map fun chars ↦
      (String.ofList chars, s.2)

/-- String that may take several lines, after its three opening quotes, and what follows it. A line
feed right after them does not count. -/
def blockString? (quote : Char) (text : List Char) : Option (String × List Char) :=
  let escapes := quote == '"'
  let text := if text.head? = some '\n' then text.tail else text
  (spanBlock quote escapes false text).bind fun s ↦
    (if escapes then unescape .nothing (joinLines s.1) else some s.1).map fun chars ↦
      (String.ofList chars, s.2)

/-- String after its first quote, and what follows it. -/
def string? (quote : Char) (text : List Char) : Option (String × List Char) :=
  if text.take 2 = [quote, quote] then blockString? quote (text.drop 2) else lineString? quote text

/-! ## Lengths -/

/-- What follows a span is not longer than what follows the first character of the span. -/
private theorem length_le_of_map_cons {r : Option (List Char × List Char)} {c : Char}
    {text body rest : List Char} (h : r.map (fun s ↦ (c :: s.1, s.2)) = some (body, rest))
    (ih : ∀ {body}, r = some (body, rest) → rest.length ≤ text.length) :
    rest.length ≤ (c :: text).length := by
  simp only [Option.map_eq_some_iff, Prod.mk.injEq] at h
  obtain ⟨⟨body', rest'⟩, h, -, rfl⟩ := h
  exact Nat.le_succ_of_le (ih h)

theorem spanLine_length {quote : Char} {escapes escaped : Bool} {text body rest : List Char}
    (h : spanLine quote escapes escaped text = some (body, rest)) : rest.length ≤ text.length := by
  fun_induction spanLine quote escapes escaped text generalizing body with
  | case1 => simp at h
  | case2 c text ih => exact length_le_of_map_cons h ih
  | case3 => simp_all
  | case4 c text _ _ ih => exact length_le_of_map_cons h ih
  | case5 => simp at h

theorem spanBlock_length {quote : Char} {escapes escaped : Bool} {text body rest : List Char}
    (h : spanBlock quote escapes escaped text = some (body, rest)) :
    rest.length ≤ text.length := by
  fun_induction spanBlock quote escapes escaped text generalizing body with
  | case1 => simp at h
  | case2 c text ih => exact length_le_of_map_cons h ih
  | case3 c text _ =>
    simp only [Option.some.injEq, Prod.mk.injEq] at h
    rw [← h.2, List.length_drop, List.length_cons]
    omega
  | case4 c text _ _ ih => exact length_le_of_map_cons h ih
  | case5 => simp at h

theorem lineString?_length {quote : Char} {text rest : List Char} {s : String}
    (h : lineString? quote text = some (s, rest)) : rest.length ≤ text.length := by
  simp only [lineString?, Option.bind_eq_some_iff, Option.map_eq_some_iff, Prod.mk.injEq] at h
  obtain ⟨⟨body, rest'⟩, h, -, -, -, rfl⟩ := h
  exact spanLine_length h

theorem blockString?_length {quote : Char} {text rest : List Char} {s : String}
    (h : blockString? quote text = some (s, rest)) : rest.length ≤ text.length := by
  simp only [blockString?, Option.bind_eq_some_iff, Option.map_eq_some_iff, Prod.mk.injEq] at h
  obtain ⟨⟨body, rest'⟩, h, -, -, -, rfl⟩ := h
  refine Nat.le_trans (spanBlock_length h) ?_
  split <;> simp

theorem string?_length {quote : Char} {text rest : List Char} {s : String}
    (h : string? quote text = some (s, rest)) : rest.length ≤ text.length := by
  unfold string? at h
  split at h
  · exact Nat.le_trans (blockString?_length h) (by simp)
  · exact lineString?_length h

end ReactiveFrames.Toml
