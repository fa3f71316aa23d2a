/-!
# Delimited spans

Splitting a text at the first occurrence of a delimiter of two characters, as comments and embedded
scripts end.
-/

namespace ReactiveFrames.Text

/-- Characters up to the first occurrence of two given characters, and what follows it. -/
def spanTo (a b : Char) : List Char → Option (List Char × List Char)
  | c :: d :: rest =>
    if c = a ∧ d = b then some ([], rest)
    else (spanTo a b (d :: rest)).map fun s ↦ (c :: s.1, s.2)
  | _ => none

theorem spanTo_append {a b : Char} {text body rest : List Char}
    (h : spanTo a b text = some (body, rest)) : body ++ a :: b :: rest = text := by
  induction text generalizing body with
  | nil => simp [spanTo] at h
  | cons c t ih =>
    cases t with
    | nil => simp [spanTo] at h
    | cons d t =>
      rw [spanTo] at h
      split at h
      · rename_i hcd
        simp only [Option.some.injEq, Prod.mk.injEq] at h
        simp [← h.1, ← h.2, hcd.1, hcd.2]
      · simp only [Option.map_eq_some_iff, Prod.mk.injEq] at h
        obtain ⟨⟨body', rest'⟩, h, rfl, rfl⟩ := h
        simp [ih h]

theorem eq_cons_of_head? {c : Char} {text : List Char} (h : text.head? = some c) :
    text = c :: text.tail := by
  cases text with
  | nil => simp at h
  | cons d rest => simpa using h

end ReactiveFrames.Text
