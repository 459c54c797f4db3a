/-!
Texts in pieces. A separator divides two pieces and belongs to neither, so that
every text has at least one piece.
-/

namespace Octet.Text

/-- The pieces of a text between its separators. -/
def split (separator : Char) : List Char → List (List Char)
  | [] => [[]]
  | c :: cs =>
      if c = separator then [] :: split separator cs
      else
        match split separator cs with
        | [] => [[c]]
        | piece :: pieces => (c :: piece) :: pieces

@[simp] theorem split_nil (separator : Char) : split separator [] = [[]] := rfl

@[simp] theorem split_separator (separator : Char) (cs : List Char) :
    split separator (separator :: cs) = [] :: split separator cs := by
  simp [split]

theorem split_ne_nil (separator : Char) (cs : List Char) : split separator cs ≠ [] := by
  cases cs with
  | nil => simp
  | cons c cs =>
      unfold split
      split
      · simp
      · split <;> simp

theorem split_of_notMem {separator : Char} {piece : List Char} (h : separator ∉ piece) :
    split separator piece = [piece] := by
  induction piece with
  | nil => rfl
  | cons c piece ih =>
      rw [List.mem_cons, not_or] at h
      rw [split, if_neg (Ne.symm h.1), ih h.2]

/-- A piece in front of a separator is split off whole. -/
theorem split_append {separator : Char} {piece : List Char} (h : separator ∉ piece)
    (cs : List Char) :
    split separator (piece ++ separator :: cs) = piece :: split separator cs := by
  induction piece with
  | nil => simp
  | cons c piece ih =>
      simp only [List.mem_cons, not_or] at h
      have hc : c ≠ separator := fun e => h.1 e.symm
      simp [split, hc, ih h.2]

theorem notMem_of_mem_split {separator : Char} {cs piece : List Char}
    (h : piece ∈ split separator cs) : separator ∉ piece := by
  induction cs generalizing piece with
  | nil => simp_all
  | cons c cs ih =>
      obtain ⟨first, more, hcs⟩ := List.exists_cons_of_ne_nil (split_ne_nil separator cs)
      rw [hcs] at ih
      by_cases hc : c = separator
      · subst hc
        rw [split_separator, hcs] at h
        rcases List.mem_cons.mp h with rfl | h
        · exact List.not_mem_nil
        · exact ih h
      · simp only [split, if_neg hc, hcs] at h
        rcases List.mem_cons.mp h with rfl | h
        · exact List.not_mem_cons_of_ne_of_not_mem (Ne.symm hc) (ih List.mem_cons_self)
        · exact ih (List.mem_cons_of_mem _ h)

end Octet.Text
