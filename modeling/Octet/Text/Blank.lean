/-!
White space as texts use it: the twenty-five characters of the property
`White_Space`, of which `Char.isWhitespace` knows only the first few.
-/

namespace Octet.Text

/-- The ranges of code points with the property `White_Space`. -/
def blankRanges : List (Nat × Nat) :=
  [(0x9, 0xD), (0x20, 0x20), (0x85, 0x85), (0xA0, 0xA0), (0x1680, 0x1680), (0x2000, 0x200A),
    (0x2028, 0x2029), (0x202F, 0x202F), (0x205F, 0x205F), (0x3000, 0x3000)]

def isBlank (c : Char) : Bool :=
  blankRanges.any fun (first, last) => first ≤ c.toNat && c.toNat ≤ last

/-- The characters up to the last one that is not white space. -/
def trimEnd (cs : List Char) : List Char :=
  (cs.reverse.dropWhile isBlank).reverse

/-- What `trimEnd` leaves does not end in white space. -/
theorem getLast?_trimEnd {cs : List Char} {c : Char} (h : (trimEnd cs).getLast? = some c) :
    isBlank c = false := by
  rw [trimEnd, List.getLast?_reverse] at h
  generalize cs.reverse = l at h
  induction l with
  | nil => simp at h
  | cons a l ih =>
      rw [List.dropWhile_cons] at h
      split at h
      · exact ih h
      · simp_all

end Octet.Text
