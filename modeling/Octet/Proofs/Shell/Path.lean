import Octet.Shell.Path

/-!
What a path spells, said apart from how it is divided: the names in it, and the
stem of the name that it ends in. The stem is what stands before the last dot of
the name, unless that dot is in front.
-/

namespace Octet.Path

/-- Characters spell names, with slashes between them and perhaps around
them. -/
inductive Spells : List Char → List String → Prop where
  | nil : Spells [] []
  | slash {cs : List Char} {names : List String} : Spells cs names → Spells ('/' :: cs) names
  | last {name : List Char} : name ≠ [] → '/' ∉ name → Spells name [String.ofList name]
  | next {name cs : List Char} {names : List String} : name ≠ [] → '/' ∉ name → Spells cs names →
      Spells (name ++ '/' :: cs) (String.ofList name :: names)

/-- The pieces between slashes that are not empty. -/
theorem Spells.eq_pieces {cs : List Char} {names : List String} (h : Spells cs names) :
    names = ((Text.split '/' cs).filter (· ≠ [])).map String.ofList := by
  induction h with
  | nil => rfl
  | slash _ ih => simpa using ih
  | last hname hslash => simp [Text.split_of_notMem hslash, hname]
  | next hname hslash _ ih => simp [Text.split_append hslash, hname, ih]

theorem spells_pieces (cs : List Char) :
    Spells cs (((Text.split '/' cs).filter (· ≠ [])).map String.ofList) := by
  -- Each slash divides the rest from what stands before it.
  induction hlength : cs.length using Nat.strongRecOn generalizing cs with
  | ind length ih =>
      by_cases hslash : '/' ∈ cs
      · obtain ⟨name, rest, rfl, hname⟩ := List.eq_append_cons_of_mem hslash
        have hrest := ih rest.length (by simp [← hlength]; omega) rest rfl
        by_cases hempty : name = []
        · subst hempty
          simpa using Spells.slash hrest
        · simpa [Text.split_append hname, hempty] using Spells.next hempty hname hrest
      · by_cases hempty : cs = []
        · subst hempty
          exact .nil
        · simpa [Text.split_of_notMem hslash, hempty] using Spells.last hempty hslash

theorem names_eq {path : String} {found : List String} :
    names path = found ↔ Spells path.toList found := by
  constructor
  · rintro rfl
    exact spells_pieces _
  · intro h
    exact h.eq_pieces.symm

theorem isAbsolute_iff {path : String} :
    isAbsolute path = true ↔ ∃ cs, path.toList = '/' :: cs := by
  simp [isAbsolute, List.head?_eq_some_iff]

/-! ### Stems -/

inductive IsStem : List Char → List Char → Prop where
  | whole {name : List Char} : '.' ∉ name.tail → IsStem name name
  | cut {stem extension : List Char} : stem ≠ [] → '.' ∉ extension →
      IsStem (stem ++ '.' :: extension) stem

private theorem dropWhile_extension {extension rest : List Char} (h : '.' ∉ extension) :
    (extension.reverse ++ rest).dropWhile (· ≠ '.') = rest.dropWhile (· ≠ '.') := by
  apply List.dropWhile_append_of_pos
  intro c hc
  have hne : c ≠ '.' := by
    rintro rfl
    exact h (List.mem_reverse.mp hc)
  simpa using hne

theorem IsStem.stem_eq {name found : List Char} (h : IsStem name found) : stem name = found := by
  cases h with
  | whole hdot =>
      cases name with
      | nil => rfl
      | cons c cs =>
          rw [List.tail_cons] at hdot
          rw [stem, List.reverse_cons, dropWhile_extension hdot]
          by_cases hc : c = '.' <;> simp [hc]
  | @cut _ extension hstem hdot =>
      have hreverse : (found ++ '.' :: extension).reverse =
          extension.reverse ++ '.' :: found.reverse := by
        simp
      obtain ⟨c, cs, hcs⟩ := List.exists_cons_of_ne_nil (List.reverse_ne_nil_iff.mpr hstem)
      have hfound : found = (c :: cs).reverse := by
        rw [← hcs, List.reverse_reverse]
      rw [stem, hreverse, dropWhile_extension hdot, hcs]
      simpa using hfound.symm

theorem isStem_stem (name : List Char) : IsStem name (stem name) := by
  by_cases hdot : '.' ∈ name.tail
  · -- The last dot is the first one from behind.
    obtain ⟨behind, before, hsplit, hlast⟩ :=
      List.eq_append_cons_of_mem (List.mem_reverse.mpr hdot)
    have htail : name.tail = before.reverse ++ '.' :: behind.reverse := by
      rw [← List.reverse_reverse name.tail, hsplit]
      simp
    cases name with
    | nil => simp at hdot
    | cons c cs =>
        have hcut : IsStem (c :: cs) (c :: before.reverse) := by
          have hname : c :: cs = (c :: before.reverse) ++ '.' :: behind.reverse := by
            simpa using htail
          rw [hname]
          exact .cut (by simp) (by simpa using hlast)
        rw [hcut.stem_eq]
        exact hcut
  · rw [(IsStem.whole hdot).stem_eq]
    exact .whole hdot

/-- The last name of a path that is more than a single dot. -/
def LastName (path name : String) : Prop :=
  ∃ before dots, Spells path.toList (before ++ name :: dots) ∧ name ≠ "." ∧
    ∀ other ∈ dots, other = "."

/-- The stem of the last name. There is none if that is two dots, or if there
is no such name. -/
inductive HasStem (path : String) : Option String → Prop where
  | stem {name : String} {stem : List Char} : LastName path name → name ≠ ".." →
      IsStem name.toList stem → HasStem path (some (String.ofList stem))
  | none : (∀ name, LastName path name → name = "..") → HasStem path none

theorem lastName_iff {path name : String} :
    LastName path name ↔ ((names path).filter (· ≠ ".")).getLast? = some name := by
  rw [List.getLast?_eq_head?_reverse, ← List.filter_reverse, List.head?_filter,
    List.find?_eq_some_iff_append]
  constructor
  · rintro ⟨before, dots, hspells, hname, hdots⟩
    refine ⟨by simpa using hname, dots.reverse, before.reverse, ?_, ?_⟩
    · rw [names_eq.mpr hspells]
      simp
    · intro other hother
      simpa using hdots other (List.mem_reverse.mp hother)
  · rintro ⟨hname, dots, before, hnames, hdots⟩
    refine ⟨before.reverse, dots.reverse, names_eq.mp ?_, by simpa using hname, ?_⟩
    · rw [← List.reverse_reverse (names path), hnames]
      simp
    · intro other hother
      simpa using hdots other (List.mem_reverse.mp hother)

theorem stem?_eq {path : String} {found : Option String} :
    stem? path = found ↔ HasStem path found := by
  constructor
  · rintro rfl
    unfold stem?
    split
    · next hlast =>
        refine .none fun name hname => ?_
        rw [lastName_iff, hlast] at hname
        exact (Option.some.inj hname).symm
    · next name hname hlast =>
        exact .stem (lastName_iff.mpr hlast) hname (isStem_stem _)
    · next hlast =>
        refine .none fun name hname => ?_
        rw [lastName_iff, hlast] at hname
        cases hname
  · intro h
    cases h with
    | stem hlast hdots hstem =>
        rw [lastName_iff] at hlast
        unfold stem?
        rw [hlast]
        split
        · next heq => exact absurd (Option.some.inj heq) hdots
        · next heq =>
            rw [← Option.some.inj heq, hstem.stem_eq]
        · next heq => cases heq
    | none hnone =>
        unfold stem?
        split
        · rfl
        · next name hname hlast =>
            exact absurd (hnone name (lastName_iff.mpr hlast)) hname
        · rfl

end Octet.Path
