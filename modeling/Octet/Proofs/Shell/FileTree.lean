import Octet.Proofs.Result
import Octet.Proofs.Shell.Path
import Octet.Shell.FileTree

/-!
What paths stand for in a tree of files. Names lead from one place to another,
each of them from a folder that the system lets them pass. A path names a file
if its names lead there. It takes a file if all its names but the last lead to
such a folder, where the last one belongs to a file or to nothing and may be
written.

Reading and writing succeed in these cases and in no other. Writing changes the
tree at one place only, so that every way through it is still there, and the
same path names the file that has been written.
-/

namespace Octet

/-- Bytes are a text just when they spell it. -/
theorem Entry.textOf_ok {contents : List UInt8} {text : String} :
    textOf contents = .ok text ↔ contents = text.toUTF8.data.toList := by
  constructor
  · intro h
    unfold textOf String.fromUTF8? at h
    split at h
    · next found heq =>
        split at heq
        · cases h
          cases heq
          rfl
        · cases heq
    · cases h
  · rintro rfl
    have hbytes : ByteArray.mk text.toUTF8.data.toList.toArray = text.toUTF8 := by
      rw [Array.toArray_toList]
    have hdecode : String.fromUTF8? (ByteArray.mk text.toUTF8.data.toList.toArray) = some text := by
      rw [hbytes]
      exact dif_pos text.isValidUTF8
    rw [textOf, hdecode]

namespace FileTree

variable {t : FileTree} {path : String} {place : List String} {contents : List UInt8}

theorem find?_insert_self (h : place ≠ []) (entry : Entry) :
    (t.insert place entry).find? place = some entry := by
  simp [find?, insert, h]

theorem find?_insert_of_ne {other : List String} (h : other ≠ place) (entry : Entry) :
    (t.insert place entry).find? other = t.find? other := by
  have hb : (other == place) = false := by simpa using h
  simp only [find?, insert, List.lookup_cons, hb]
  congr 1
  induction t.entries with
  | nil => rfl
  | cons first entries ih =>
      obtain ⟨key, value⟩ := first
      by_cases hkey : key = place
      · subst hkey
        simpa [List.lookup_cons, hb] using ih
      · simp only [ne_eq, decide_not] at ih
        simp [hkey, List.lookup_cons, ih]

/-! ### Ways -/

/-- Ways may go on from here. -/
structure Passable (t : FileTree) (place : List String) : Prop where
  folder : t.find? place = some .folder
  allowed : t.refusal? .search place = none

/-- Names lead from a place to another one. -/
inductive Leads (t : FileTree) : List String → List String → List String → Prop where
  | done (here : List String) : Leads t here [] here
  | stay {here place names : List String} : t.Passable here →
      Leads t here names place → Leads t here ("." :: names) place
  | up {here place names : List String} : t.Passable here →
      Leads t here.dropLast names place → Leads t here (".." :: names) place
  | down {here place names : List String} {name : String} : t.Passable here → name ≠ "." →
      name ≠ ".." → (t.find? (here ++ [name])).isSome → Leads t (here ++ [name]) names place →
      Leads t here (name :: names) place

inductive Starts (t : FileTree) (path : String) : List String → Prop where
  | root {cs : List Char} : path.toList = '/' :: cs → Starts t path []
  | working : (∀ cs, path.toList ≠ '/' :: cs) → Starts t path t.working

theorem Leads.append {here middle place names more : List String} (h : t.Leads here names middle)
    (h' : t.Leads middle more place) : t.Leads here (names ++ more) place := by
  induction h with
  | done => exact h'
  | stay hpass _ ih => exact .stay hpass (ih h')
  | up hpass _ ih => exact .up hpass (ih h')
  | down hpass hdot hdots hfound _ ih => exact .down hpass hdot hdots hfound (ih h')

theorem allow_ok {access : Access} {u : Unit} :
    t.allow access place = .ok u ↔ t.refusal? access place = none := by
  unfold allow
  split <;> simp_all

theorem enter_ok {u : Unit} : t.enter place = .ok u ↔ t.Passable place := by
  unfold enter
  split
  · next h => exact iff_of_false (by simp) fun hpass => by simp [hpass.folder] at h
  · next h => exact iff_of_false (by simp) fun hpass => by simp [hpass.folder] at h
  · next h => exact allow_ok.trans ⟨fun hallowed => ⟨h, hallowed⟩, Passable.allowed⟩

theorem step_ok {here : List String} {name : String} :
    t.step here name = .ok place ↔ t.Passable here ∧
      ((name = "." ∧ here = place) ∨ (name = ".." ∧ here.dropLast = place) ∨
        (name ≠ "." ∧ name ≠ ".." ∧ (t.find? (here ++ [name])).isSome ∧
          here ++ [name] = place)) := by
  simp only [step, Result.bind_ok, enter_ok, exists_const]
  refine and_congr_right fun _ => ?_
  split
  · next hdot => simp [hdot, Result.pure_ok]
  · split
    · next hdot hdots => simp [hdots, Result.pure_ok]
    · split
      · next hdot hdots hfound => simp [hdot, hdots, hfound, Result.pure_ok]
      · next hdot hdots hfound => simp [hdot, hdots, hfound]

theorem leads_cons {here names : List String} {name : String} :
    t.Leads here (name :: names) place ↔
      ∃ next, t.step here name = .ok next ∧ t.Leads next names place := by
  constructor
  · intro h
    cases h with
    | stay hpass hrest => exact ⟨_, step_ok.mpr ⟨hpass, .inl ⟨rfl, rfl⟩⟩, hrest⟩
    | up hpass hrest => exact ⟨_, step_ok.mpr ⟨hpass, .inr (.inl ⟨rfl, rfl⟩)⟩, hrest⟩
    | down hpass hdot hdots hfound hrest =>
        exact ⟨_, step_ok.mpr ⟨hpass, .inr (.inr ⟨hdot, hdots, hfound, rfl⟩)⟩, hrest⟩
  · rintro ⟨next, hstep, hrest⟩
    obtain ⟨hpass, ⟨rfl, rfl⟩ | ⟨rfl, rfl⟩ | ⟨hdot, hdots, hfound, rfl⟩⟩ := step_ok.mp hstep
    · exact .stay hpass hrest
    · exact .up hpass hrest
    · exact .down hpass hdot hdots hfound hrest

theorem starts_iff {here : List String} : t.Starts path here ↔ t.start path = here := by
  unfold start
  split
  · next h =>
      obtain ⟨cs, hcs⟩ := Path.isAbsolute_iff.mp h
      constructor
      · intro hstarts
        cases hstarts with
        | root => rfl
        | working hnone => exact absurd hcs (hnone cs)
      · rintro rfl
        exact .root hcs
  · next h =>
      constructor
      · intro hstarts
        cases hstarts with
        | root hcs => exact absurd (Path.isAbsolute_iff.mpr ⟨_, hcs⟩) h
        | working => rfl
      · rintro rfl
        exact .working fun cs hcs => h (Path.isAbsolute_iff.mpr ⟨cs, hcs⟩)

/-- Following names goes where they lead. -/
theorem walk_ok {names : List String} :
    t.walk path names = .ok place ↔ ∃ here, t.Starts path here ∧ t.Leads here names place := by
  have hfrom (here : List String) :
      names.foldlM t.step here = .ok place ↔ t.Leads here names place := by
    induction names generalizing here with
    | nil =>
        rw [List.foldlM_nil, Result.pure_ok]
        exact ⟨fun h => h ▸ .done here, fun h => by cases h; rfl⟩
    | cons name names ih =>
        rw [List.foldlM_cons, Result.bind_ok, leads_cons]
        simp only [ih]
  simp only [walk, hfrom, starts_iff, exists_eq_left']

/-! ### Reading -/

/-- The path names the file at a place. -/
structure HasFile (t : FileTree) (path : String) (place : List String) (contents : List UInt8) :
    Prop where
  nonempty : path ≠ ""
  slash : path.toList.getLast? ≠ some '/'
  leads : ∃ here names, t.Starts path here ∧ Path.Spells path.toList names ∧
    t.Leads here names place
  found : t.find? place = some (.file contents)

/-- The path names a file that may be read. -/
def Reads (t : FileTree) (path : String) (contents : List UInt8) : Prop :=
  ∃ place, t.HasFile path place contents ∧ t.refusal? .read place = none

theorem endsInSlash_iff : Path.endsInSlash path = true ↔ path.toList.getLast? = some '/' := by
  simp [Path.endsInSlash]

/-- Just the texts of files can be read. -/
theorem read_ok {text : String} :
    t.read path = .ok text ↔ t.Reads path text.toUTF8.data.toList := by
  rw [read, Result.unless_ok, Result.bind_ok]
  constructor
  · rintro ⟨hempty, place, hwalk, h⟩
    obtain ⟨here, hstarts, hleads⟩ := walk_ok.mp hwalk
    split at h
    · next contents hfound =>
        obtain ⟨hslash, h⟩ := Result.unless_ok.mp h
        obtain ⟨_, hallowed, htext⟩ := Result.bind_ok.mp h
        rw [Entry.textOf_ok] at htext
        subst htext
        exact ⟨place, ⟨hempty, mt endsInSlash_iff.mpr hslash, ⟨here, _, hstarts,
          Path.names_eq.mp rfl, hleads⟩, hfound⟩, allow_ok.mp hallowed⟩
    · obtain ⟨_, -, h⟩ := Result.bind_ok.mp h
      cases h
  · rintro ⟨place, ⟨hempty, hslash, ⟨here, names, hstarts, hspells, hleads⟩, hfound⟩, hallowed⟩
    rw [← Path.names_eq] at hspells
    subst hspells
    refine ⟨hempty, place, walk_ok.mpr ⟨here, hstarts, hleads⟩, ?_⟩
    simp only [hfound]
    refine Result.unless_ok.mpr ⟨mt endsInSlash_iff.mp hslash, ?_⟩
    exact Result.bind_ok.mpr ⟨(), allow_ok.mpr hallowed, Entry.textOf_ok.mpr rfl⟩

/-! ### Writing -/

/-- A file that is written to the path comes to this place. -/
structure Takes (t : FileTree) (path : String) (place : List String) : Prop where
  slash : path.toList.getLast? ≠ some '/'
  leads : ∃ here names folder name, t.Starts path here ∧
    Path.Spells path.toList (names ++ [name]) ∧ name ≠ "." ∧ name ≠ ".." ∧
    t.Leads here names folder ∧ t.Passable folder ∧ place = folder ++ [name]
  free : t.find? place ≠ some .folder
  allowed : t.refusal? .write place = none

/-- Just the paths that take a file can be written to. -/
theorem write_ok {text : String} {after : FileTree} :
    t.write path text = .ok after ↔
      ∃ place, t.Takes path place ∧ after = t.insert place (.file text.toUTF8.data.toList) := by
  unfold write
  constructor
  · intro h
    split at h
    · cases h
    · next name hlast =>
        obtain ⟨names, hnames⟩ := List.getLast?_eq_some_iff.mp hlast
        obtain ⟨folder, hwalk, h⟩ := Result.bind_ok.mp h
        obtain ⟨_, henter, h⟩ := Result.bind_ok.mp h
        obtain ⟨hname, h⟩ := Result.unless_ok.mp h
        obtain ⟨hfree, h⟩ := Result.unless_ok.mp h
        obtain ⟨_, hallowed, h⟩ := Result.bind_ok.mp h
        simp only [not_or] at hname
        obtain ⟨hdot, hdots, hslash⟩ := hname
        rw [hnames, List.dropLast_concat, walk_ok] at hwalk
        obtain ⟨here, hstarts, hleads⟩ := hwalk
        refine ⟨folder ++ [name], ⟨mt endsInSlash_iff.mpr hslash, ?_, hfree,
          allow_ok.mp hallowed⟩, (Result.pure_ok.mp h).symm⟩
        exact ⟨here, names, folder, name, hstarts, Path.names_eq.mp hnames, hdot, hdots, hleads,
          enter_ok.mp henter, rfl⟩
  · rintro ⟨place, ⟨hslash, hleads, hfree, hallowed⟩, rfl⟩
    obtain ⟨here, names, folder, name, hstarts, hspells, hdot, hdots, hleads, hpass, rfl⟩ := hleads
    have hwalk := walk_ok.mpr ⟨here, hstarts, hleads⟩
    simp only [Path.names_eq.mpr hspells, List.getLast?_concat, List.dropLast_concat, hwalk]
    refine Result.bind_ok.mpr ⟨_, rfl, ?_⟩
    refine Result.bind_ok.mpr ⟨(), enter_ok.mpr hpass, ?_⟩
    refine Result.unless_ok.mpr ⟨?_, Result.unless_ok.mpr ⟨hfree, ?_⟩⟩
    · simpa [hdot, hdots] using mt endsInSlash_iff.mp hslash
    · exact Result.bind_ok.mpr ⟨(), allow_ok.mpr hallowed, rfl⟩

theorem Starts.insert {here : List String} {entry : Entry} (h : t.Starts path here) :
    (t.insert place entry).Starts path here := by
  cases h with
  | root hcs => exact .root hcs
  | working hnone => exact .working hnone

/-- A file in the place of a file or of nothing is in nobody's way. -/
theorem Leads.insert {here last names : List String} (hfree : t.find? place ≠ some .folder)
    (hplace : place ≠ []) (h : t.Leads here names last) :
    (t.insert place (.file contents)).Leads here names last := by
  have hpassable {other : List String} (hpass : t.Passable other) :
      (t.insert place (.file contents)).Passable other := by
    have hne : other ≠ place := by
      rintro rfl
      exact hfree hpass.folder
    exact ⟨(find?_insert_of_ne hne _).trans hpass.folder, hpass.allowed⟩
  induction h with
  | done => exact .done _
  | stay hpass _ ih => exact .stay (hpassable hpass) ih
  | up hpass _ ih => exact .up (hpassable hpass) ih
  | @down here _ _ name hpass hdot hdots hfound _ ih =>
      refine .down (hpassable hpass) hdot hdots ?_ ih
      by_cases heq : here ++ [name] = place
      · rw [heq, find?_insert_self hplace]
        rfl
      · rw [find?_insert_of_ne heq]
        exact hfound

/-- Where a path takes a file, it names that file afterwards. -/
theorem Takes.hasFile (h : t.Takes path place) (contents : List UInt8) :
    (t.insert place (.file contents)).HasFile path place contents := by
  obtain ⟨here, names, folder, name, hstarts, hspells, hdot, hdots, hleads, hpass, rfl⟩ := h.leads
  have hplace : folder ++ [name] ≠ [] := by simp
  have hfound := find?_insert_self (t := t) hplace (.file contents)
  have hfolder : (t.insert (folder ++ [name]) (.file contents)).Passable folder :=
    ⟨(find?_insert_of_ne (by simp) _).trans hpass.folder, hpass.allowed⟩
  have hlast : (t.insert (folder ++ [name]) (.file contents)).Leads folder [name]
      (folder ++ [name]) := by
    refine .down hfolder hdot hdots ?_ (.done _)
    rw [hfound]
    rfl
  refine ⟨?_, h.slash, ⟨here, _, hstarts.insert, hspells, ?_⟩, hfound⟩
  · rintro rfl
    have hnames := Path.names_eq.mpr hspells
    simp [Path.names] at hnames
  · exact (hleads.insert h.free hplace).append hlast

end FileTree

end Octet
