import Octet.Compile
import Octet.Proofs.Grammar.Decision
import Octet.Proofs.Token.Neighbours
import Octet.Proofs.Tree.Shape

/-!
The trees that texts have. A tree is well formed if its names can be written,
its types can, and its blocks can: a block shows in a text by the statements in
it, so an empty one cannot be written, and nothing but a condition or a function
begins one.

Whatever a text reads as is well formed. The names come from words, and the
layout of a text opens no block without a line in it.
-/

namespace Octet

/-- A word that is not reserved. -/
def IsName (x : String) : Prop :=
  Token.isWord x.toList = true ∧ x ∉ Token.Kind.reservedWords.map Prod.fst

instance : DecidablePred IsName := fun _ => inferInstanceAs (Decidable (_ ∧ _))

/-- The types that a program can write, with names for the ones it does not
know. -/
def Ty.WellFormed : Ty → Prop
  | .void | .u8 | .i8 | .bool => True
  | .named x => IsName x
  | .literal | .function _ _ => False

namespace Expr

mutual

/-- The names of the expression can be written. -/
def WellFormed : Expr → Prop
  | number _ _ | boolean _ _ => True
  | var x _ => IsName x
  | negate e _ => e.WellFormed
  | add l r _ | compare _ l r _ => l.WellFormed ∧ r.WellFormed
  | call f args _ => IsName f ∧ WellFormedAll args

def WellFormedAll : List Expr → Prop
  | [] => True
  | e :: es => e.WellFormed ∧ WellFormedAll es

end

end Expr

namespace Stmt

mutual

/-- Conditions govern blocks, blocks hold statements, and names and types can
be written. -/
def WellFormed : Stmt → Prop
  | block body _ => body ≠ [] ∧ WellFormedAll body
  | ifThen condition consequence _ =>
      condition.WellFormed ∧ consequence.IsBlock ∧ consequence.WellFormed
  | print value _ | ret value _ | evaluate value => value.WellFormed
  | declare x type value _ => IsName x ∧ type.WellFormed ∧ value.WellFormed
  | assign x value _ => IsName x ∧ value.WellFormed

/-- All statements of a list are well formed, and none is a block of its own. -/
def WellFormedAll : List Stmt → Prop
  | [] => True
  | s :: body => ¬ s.IsBlock ∧ s.WellFormed ∧ WellFormedAll body

end

end Stmt

/-- The header of the function can be written, and its body holds statements. -/
structure Function.WellFormed (f : Function) : Prop where
  name : IsName f.name
  parameters : ∀ p ∈ f.parameters, IsName p.name ∧ p.type.WellFormed
  returns : f.returns.WellFormed
  body : f.body.toStmt.WellFormed

def Program.WellFormed (p : Program) : Prop := ∀ f ∈ p.functions, f.WellFormed

namespace Token

theorem lexeme_identifier_iff {x : String} : Lexeme .identifier x.toList ↔ IsName x := by
  constructor
  · intro h
    generalize hcs : x.toList = cs at h
    cases h with
    | sign hk => exact absurd hk (by decide)
    | @keyword _ w hk =>
        have hall : ∀ p ∈ Kind.reservedWords, p.2 ≠ .identifier := by decide
        exact absurd rfl (hall (w, .identifier) hk)
    | identifier hword hfree =>
        rw [← hcs, String.ofList_toList] at hfree
        refine ⟨hcs ▸ hword, fun hmem => ?_⟩
        obtain ⟨⟨w, k⟩, hk, rfl⟩ := List.mem_map.mp hmem
        exact hfree k hk
  · rintro ⟨hword, hfree⟩
    refine .identifier hword fun k hk => hfree ?_
    rw [String.ofList_toList] at hk
    exact List.mem_map_of_mem hk

/-- Tokens that name things by names, and in which no block is empty. -/
structure Sound (ts : List Token) : Prop where
  names : ∀ t ∈ ts, t.kind = .identifier → IsName t.value
  blocks : ts.IsChain fun t u => ¬ (t.kind = .indent ∧ u.kind = .dedent)

theorem Sound.of_append {us ts : List Token} (h : Sound (us ++ ts)) : Sound us ∧ Sound ts :=
  ⟨⟨fun t ht => h.names t (List.mem_append_left _ ht), h.blocks.left_of_append⟩,
    ⟨fun t ht => h.names t (List.mem_append_right _ ht), h.blocks.right_of_append⟩⟩

theorem Sound.of_cons {t : Token} {ts : List Token} (h : Sound (t :: ts)) :
    (t.kind = .identifier → IsName t.value) ∧ Sound ts :=
  ⟨h.names t (by simp), (@Sound.of_append [t] ts h).2⟩

/-- A line that is cut into tokens spells the names that it has. -/
theorem ScansLine.isName {p : Position} {line : List Char} {ts : List Token}
    (h : ScansLine p line ts) : ∀ t ∈ ts, t.kind = .identifier → IsName t.value := by
  induction h with
  | nil => simp
  | space _ ih => exact ih
  | @lexeme p k w rest ts hlexeme _ _ ih =>
      intro t ht hk
      rcases List.mem_cons.mp ht with rfl | ht
      · obtain rfl : k = .identifier := hk
        apply lexeme_identifier_iff.mp
        rwa [String.toList_ofList]
      · exact ih t ht hk

theorem Rows.isName {d n : Nat} {p : Position} {lines : List (List Char)} {ts : List Token}
    (h : Rows d n p lines ts) : ∀ t ∈ ts, t.kind = .identifier → IsName t.value := by
  have hsteps {d deeper n : Nat} {t : Token} (ht : t ∈ steps d deeper n) :
      t.kind ≠ .identifier := by
    intro hk
    have hstep := isStep_of_mem_steps ht
    rw [hk] at hstep
    cases hstep
  induction h with
  | done => simp [textEnd]
  | blank _ _ _ ih => exact ih
  | last _ =>
      intro t ht hk
      simp only [List.mem_cons, List.mem_append, List.not_mem_nil, or_false] at ht
      rcases ht with rfl | ht | rfl
      · cases hk
      · exact absurd hk (hsteps ht)
      · cases hk
  | text _ hlexemes _ _ ih =>
      intro t ht hk
      simp only [List.mem_cons, List.mem_append] at ht
      rcases ht with rfl | (ht | ht) | ht
      · cases hk
      · exact absurd hk (hsteps ht)
      · exact hlexemes.isName t ht hk
      · exact ih t ht hk

/-- The tokens of a text are sound. -/
theorem sound_of_scan {source : String} {tokens : List Token} (h : scan source = .ok tokens) :
    Sound tokens := by
  constructor
  · obtain ⟨first, more, lexemes, ts, -, hlexemes, hrows, rfl⟩ := scan_ok.mp h
    intro t ht
    rcases List.mem_append.mp ht with ht | ht
    · exact hlexemes.isName t ht
    · exact hrows.isName t ht
  · apply (isChain_of_scan h).imp
    rintro t u hfollows ⟨ht, hu⟩
    rcases hfollows.of_step (by rw [ht]; rfl) with rfl | ⟨hk | hk, -⟩
    · rw [ht] at hu
      cases hu
    · rw [hu] at hk
      cases hk
    · rw [hu] at hk
      cases hk

end Token

namespace Grammar

open Token

/-! ### What the grammar derives -/

mutual

theorem DerivesExpr.wellFormed : ∀ {ts : List Token} {e : Expr}, DerivesExpr ts e → Sound ts →
    e.WellFormed
  | _, _, .single h, hs => h.wellFormed hs
  | _, _, .compare h _ h', hs => by
      obtain ⟨hl, hr⟩ := hs.of_append
      exact ⟨h.wellFormed hl, h'.wellFormed hr.of_cons.2⟩

theorem DerivesAddition.wellFormed : ∀ {ts : List Token} {e : Expr}, DerivesAddition ts e →
    Sound ts → e.WellFormed
  | _, _, .single h, hs => h.wellFormed hs
  | _, _, .add h _ h', hs => by
      obtain ⟨hl, hr⟩ := hs.of_append
      exact ⟨h.wellFormed hl, h'.wellFormed hr.of_cons.2⟩

theorem DerivesFactor.wellFormed : ∀ {ts : List Token} {e : Expr}, DerivesFactor ts e →
    Sound ts → e.WellFormed
  | _, _, .unaryPlus _ h, hs | _, _, .negate _ h, hs => h.wellFormed hs.of_cons.2
  | _, _, .group _ h _, hs => h.wellFormed hs.of_cons.2.of_append.1
  | _, _, .number _ _, _ | _, _, .true _, _ | _, _, .false _, _ => trivial
  | _, _, .var hx, hs => hs.of_cons.1 hx
  | _, _, .callNone hf _ _, hs => ⟨hs.of_cons.1 hf, trivial⟩
  | _, _, .call hf _ h _, hs => by
      obtain ⟨hname, hrest⟩ := hs.of_cons
      exact ⟨hname hf, h.wellFormed hrest.of_cons.2.of_append.1⟩

theorem DerivesArguments.wellFormed : ∀ {ts : List Token} {args : List Expr},
    DerivesArguments ts args → Sound ts → Expr.WellFormedAll args
  | _, _, .single h, hs => ⟨h.wellFormed hs, trivial⟩
  | _, _, .cons h _ h', hs => by
      obtain ⟨hl, hr⟩ := hs.of_append
      exact ⟨h.wellFormed hl, h'.wellFormed hr.of_cons.2⟩

end

theorem DerivesType.wellFormed {t : Token} {type : Ty} (h : DerivesType t type)
    (hname : t.kind = .identifier → IsName t.value) : type.WellFormed := by
  cases h with
  | void _ | bool _ | i8 _ | u8 _ => trivial
  | named ht => exact hname ht

mutual

theorem DerivesStmt.wellFormed : ∀ {ts : List Token} {s : Stmt}, DerivesStmt ts s → Sound ts →
    ¬ s.IsBlock ∧ s.WellFormed
  | _, _, .ifThen _ h _ _ hbody, hs => by
      obtain ⟨hcondition, hrest⟩ := hs.of_cons.2.of_append
      exact ⟨not_false, h.wellFormed hcondition, trivial,
        hbody.wellFormed hrest.of_cons.2.of_cons.2⟩
  | _, _, .print _ _ h _ _, hs =>
      ⟨not_false, h.wellFormed hs.of_cons.2.of_cons.2.of_append.1⟩
  | _, _, .declare _ hx _ ht _ h _, hs => by
      obtain ⟨hname, hrest⟩ := hs.of_cons.2.of_cons
      obtain ⟨htype, hrest⟩ := hrest.of_cons.2.of_cons
      exact ⟨not_false, hname hx, ht.wellFormed htype, h.wellFormed hrest.of_cons.2.of_append.1⟩
  | _, _, .assign hx _ h _, hs => by
      obtain ⟨hname, hrest⟩ := hs.of_cons
      exact ⟨not_false, hname hx, h.wellFormed hrest.of_cons.2.of_append.1⟩
  | _, _, .ret _ h _, hs => ⟨not_false, h.wellFormed hs.of_cons.2.of_append.1⟩
  | _, _, .evaluate h _, hs => ⟨not_false, h.wellFormed hs.of_append.1⟩

theorem DerivesStmts.wellFormed : ∀ {ts : List Token} {body : List Stmt}, DerivesStmts ts body →
    Sound ts → Stmt.WellFormedAll body
  | _, _, .nil, _ => trivial
  | _, _, .cons h h', hs => by
      obtain ⟨hl, hr⟩ := hs.of_append
      obtain ⟨hblock, hstmt⟩ := h.wellFormed hl
      exact ⟨hblock, hstmt, h'.wellFormed hr⟩

theorem DerivesBlock.wellFormed : ∀ {ts : List Token} {b : Block}, DerivesBlock ts b →
    Sound ts → b.toStmt.WellFormed
  | _, _, .indented hstart h hstop, hs => by
      refine ⟨?_, h.wellFormed hs.of_cons.2.of_append.1⟩
      rintro rfl
      -- Without statements the two steps are neighbours.
      cases h
      exact (List.isChain_cons_cons.mp hs.blocks).1 ⟨hstart, hstop⟩

end

theorem DerivesParameters.wellFormed {ts : List Token} {ps : List Parameter}
    (h : DerivesParameters ts ps) (hs : Sound ts) :
    ∀ p ∈ ps, IsName p.name ∧ p.type.WellFormed := by
  induction h with
  | single hx _ ht =>
      obtain ⟨hname, hrest⟩ := hs.of_cons
      simpa using ⟨hname hx, ht.wellFormed hrest.of_cons.2.of_cons.1⟩
  | cons hx _ ht _ _ ih =>
      obtain ⟨hname, hrest⟩ := hs.of_cons
      obtain ⟨htype, hrest⟩ := hrest.of_cons.2.of_cons
      intro p hp
      rcases List.mem_cons.mp hp with rfl | hp
      · exact ⟨hname hx, ht.wellFormed htype⟩
      · exact ih hrest.of_cons.2 p hp

theorem DerivesFunction.wellFormed {ts : List Token} {f : Function} (h : DerivesFunction ts f)
    (hs : Sound ts) : f.WellFormed := by
  cases h with
  | define _ hname _ hps _ _ ht _ _ hbody =>
      obtain ⟨hname', hrest⟩ := hs.of_cons.2.of_cons
      obtain ⟨hparameters, hrest⟩ := hrest.of_cons.2.of_append
      obtain ⟨htype, hrest⟩ := hrest.of_cons.2.of_cons.2.of_cons
      refine ⟨hname' hname, ?_, ht.wellFormed htype,
        hbody.wellFormed hrest.of_cons.2.of_cons.2⟩
      cases hps with
      | none => simp
      | some hps => exact hps.wellFormed hparameters

theorem DerivesFunctions.wellFormed {ts : List Token} {fs : List Function}
    (h : DerivesFunctions ts fs) (hs : Sound ts) : ∀ f ∈ fs, f.WellFormed := by
  induction h with
  | nil => simp
  | cons h _ ih =>
      obtain ⟨hl, hr⟩ := hs.of_append
      intro f hf
      rcases List.mem_cons.mp hf with rfl | hf
      · exact h.wellFormed hl
      · exact ih hr f hf

/-! ### What a text reads as -/

theorem ahead_ofTokens (us : List Token) (q : Position) :
    (Cursor.ofTokens (us ++ [textEnd q])).ahead = us := by
  have h := ofTokens_append_last (us ++ [textEnd q])
  rw [withEnd, List.getLast?_concat] at h
  exact (List.append_singleton_inj.mp h).1

end Grammar

namespace Program

open Grammar

theorem ofSource_ok {source : String} {p : Program} : ofSource source = .ok p ↔
    ∃ tokens, Token.scan source = .ok tokens ∧ ofTokens tokens = .ok p := by
  simp only [ofSource, Result.bind_ok, Result.mapError_ok]

/-- Whatever a text reads as is well formed. -/
theorem wellFormed_of_ofSource {source : String} {p : Program} (h : ofSource source = .ok p) :
    p.WellFormed := by
  obtain ⟨tokens, hscan, hread⟩ := ofSource_ok.mp h
  obtain ⟨before, q, rfl⟩ := Token.exists_textEnd_of_scan hscan
  have hends := Token.kind_ne_eof_of_scan hscan
  rw [ofTokens_ok (by rwa [List.dropLast_concat])] at hread
  obtain ⟨fs, hfs, rfl⟩ := hread
  apply hfs.wellFormed
  have hsound := (Token.sound_of_scan hscan).of_append.1
  unfold Cursor.skipLineEnd
  split
  · change Token.Sound (Cursor.ofTokens (before ++ [Token.textEnd q])).ahead.tail
    rw [ahead_ofTokens]
    cases before with
    | nil => exact hsound
    | cons t before => exact hsound.of_cons.2
  · rwa [ahead_ofTokens]

end Program

end Octet
