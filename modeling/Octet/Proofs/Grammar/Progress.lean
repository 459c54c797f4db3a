import Mathlib.Data.List.Perm.Subperm
import Octet.Proofs.Grammar.Iterations
import Octet.Proofs.Grammar.Lockstep

/-!
Reading makes progress and stays in front of the end. The tokens of a list have an
index, and so has every cursor that reading comes to. Started at or in front of the
first token that ends a text, a rule stops at or in front of it, and further on than it
started if it succeeds. So a program is read in no more iterations than there are
tokens up to that one, and what stands behind it does not matter.
-/

namespace Octet

open Cursor Grammar

/-! ### Tokens by their index -/

namespace Cursor

def atIndex (tokens : List Token) (i : Nat) : Cursor :=
  { ofTokens tokens with ahead := (ofTokens tokens).ahead.drop i }

theorem size_atIndex (tokens : List Token) (i : Nat) :
    (atIndex tokens i).size = (ofTokens tokens).size - i := List.length_drop

theorem tokens_atIndex {tokens : List Token} {i : Nat} (h : i ≤ (ofTokens tokens).size) :
    (atIndex tokens i).tokens = (withEnd tokens).drop i := by
  rw [← ofTokens_append_last, List.drop_append_of_le_length h]
  rfl

theorem getElem?_atIndex {tokens : List Token} {i : Nat} (h : i ≤ (ofTokens tokens).size) :
    (withEnd tokens)[i]? = some (atIndex tokens i).current := by
  have hfirst (c : Cursor) : c.tokens[0]? = some c.current := by
    rcases c with ⟨_ | ⟨t, ts⟩, last, hlast⟩ <;> rfl
  rw [← hfirst, tokens_atIndex h, List.getElem?_drop]
  rfl

theorem eq_of_tokens {c c' : Cursor} (h : c.tokens = c'.tokens) : c = c' := by
  obtain ⟨ahead, last, hlast⟩ := c
  obtain ⟨ahead', last', hlast'⟩ := c'
  obtain ⟨rfl, hlasts⟩ := List.append_inj' h rfl
  obtain rfl := List.singleton_inj.mp hlasts
  rfl

end Cursor

namespace Grammar

/-- The index of the first token that ends a text, which may be the supplied one. -/
def firstEnd (tokens : List Token) : Nat :=
  (withEnd tokens).findIdx fun t => t.kind = .eof

theorem length_withEnd (tokens : List Token) :
    (withEnd tokens).length = (ofTokens tokens).size + 1 := by
  rw [← ofTokens_append_last, List.length_append]
  rfl

theorem withEnd_eq_append (tokens : List Token) :
    ∃ supplied, withEnd tokens = tokens ++ supplied := by
  unfold withEnd
  split
  · next h => exact ⟨_, by rw [List.getLast?_eq_none_iff.mp h]; rfl⟩
  · split
    · exact ⟨[], (List.append_nil _).symm⟩
    · exact ⟨_, rfl⟩

theorem withEnd_of_last (front : List Token) {t : Token} (hk : t.kind = .eof) :
    withEnd (front ++ [t]) = front ++ [t] := by
  unfold withEnd
  rw [List.getLast?_concat]
  exact if_pos hk

theorem firstEnd_lt (tokens : List Token) : firstEnd tokens < (withEnd tokens).length := by
  refine List.findIdx_lt_length_of_exists ⟨(ofTokens tokens).last, ?_, ?_⟩
  · rw [← ofTokens_append_last]
    exact List.mem_append_right _ (List.mem_singleton_self _)
  · exact decide_eq_true (ofTokens tokens).last_kind

theorem firstEnd_le (tokens : List Token) : firstEnd tokens ≤ (ofTokens tokens).size := by
  have h := firstEnd_lt tokens
  rw [length_withEnd] at h
  exact Nat.le_of_lt_succ h

theorem exists_firstEnd (tokens : List Token) :
    ∃ t, (withEnd tokens)[firstEnd tokens]? = some t ∧ t.kind = .eof := by
  have hlt := firstEnd_lt tokens
  refine ⟨_, List.getElem?_eq_getElem hlt, ?_⟩
  exact of_decide_eq_true (List.findIdx_getElem (w := hlt))

/-- A token that ends a text is not in front of the first one. -/
theorem firstEnd_le_of_kind {tokens : List Token} {i : Nat} {t : Token}
    (ht : (withEnd tokens)[i]? = some t) (hk : t.kind = .eof) : firstEnd tokens ≤ i := by
  obtain ⟨hi, rfl⟩ := List.getElem?_eq_some_iff.mp ht
  refine Nat.le_of_not_lt fun hlt => ?_
  exact of_decide_eq_false (List.not_of_lt_findIdx hlt) hk

end Grammar

/-- What is reached from a place in front of the first end stands in front of it too. -/
theorem Cursor.Reaches.atIndex {tokens : List Token} {i : Nat} {c : Cursor}
    (h : (atIndex tokens i).Reaches c) (hi : i ≤ firstEnd tokens) :
    ∃ j, c = Cursor.atIndex tokens j ∧ i ≤ j ∧ j ≤ firstEnd tokens := by
  obtain ⟨ts, hts, hends⟩ := h
  rw [tokens_atIndex (Nat.le_trans hi (firstEnd_le tokens))] at hts
  have hj : i + ts.length ≤ firstEnd tokens := by
    refine Nat.le_of_not_lt fun hlt => ?_
    -- The first end would be among the tokens that were read.
    obtain ⟨t, ht, hk⟩ := exists_firstEnd tokens
    have hread : ts[firstEnd tokens - i]? = some t := by
      have hdrop : ((withEnd tokens).drop i)[firstEnd tokens - i]? = some t := by
        rw [List.getElem?_drop, Nat.add_sub_cancel' hi, ht]
      rwa [hts, List.getElem?_append_left (by omega)] at hdrop
    exact hends t (List.mem_of_getElem? hread) hk
  refine ⟨i + ts.length, eq_of_tokens ?_, Nat.le_add_right _ _, hj⟩
  rw [tokens_atIndex (Nat.le_trans hj (firstEnd_le tokens)), ← List.drop_drop, hts,
    List.drop_left]

/-! ### Rules -/

namespace Grammar

/-- Started at or in front of the first end, the rule stops at or in front of it, and
further on than it started if it succeeds. -/
def Progresses (tokens : List Token) {α : Type} (rule : (c : Cursor) → Outcome α c.size) : Prop :=
  ∀ i ≤ firstEnd tokens, ∃ j, (rule (atIndex tokens i)).cursor = atIndex tokens j ∧
    i ≤ j ∧ j ≤ firstEnd tokens ∧ ∀ a, (rule (atIndex tokens i)).result = .ok a → i < j

theorem progresses_of_stays {tokens : List Token} {α : Type}
    {rule : (c : Cursor) → Outcome α c.size} (h : ∀ c, (rule c).Stays c) :
    Progresses tokens rule := by
  intro i hi
  obtain ⟨j, hcursor, hij, hj⟩ := Reaches.atIndex (h (atIndex tokens i)).reads hi
  refine ⟨j, hcursor, hij, hj, fun a ha => ?_⟩
  have hshorter : (atIndex tokens j).size < (atIndex tokens i).size := by
    rw [← hcursor]
    cases hr : rule (atIndex tokens i) with
    | done b next hnext => exact hnext
    | failed e stop =>
        rw [hr] at ha
        cases ha
  rw [size_atIndex, size_atIndex] at hshorter
  omega

/-- All rules that read a piece of a program have the property. -/
structure EveryRule (d : Dispatch)
    (P : ∀ {α : Type}, ((c : Cursor) → Outcome α c.size) → Prop) : Prop where
  expr : P (Grammar.expr d)
  addition : P (Grammar.addition d)
  factor : P (Grammar.factor d)
  unaryPlus : P (Grammar.unaryPlus d)
  negation : P (Grammar.negation d)
  grouping : P (Grammar.grouping d)
  atom : P (Grammar.atom d)
  number : P Grammar.number
  call : P (Grammar.call d)
  arguments : P (Grammar.arguments d)
  type : P Grammar.type
  stmt : P (Grammar.stmt d)
  ifStmt : P (Grammar.ifStmt d)
  printStmt : P (Grammar.printStmt d)
  declareStmt : P (Grammar.declareStmt d)
  assignStmt : P (Grammar.assignStmt d)
  retStmt : P (Grammar.retStmt d)
  evaluateStmt : P (Grammar.evaluateStmt d)
  block : P (Grammar.block d)
  parameters : P Grammar.parameters
  function : P (Grammar.function d)

theorem everyRule_progresses (d : Dispatch) (tokens : List Token) :
    EveryRule d (Progresses tokens) where
  expr := progresses_of_stays (expr_stays d)
  addition := progresses_of_stays (addition_stays d)
  factor := progresses_of_stays (factor_stays d)
  unaryPlus := progresses_of_stays (unaryPlus_stays d)
  negation := progresses_of_stays (negation_stays d)
  grouping := progresses_of_stays (grouping_stays d)
  atom := progresses_of_stays (atom_stays d)
  number := progresses_of_stays number_stays
  call := progresses_of_stays (call_stays d)
  arguments := progresses_of_stays (arguments_stay d)
  type := progresses_of_stays type_stays
  stmt := progresses_of_stays (stmt_stays d)
  ifStmt := progresses_of_stays (ifStmt_stays d)
  printStmt := progresses_of_stays (printStmt_stays d)
  declareStmt := progresses_of_stays (declareStmt_stays d)
  assignStmt := progresses_of_stays (assignStmt_stays d)
  retStmt := progresses_of_stays (retStmt_stays d)
  evaluateStmt := progresses_of_stays (evaluateStmt_stays d)
  block := progresses_of_stays (block_stays d)
  parameters := progresses_of_stays parameters_stay
  function := progresses_of_stays (function_stays d)

/-! ### Programs -/

/-- Functions that have been read are followed by the end. -/
theorem kind_of_functions (d : Dispatch) (c : Cursor) {n : Nat} (h : c.size < n)
    {fs : List Function} (hok : (functions d c h).result = .ok fs) :
    (functions d c h).cursor.kind = .eof := by
  by_cases hk : c.kind = .eof
  · rw [functions, if_pos hk]
    exact hk
  · rw [functions, if_neg hk] at hok ⊢
    cases hfirst : function d c with
    | failed e c₁ =>
        rw [hfirst] at hok
        cases hok
    | done first c₁ h₁ =>
        rw [hfirst] at hok
        rw [Outcome.within_done] at hok ⊢
        cases hmore : functions d c₁ (Nat.lt_trans h₁ h) with
        | failed e c₂ =>
            rw [hmore] at hok
            cases hok
        | done more c₂ h₂ =>
            have hresult : (functions d c₁ (Nat.lt_trans h₁ h)).result = .ok more := by
              rw [hmore]
              rfl
            have hend := kind_of_functions d c₁ (Nat.lt_trans h₁ h) hresult
            rw [hmore] at hend
            exact hend
termination_by c.size

theorem reaches_skipLineEnd (c : Cursor) : c.Reaches c.skipLineEnd := by
  unfold skipLineEnd
  split
  · next hk =>
      have hne : c.kind ≠ .eof := by simp [hk]
      refine ⟨[c.current], tokens_eq_cons hne, fun t ht => ?_⟩
      rw [List.mem_singleton.mp ht]
      exact hne
  · exact .refl c

/-- What is reached from the beginning of a program has an index. -/
theorem exists_index {tokens : List Token} {c : Cursor}
    (h : (ofTokens tokens).skipLineEnd.Reaches c) :
    ∃ j, c = atIndex tokens j ∧ j ≤ firstEnd tokens := by
  have hstart : (atIndex tokens 0).Reaches c := (reaches_skipLineEnd _).trans h
  obtain ⟨j, hc, -, hj⟩ := hstart.atIndex (Nat.zero_le _)
  exact ⟨j, hc, hj⟩

/-- Where iterations begin when a program is read, those of all rules. -/
def iterations (tokens : List Token) : List Cursor :=
  functionsStarts .standard (ofTokens tokens).skipLineEnd

/-- Numbers that grow and have a bound are no more than fit below it. -/
theorem length_le_of_pairwise {is : List Nat} (h : is.Pairwise (· < ·)) {bound : Nat}
    (hbound : ∀ i ∈ is, i ≤ bound) : is.length ≤ bound + 1 := by
  have hsub : is ⊆ List.range (bound + 1) := fun i hi =>
    List.mem_range.mpr (Nat.lt_succ_of_le (hbound i hi))
  have hnodup : is.Nodup := h.imp Nat.ne_of_lt
  simpa using (hnodup.subperm hsub).length_le

/-- Every iteration begins at a token of its own. -/
theorem iterations_indices (tokens : List Token) : ∃ is : List Nat,
    iterations tokens = is.map (atIndex tokens) ∧ is.Pairwise (· < ·) ∧
      ∀ i ∈ is, i ≤ firstEnd tokens := by
  have hspaced := functions_spaced .standard (ofTokens tokens).skipLineEnd (Nat.lt_succ_self _)
  let index (c : Cursor) : Nat := (ofTokens tokens).size - c.size
  have hindex (c : Cursor) (hc : c ∈ iterations tokens) :
      c = atIndex tokens (index c) ∧ index c ≤ firstEnd tokens := by
    obtain ⟨j, rfl, hj⟩ := exists_index (hspaced.placed c hc)
    have hsame : index (atIndex tokens j) = j := by
      have hle := firstEnd_le tokens
      simp only [index, size_atIndex]
      omega
    rw [hsame]
    exact ⟨rfl, hj⟩
  refine ⟨(iterations tokens).map index, ?_, ?_, ?_⟩
  · rw [List.map_map]
    exact (List.map_id _).symm.trans (List.map_congr_left fun c hc => (hindex c hc).1)
  · refine List.pairwise_map.mpr (hspaced.ordered.imp_of_mem fun {c c'} hc hc' hlt => ?_)
    have hle := ((reaches_skipLineEnd _).trans (hspaced.placed c hc)).size_le
    simp only [index]
    omega
  · exact List.forall_mem_map.mpr fun c hc => (hindex c hc).2

end Grammar

/-! ### What stands behind an end -/

/-- No rule reads an end, so no rule gets past it. -/
theorem Outcome.Stays.not_past {α : Type} {n : Nat} {F : Fork} {c c' : Cursor} {o : Outcome α n}
    (h : o.Stays c) (ht : Twin F c c') (hF : F.left.kind = .eof) : ¬ o.Past F := by
  intro hpast
  obtain ⟨ts, hts, hends⟩ := h.reads
  obtain ⟨front, hc, -⟩ := ht
  have hlength := congrArg List.length (hc.symm.trans hts)
  simp only [List.length_append, List.length_cons] at hlength
  have hleft : ts[front.length]? = some F.left := by
    have hboth := congrArg (fun l => l[front.length]?) (hc.symm.trans hts)
    rw [Past] at hpast
    simpa [List.getElem?_append_left (show front.length < ts.length by omega)] using hboth.symm
  exact hends _ (List.mem_of_getElem? hleft) hF

theorem Outcome.Same.result_eq {α : Type} {n n' : Nat} {F : Fork} {o : Outcome α n}
    {o' : Outcome α n'} (h : Same F o o') (hnot : ¬ o.Past F) : o.result = o'.result := by
  cases h with
  | past h => exact (hnot h).elim
  | done h => rfl
  | failed h => rfl

theorem Cursor.Twin.skipLineEnd {F : Fork} {c c' : Cursor} (h : Twin F c c')
    (hF : F.left.kind = .eof) : Twin F c.skipLineEnd c'.skipLineEnd := by
  unfold Cursor.skipLineEnd
  rw [h.kind]
  split
  · next hk =>
      rcases h.atFork_or with hfork | ⟨-, -, hadvance⟩
      · rw [Cursor.kind, current_of_tokens hfork, hF] at hk
        cases hk
      · exact hadvance (by simp [hk])
  · exact h

namespace Program

/-- Two rows of tokens that agree up to an end make the same program. -/
theorem ofTokens_of_twin {F : Fork} {tokens tokens' : List Token} (hF : F.left.kind = .eof)
    (h : Twin F (Cursor.ofTokens tokens) (Cursor.ofTokens tokens')) :
    ofTokens tokens = ofTokens tokens' := by
  have ht := h.skipLineEnd hF
  have hsame := functions_same ht (Nat.lt_succ_self _) (Nat.lt_succ_self _)
  have hresult := hsame.result_eq ((functions_stay _ _ _).not_past ht hF)
  simp only [ofTokens, hresult, h.position]

/-- What stands behind an end does not matter. -/
theorem ofTokens_take {tokens : List Token} {i : Nat} {t : Token} (ht : tokens[i]? = some t)
    (hk : t.kind = .eof) : ofTokens tokens = ofTokens (tokens.take (i + 1)) := by
  obtain ⟨hi, hget⟩ := List.getElem?_eq_some_iff.mp ht
  obtain ⟨supplied, hsupplied⟩ := withEnd_eq_append tokens
  have hleft : withEnd tokens = tokens.take i ++ t :: (tokens.drop (i + 1) ++ supplied) := by
    rw [hsupplied, ← hget, ← List.cons_append, List.getElem_cons_drop, ← List.append_assoc,
      List.take_append_drop]
  have hright : withEnd (tokens.take (i + 1)) = tokens.take i ++ [t] := by
    rw [← List.take_append_getElem hi, hget]
    exact withEnd_of_last _ hk
  let F : Fork := ⟨t, t, tokens.drop (i + 1) ++ supplied, [], rfl, rfl⟩
  refine ofTokens_of_twin (F := F) hk ⟨tokens.take i, ?_, ?_⟩
  · exact (ofTokens_append_last tokens).trans hleft
  · exact (ofTokens_append_last _).trans hright

/-- Reading makes progress, stays in front of the first end and never looks behind it.
From any place up to that end, every rule stops at a place up to it, and further on if
it succeeds. A program is read up to the end or to an error in front of it. Each
iteration of the rules begins where reading comes by, at a token of its own, so there
are no more of them than tokens. And what stands behind any end does not matter. -/
theorem ofTokens_progresses (tokens : List Token) :
    (∀ d, EveryRule d (Progresses tokens)) ∧
    (∃ j ≤ firstEnd tokens,
      (Grammar.functions .standard (Cursor.ofTokens tokens).skipLineEnd
        (Nat.lt_succ_self _)).cursor = atIndex tokens j ∧
      ∀ p, ofTokens tokens = .ok p → j = firstEnd tokens) ∧
    (Grammar.functions .standard (Cursor.ofTokens tokens).skipLineEnd (Nat.lt_succ_self _)).Spaced
      (Cursor.ofTokens tokens).skipLineEnd (iterations tokens) ∧
    (∃ is : List Nat, iterations tokens = is.map (atIndex tokens) ∧ is.Pairwise (· < ·) ∧
      (∀ i ∈ is, i ≤ firstEnd tokens) ∧ (iterations tokens).length ≤ firstEnd tokens + 1) ∧
    ∀ i t, tokens[i]? = some t → t.kind = .eof →
      ofTokens tokens = ofTokens (tokens.take (i + 1)) := by
  refine ⟨fun d => everyRule_progresses d tokens, ?_, functions_spaced _ _ _, ?_,
    fun i t => ofTokens_take⟩
  · have hstays := functions_stay .standard (Cursor.ofTokens tokens).skipLineEnd
      (Nat.lt_succ_self _)
    obtain ⟨j, hcursor, hj⟩ := exists_index hstays.reads
    refine ⟨j, hj, hcursor, fun p hp => Nat.le_antisymm hj ?_⟩
    obtain ⟨fs, hfs, -⟩ := Result.map_ok.mp hp
    have hend := kind_of_functions _ _ _ hfs
    rw [hcursor] at hend
    exact firstEnd_le_of_kind (getElem?_atIndex (Nat.le_trans hj (firstEnd_le tokens))) hend
  · obtain ⟨is, his, hordered, hbound⟩ := iterations_indices tokens
    refine ⟨is, his, hordered, hbound, ?_⟩
    rw [his, List.length_map]
    exact length_le_of_pairwise hordered hbound

/-- Iterations of all kinds, in a program with a token behind its end. -/
theorem ofTokens_progresses_unread : ∃ (tokens : List Token) (p : Program),
    tokens.length = 51 ∧ firstEnd tokens = 49 ∧ (iterations tokens).length = 13 ∧
    (∃ is : List Nat, iterations tokens = is.map (atIndex tokens) ∧ is.Pairwise (· < ·)) ∧
    ofTokens tokens = .ok p ∧ ofTokens (tokens.take 50) = .ok p := by
  let source := "def f(a: u8, b: bool) -> bool:
    if 1 == a != b:
        print(f(1, 2 == 2))
    return f(a, (b))
"
  let tokens : List Token := (Token.scan source).toOption.getD [] ++ [⟨.kwDef, "def", ⟨6, 1⟩⟩]
  have hread : (ofTokens tokens).toOption.isSome = true := by decide +kernel
  have hend : tokens[49]?.map Token.kind = some .eof := by decide +kernel
  obtain ⟨p, hp⟩ := Option.isSome_iff_exists.mp hread
  obtain ⟨t, ht, hk⟩ := Option.map_eq_some_iff.mp hend
  obtain ⟨-, -, -, ⟨is, his, hordered, -⟩, hbehind⟩ := ofTokens_progresses tokens
  have hok : ofTokens tokens = .ok p := Result.ok_of_toOption hp
  exact ⟨tokens, p, by decide +kernel, by decide +kernel, by decide +kernel, ⟨is, his, hordered⟩,
    hok, (hbehind 49 t ht hk).symm.trans hok⟩

end Program

end Octet
