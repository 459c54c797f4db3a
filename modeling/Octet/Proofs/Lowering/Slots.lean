import Mathlib.Data.List.Induction
import Octet.Proofs.Lowering.Limits

/-!
The slots of a frame, after any history of what is done to frames: functions are
entered, blocks are opened and closed, also blocks that were never opened, and
variables are declared. What a history leaves to be seen is said by `Nest`, which
knows names and blocks and nothing of the stack. The frame has exactly the slots
of these names, in the order in which they were added, each where its number
says; and closing a block gives back the frame that the block was opened in.
-/

namespace Octet.Frame

/-! ### Histories -/

/-- What is done to a frame. -/
inductive Op where
  | enter (function : String) (parameters : List String) (position : Position)
  | openBlock
  | closeBlock
  | pushLocal (name : String)
  deriving DecidableEq

def Op.apply (f : Frame) : Op → Frame
  | enter function parameters position => (Frame.enter function parameters position).1
  | openBlock => f.openBlock
  | closeBlock => f.closeBlock.1
  | pushLocal x => (f.pushLocal x).1

/-- The frame behind a history, which begins with the frame of no function. -/
def run (ops : List Op) : Frame := ops.foldl Op.apply Frame.empty

@[simp] theorem run_nil : run [] = Frame.empty := rfl

@[simp] theorem run_append_singleton (ops : List Op) (op : Op) :
    run (ops ++ [op]) = op.apply (run ops) := by
  simp [run]

/-- Since a function was last entered, no variable was out of reach when it was
declared. -/
def NoFailure (ops : List Op) : Prop :=
  ∀ before x behind, ops = before ++ .pushLocal x :: behind →
    (∀ function parameters position, .enter function parameters position ∉ behind) →
    ∃ d, ((run before).pushLocal x).2 = .ok d

/-- What was done before did not fail either, unless a function was entered since. -/
theorem NoFailure.left {front rest : List Op} (h : NoFailure (front ++ rest))
    (hrest : ∀ function parameters position, .enter function parameters position ∉ rest) :
    NoFailure front := by
  intro before x behind hfront hlast
  refine h before x (behind ++ rest) (by simp [hfront]) fun function parameters position hmem => ?_
  rcases List.mem_append.mp hmem with hmem | hmem
  · exact hlast function parameters position hmem
  · exact hrest function parameters position hmem

theorem NoFailure.pushed {ops : List Op} {x : String} (h : NoFailure (ops ++ [.pushLocal x])) :
    ∃ d, ((run ops).pushLocal x).2 = .ok d :=
  h ops x [] rfl (by simp)

theorem locals_lt_of_pushLocal_ok {f : Frame} {x : String} {d : Int}
    (h : (f.pushLocal x).2 = .ok d) : f.locals < 64 := by
  by_contra hfull
  rw [pushLocal_eq, if_neg hfull] at h
  cases h

theorem pushLocal_of_ok {f : Frame} {x : String} {d : Int} (h : (f.pushLocal x).2 = .ok d) :
    (f.pushLocal x).1 = f.declare x := by
  rw [pushLocal_eq, if_pos (locals_lt_of_pushLocal_ok h)]

/-- The operation declares a variable. -/
def Op.declares : Op → Bool
  | pushLocal _ => true
  | _ => false

theorem locals_run_le (ops : List Op) : (run ops).locals ≤ ops.countP Op.declares := by
  induction ops using List.reverseRecOn with
  | nil => exact Nat.zero_le _
  | append_singleton ops op ih =>
      rw [run_append_singleton, List.countP_append]
      cases op with
      | enter function parameters position =>
          have hnone : (Frame.enter function parameters position).1.locals = 0 := by
            simp only [Frame.enter]
            split <;> rfl
          exact hnone ▸ Nat.zero_le _
      | openBlock => exact ih
      | closeBlock => exact Nat.le_trans (Nat.sub_le _ _) ih
      | pushLocal x =>
          have hmore : ((run ops).pushLocal x).1.locals = (run ops).locals + 1 := by
            rw [pushLocal_eq]
            split <;> rfl
          rw [Op.apply, hmore]
          exact Nat.succ_le_succ ih

/-- A history that declares at most 64 variables has no failures. -/
theorem noFailure_of_few {ops : List Op} (h : ops.countP Op.declares ≤ 64) : NoFailure ops := by
  intro before x behind hops _
  have hcount : before.countP Op.declares < 64 := by
    rw [hops, List.countP_append, List.countP_cons_of_pos rfl] at h
    omega
  rw [pushLocal_eq, if_pos (Nat.lt_of_le_of_lt (locals_run_le before) hcount)]
  exact ⟨_, rfl⟩

/-- Where no block is open, there is none to close. -/
theorem closeBlock_of_marks_nil {f : Frame} (h : f.marks = []) : f.closeBlock = (f, 0) := by
  obtain ⟨slots, marks, locals, function, position⟩ := f
  obtain rfl : marks = [] := h
  simp [closeBlock]

/-! ### Names and blocks -/

/-- What can be seen behind a history: the parameters, the variables outside of
every block, and those of each open block, the innermost block first. The
variables of a block stand with the latest one first. -/
structure Nest where
  parameters : List String
  outside : List String
  blocks : List (List String)
  deriving DecidableEq

namespace Nest

def empty : Nest := ⟨[], [], []⟩

def declare (x : String) : Nest → Nest
  | ⟨parameters, outside, []⟩ => ⟨parameters, x :: outside, []⟩
  | ⟨parameters, outside, block :: blocks⟩ => ⟨parameters, outside, (x :: block) :: blocks⟩

/-- What can be seen behind an operation. Of a function with more than 62
parameters nothing can be seen. -/
def apply (n : Nest) : Op → Nest
  | .enter _ parameters _ => ⟨if parameters.length ≤ 62 then parameters else [], [], []⟩
  | .openBlock => { n with blocks := [] :: n.blocks }
  | .closeBlock => { n with blocks := n.blocks.tail }
  | .pushLocal x => n.declare x

def behind (ops : List Op) : Nest := ops.foldl apply empty

@[simp] theorem behind_append_singleton (ops : List Op) (op : Op) :
    behind (ops ++ [op]) = (behind ops).apply op := by
  simp [behind]

/-- The local variables, the latest one first. -/
def locals (n : Nest) : List String := n.blocks.flatten ++ n.outside

@[simp] theorem locals_declare (x : String) (n : Nest) : (n.declare x).locals = x :: n.locals := by
  obtain ⟨parameters, outside, _ | ⟨block, blocks⟩⟩ := n <;> rfl

@[simp] theorem parameters_declare (x : String) (n : Nest) :
    (n.declare x).parameters = n.parameters := by
  obtain ⟨parameters, outside, _ | ⟨block, blocks⟩⟩ := n <;> rfl

/-- The slots in the order in which they are added: those of the `n` parameters,
of which parameter `i` has the distance `5 + 2 * (n - 1 - i)`, and those of the
local variables, of which the one with number `k`, counting from one, has the
distance `1 - 2 * k`. -/
def slots (n : Nest) : List Slot :=
  (n.parameters.mapIdx fun i x => ⟨x, 5 + 2 * ((n.parameters.length : Int) - 1 - i)⟩) ++
    n.locals.reverse.mapIdx fun k x => ⟨x, 1 - 2 * ((k : Int) + 1)⟩

/-- For each of the blocks, the number of slots outside of it, of which there are
so many outside of all of them. -/
def marks (outermost : Nat) : List (List String) → List Nat
  | [] => []
  | _ :: outer => (outer.flatten.length + outermost) :: marks outermost outer

end Nest

/-! ### Slots by their number -/

def localSlots : List String → List Slot
  | [] => []
  | x :: xs => localSlot x (xs.length + 1) :: localSlots xs

theorem localSlots_append (xs ys : List String) :
    ∃ slots, localSlots (xs ++ ys) = slots ++ localSlots ys ∧ slots.length = xs.length := by
  induction xs with
  | nil => exact ⟨[], rfl, rfl⟩
  | cons x xs ih =>
      obtain ⟨slots, h, hlength⟩ := ih
      refine ⟨localSlot x ((xs ++ ys).length + 1) :: slots, ?_, by simp [hlength]⟩
      rw [List.cons_append, localSlots, h, List.cons_append]

@[simp] theorem length_localSlots (xs : List String) : (localSlots xs).length = xs.length := by
  induction xs with
  | nil => rfl
  | cons x xs ih => simp [localSlots, ih]

theorem reverse_localSlots (xs : List String) :
    (localSlots xs).reverse = xs.reverse.mapIdx fun k x => ⟨x, 1 - 2 * ((k : Int) + 1)⟩ := by
  induction xs with
  | nil => rfl
  | cons x xs ih => simp [localSlots, localSlot, ih, List.mapIdx_append]

theorem parameterSlots_eq_mapIdx (names : List String) :
    parameterSlots names =
      names.mapIdx fun i x => ⟨x, 5 + 2 * ((names.length : Int) - 1 - i)⟩ := by
  induction names with
  | nil => rfl
  | cons name names ih =>
      rw [parameterSlots, ih, List.mapIdx_cons]
      congr 1
      · simp [parameterSlot]
      · refine congrArg (List.mapIdx · names) ?_
        funext i x
        simp only [List.length_cons, Slot.mk.injEq, true_and]
        omega

/-! ### What the frame shows -/

/-- The frame has just the slots of these names and blocks. -/
structure Shows (n : Nest) (f : Frame) : Prop where
  slots : f.slots = localSlots n.locals ++ (parameterSlots n.parameters).reverse
  marks : f.marks = Nest.marks (n.outside.length + n.parameters.length) n.blocks
  locals : f.locals = n.locals.length
  room : n.locals.length ≤ 64
  reach : n.parameters.length ≤ 62

@[simp] theorem length_parameterSlots (names : List String) :
    (parameterSlots names).length = names.length := by
  simp [parameterSlots_eq_mapIdx]

namespace Shows

variable {n : Nest} {f : Frame}

theorem empty : Shows Nest.empty Frame.empty := ⟨rfl, rfl, rfl, by decide, by decide⟩

theorem enter (function : String) (parameters : List String) (position : Position) :
    Shows (n.apply (.enter function parameters position))
      (Frame.enter function parameters position).1 := by
  by_cases hfits : parameters.length ≤ 62
  · have hreach := (parameterSlots_inReach parameters).mpr hfits
    simp only [Nest.apply, if_pos hfits, Frame.enter, if_pos hreach]
    exact ⟨rfl, rfl, rfl, by simp [Nest.locals], hfits⟩
  · have hreach := mt (parameterSlots_inReach parameters).mp hfits
    simp only [Nest.apply, if_neg hfits, Frame.enter, if_neg hreach]
    exact ⟨rfl, rfl, rfl, by decide, by decide⟩

theorem openBlock (h : Shows n f) : Shows (n.apply .openBlock) f.openBlock where
  slots := h.slots
  marks := by
    have hlength : f.slots.length =
        n.blocks.flatten.length + (n.outside.length + n.parameters.length) := by
      rw [h.slots]
      simp [Nest.locals, Nat.add_assoc]
    show f.slots.length :: f.marks = _
    rw [hlength, h.marks]
    rfl
  locals := h.locals
  room := h.room
  reach := h.reach

theorem declare (h : Shows n f) (hroom : f.locals < 64) (x : String) :
    Shows (n.declare x) (f.declare x) where
  slots := by
    rw [Nest.locals_declare, Nest.parameters_declare, localSlots, ← h.locals, List.cons_append,
      ← h.slots]
    rfl
  marks := by
    show f.marks = _
    rw [h.marks]
    obtain ⟨parameters, outside, _ | ⟨block, blocks⟩⟩ := n <;> rfl
  locals := by
    rw [Nest.locals_declare, List.length_cons, ← h.locals]
    rfl
  room := by
    rw [Nest.locals_declare, List.length_cons, ← h.locals]
    exact hroom
  reach := by
    rw [Nest.parameters_declare]
    exact h.reach

/-- Closing a block removes its own slots, and none if there is no block. -/
theorem closeBlock (h : Shows n f) : Shows (n.apply .closeBlock) f.closeBlock.1 ∧
    f.closeBlock.2 = (n.blocks.headD []).length := by
  obtain ⟨parameters, outside, _ | ⟨block, blocks⟩⟩ := n
  · rw [closeBlock_of_marks_nil h.marks]
    exact ⟨h, rfl⟩
  · obtain ⟨own, hown, hlength⟩ := localSlots_append block (blocks.flatten ++ outside)
    have hslots : f.slots =
        own ++ (localSlots (blocks.flatten ++ outside) ++ (parameterSlots parameters).reverse) := by
      rw [h.slots, Nest.locals, List.flatten_cons, List.append_assoc, hown, List.append_assoc]
    have hlocals : f.locals = block.length + (blocks.flatten ++ outside).length := by
      rw [h.locals, Nest.locals, List.flatten_cons, List.append_assoc, List.length_append]
    have hroom : block.length + (blocks.flatten ++ outside).length ≤ 64 := by
      rw [← hlocals, h.locals]
      exact h.room
    have hmark : f.marks.headD f.slots.length = f.slots.length - own.length := by
      rw [h.marks, hslots]
      simp [Nest.marks]
      omega
    have hremoved : f.closeBlock.2 = own.length := by
      show f.slots.length - f.marks.headD f.slots.length = own.length
      rw [hmark, hslots, List.length_append]
      omega
    refine ⟨⟨?_, ?_, ?_, ?_, h.reach⟩, hremoved.trans hlength⟩
    · show f.slots.drop f.closeBlock.2 = _
      rw [hremoved, hslots, List.drop_left]
      rfl
    · show f.marks.tail = _
      rw [h.marks]
      rfl
    · show f.locals - f.closeBlock.2 = _
      rw [hremoved, hlength, hlocals]
      exact Nat.add_sub_cancel_left ..
    · exact Nat.le_trans (Nat.le_add_left _ _) hroom

end Shows

/-- Behind a history without failures the frame shows what the history leaves to be
seen. -/
theorem shows_run {ops : List Op} (h : NoFailure ops) : Shows (Nest.behind ops) (run ops) := by
  induction ops using List.reverseRecOn with
  | nil => exact .empty
  | append_singleton ops op ih =>
      rw [run_append_singleton, Nest.behind_append_singleton]
      cases op with
      | enter function parameters position => exact .enter function parameters position
      | openBlock => exact (ih (h.left (by simp))).openBlock
      | closeBlock => exact (ih (h.left (by simp))).closeBlock.1
      | pushLocal x =>
          obtain ⟨d, hd⟩ := h.pushed
          show Shows _ ((run ops).pushLocal x).1
          rw [pushLocal_of_ok hd]
          exact (ih (h.left (by simp))).declare (locals_lt_of_pushLocal_ok hd) x

theorem slots_eq_reverse {n : Nest} {f : Frame} (h : Shows n f) : f.slots = n.slots.reverse := by
  rw [h.slots, Nest.slots, List.reverse_append, ← reverse_localSlots, ← parameterSlots_eq_mapIdx,
    List.reverse_reverse]

/-! ### Distances -/

theorem displacement_of_mem_localSlots {xs : List String} {s : Slot} (hs : s ∈ localSlots xs) :
    ∃ k : Nat, 1 ≤ k ∧ k ≤ xs.length ∧ s.displacement = 1 - 2 * k := by
  induction xs with
  | nil => simp [localSlots] at hs
  | cons x xs ih =>
      rcases List.mem_cons.mp hs with rfl | hs
      · exact ⟨xs.length + 1, by omega, by simp, rfl⟩
      · obtain ⟨k, hpos, hk, hd⟩ := ih hs
        exact ⟨k, hpos, Nat.le_succ_of_le hk, hd⟩

theorem displacement_of_mem_parameterSlots {names : List String} {s : Slot}
    (hs : s ∈ parameterSlots names) : ∃ j : Nat, j < names.length ∧ s.displacement = 5 + 2 * j := by
  induction names with
  | nil => simp [parameterSlots] at hs
  | cons name names ih =>
      rcases List.mem_cons.mp hs with rfl | hs
      · exact ⟨names.length, by simp, rfl⟩
      · obtain ⟨j, hj, hd⟩ := ih hs
        exact ⟨j, Nat.lt_succ_of_lt hj, hd⟩

theorem pairwise_localSlots (xs : List String) :
    (localSlots xs).Pairwise fun s t => s.displacement < t.displacement := by
  induction xs with
  | nil => exact .nil
  | cons x xs ih =>
      refine .cons (fun t ht => ?_) ih
      obtain ⟨k, hpos, hk, hd⟩ := displacement_of_mem_localSlots ht
      have hx : (localSlot x (xs.length + 1)).displacement = 1 - 2 * (xs.length + 1 : Nat) := rfl
      omega

theorem pairwise_parameterSlots (names : List String) :
    (parameterSlots names).Pairwise fun s t => t.displacement < s.displacement := by
  induction names with
  | nil => exact .nil
  | cons name names ih =>
      refine .cons (fun t ht => ?_) ih
      obtain ⟨j, hj, hd⟩ := displacement_of_mem_parameterSlots ht
      have hname : (parameterSlot name names.length).displacement = 5 + 2 * names.length := rfl
      omega

namespace Shows

variable {n : Nest} {f : Frame}

/-- The later a slot was added, the lower it lies. -/
theorem pairwise (h : Shows n f) : f.slots.Pairwise fun s t => s.displacement < t.displacement := by
  rw [h.slots]
  refine List.pairwise_append.mpr ⟨pairwise_localSlots _,
    List.pairwise_reverse.mpr (pairwise_parameterSlots _), fun s hs t ht => ?_⟩
  obtain ⟨k, hpos, -, hk⟩ := displacement_of_mem_localSlots hs
  obtain ⟨j, -, hj⟩ := displacement_of_mem_parameterSlots (List.mem_reverse.mp ht)
  omega

theorem odd_and_inReach (h : Shows n f) {s : Slot} (hs : s ∈ f.slots) :
    s.displacement % 2 = 1 ∧ -128 ≤ s.displacement ∧ s.displacement ≤ 127 := by
  have hroom := h.room
  have hreach := h.reach
  rw [h.slots] at hs
  rcases List.mem_append.mp hs with hs | hs
  · obtain ⟨k, hpos, hk, hd⟩ := displacement_of_mem_localSlots hs
    omega
  · obtain ⟨j, hj, hd⟩ := displacement_of_mem_parameterSlots (List.mem_reverse.mp hs)
    omega

/-- A name means the slot that was added last among those of that name. -/
theorem lookup (h : Shows n f) (x : String) (d : Int) : f.lookup x = some d ↔
    ∃ earlier s later, n.slots = earlier ++ s :: later ∧ s.name = x ∧ s.displacement = d ∧
      ∀ t ∈ later, t.name ≠ x := by
  have hslots : n.slots = f.slots.reverse := by rw [slots_eq_reverse h, List.reverse_reverse]
  rw [Frame.lookup, Option.map_eq_some_iff, hslots]
  constructor
  · rintro ⟨s, hfind, rfl⟩
    obtain ⟨hname, later, earlier, hsplit, hlater⟩ := List.find?_eq_some_iff_append.mp hfind
    refine ⟨earlier.reverse, s, later.reverse, by simp [hsplit], by simpa using hname, rfl, ?_⟩
    exact fun t ht => by simpa using hlater t (List.mem_reverse.mp ht)
  · rintro ⟨earlier, s, later, hsplit, rfl, rfl, hlater⟩
    refine ⟨s, List.find?_eq_some_iff_append.mpr ⟨by simp, later.reverse, earlier.reverse, ?_, ?_⟩,
      rfl⟩
    · rw [← List.reverse_reverse f.slots, hsplit]
      simp
    · exact fun t ht => by simpa using hlater t (List.mem_reverse.mp ht)

end Shows

/-! ### Blocks that match -/

/-- A part of a history in which every block that is opened is closed again, and no
other one. -/
inductive Balanced : List Op → Prop where
  | nil : Balanced []
  | pushLocal (x : String) : Balanced [.pushLocal x]
  | block {inside : List Op} : Balanced inside →
      Balanced (.openBlock :: inside ++ [.closeBlock])
  | append {front rest : List Op} : Balanced front → Balanced rest → Balanced (front ++ rest)

theorem Balanced.not_enter {part : List Op} (h : Balanced part) {function : String}
    {parameters : List String} {position : Position} :
    .enter function parameters position ∉ part := by
  induction h with
  | nil => simp
  | pushLocal x => simp
  | block _ ih => simpa using ih
  | append _ _ ih ih' => simp [ih, ih']

/-- A balanced part of a history adds variables and removes none that were there. -/
theorem Balanced.run_append {part : List Op} (h : Balanced part) {before : List Op}
    (hok : NoFailure (before ++ part)) :
    ∃ xs, run (before ++ part) = (run before).declareAll xs := by
  induction h generalizing before with
  | nil => exact ⟨[], by simp⟩
  | pushLocal x =>
      obtain ⟨d, hd⟩ := hok.pushed
      refine ⟨[x], ?_⟩
      rw [run_append_singleton]
      exact pushLocal_of_ok hd
  | @block inside hinside ih =>
      have hsplit : before ++ (.openBlock :: inside ++ [.closeBlock]) =
          before ++ [.openBlock] ++ inside ++ [.closeBlock] := by simp
      rw [hsplit] at hok ⊢
      obtain ⟨xs, hxs⟩ := ih (hok.left (by simp))
      refine ⟨[], ?_⟩
      rw [run_append_singleton, hxs, run_append_singleton]
      exact congrArg Prod.fst (closeBlock_declareAll xs (run before))
  | @append front rest hfront hrest ih ih' =>
      rw [← List.append_assoc] at hok ⊢
      obtain ⟨xs, hxs⟩ := ih (hok.left fun _ _ _ => hrest.not_enter)
      obtain ⟨ys, hys⟩ := ih' hok
      exact ⟨ys ++ xs, by rw [hys, hxs, declareAll_append]⟩

/-- A block that is open was opened somewhere, and what has been done since is
balanced. -/
theorem exists_openBlock {ops : List Op} {mark : Nat} {marks : List Nat}
    (h : (run ops).marks = mark :: marks) :
    ∃ before inside, ops = before ++ .openBlock :: inside ∧ Balanced inside ∧
      (run before).marks = marks := by
  -- Closing a block leads back to the history in front of it, so the induction is on the length.
  induction hlength : ops.length using Nat.strongRecOn generalizing ops mark marks with
  | _ length ih =>
      rcases List.eq_nil_or_concat ops with rfl | ⟨front, op, rfl⟩
      · cases h
      rw [List.concat_eq_append] at h hlength ⊢
      rw [run_append_singleton] at h
      have hfront : front.length < length := by simp [← hlength]
      cases op with
      | enter function parameters position =>
          have hnone : (Frame.enter function parameters position).1.marks = [] := by
            simp only [Frame.enter]
            split <;> rfl
          rw [Op.apply, hnone] at h
          cases h
      | openBlock =>
          exact ⟨front, [], rfl, .nil, (List.cons.inj h).2⟩
      | closeBlock =>
          obtain ⟨inner, hinner⟩ : ∃ inner, (run front).marks = inner :: mark :: marks := by
            have htail : (run front).marks.tail = mark :: marks := h
            cases hmarks : (run front).marks with
            | nil => simp [hmarks] at htail
            | cons inner rest => exact ⟨inner, by rw [← htail, hmarks]; rfl⟩
          obtain ⟨before, inside, rfl, hinside, hbefore⟩ := ih _ hfront hinner rfl
          obtain ⟨before, outside, rfl, houtside, hmarks⟩ :=
            ih before.length (by simp at hfront; omega) hbefore rfl
          exact ⟨before, outside ++ (.openBlock :: inside ++ [.closeBlock]), by simp,
            houtside.append hinside.block, hmarks⟩
      | pushLocal x =>
          have hsame : ((run front).pushLocal x).1.marks = (run front).marks := by
            rw [pushLocal_eq]
            split <;> rfl
          rw [Op.apply, hsame] at h
          obtain ⟨before, inside, rfl, hinside, hmarks⟩ := ih _ hfront h rfl
          exact ⟨before, inside ++ [.pushLocal x], by simp, hinside.append (.pushLocal x), hmarks⟩

/-- Closing a block removes the slots that were added since it was opened and are
still there, and gives back the frame that it was opened in. -/
theorem closeBlock_of_balanced {before inside : List Op} (hinside : Balanced inside)
    (hok : NoFailure (before ++ .openBlock :: inside)) :
    ∃ added, (run (before ++ .openBlock :: inside)).slots = added ++ (run before).slots ∧
      (run (before ++ .openBlock :: inside)).closeBlock = (run before, added.length) := by
  have hsplit : before ++ .openBlock :: inside = before ++ [.openBlock] ++ inside := by simp
  rw [hsplit] at hok ⊢
  obtain ⟨xs, hxs⟩ := hinside.run_append hok
  rw [run_append_singleton] at hxs
  rw [hxs]
  obtain ⟨added, hadded, hlength⟩ := declareAll_eq xs (run before).openBlock
  refine ⟨added, ?_, ?_⟩
  · exact congrArg Frame.slots hadded
  · rw [hlength]
    exact closeBlock_declareAll xs (run before)

/-! ### The layout -/

theorem enter_outcome (function : String) (parameters : List String) (position : Position) :
    (enter function parameters position).2 =
      if 62 < parameters.length then .error (.frameTooLarge function position) else .ok () := by
  by_cases hfits : parameters.length ≤ 62
  · simp only [enter, if_pos ((parameterSlots_inReach parameters).mpr hfits), Nat.not_lt.mpr hfits,
      if_false]
  · simp only [enter, if_neg (mt (parameterSlots_inReach parameters).mp hfits),
      Nat.not_le.mp hfits, if_true]
    rfl

/-- What is true of the frame behind a history. -/
structure LaidOut (ops : List Op) : Prop where
  /-- The slots are those of the parameters and then those of the local variables,
  in the order in which they were added. -/
  slots : (run ops).slots.reverse = (Nest.behind ops).slots
  locals : (run ops).locals = (Nest.behind ops).locals.length
  distinct : ((run ops).slots.map Slot.displacement).Nodup
  odd : ∀ s ∈ (run ops).slots, s.displacement % 2 = 1
  inReach : ∀ s ∈ (run ops).slots, -128 ≤ s.displacement ∧ s.displacement ≤ 127
  /-- A name means the slot that was added last among those of that name. -/
  lookup : ∀ x d, (run ops).lookup x = some d ↔
    ∃ earlier s later, (Nest.behind ops).slots = earlier ++ s :: later ∧ s.name = x ∧
      s.displacement = d ∧ ∀ t ∈ later, t.name ≠ x
  /-- Closing a block removes what was added since it was opened and is still there,
  and counts it. -/
  closes : ∀ before inside, ops = before ++ .openBlock :: inside → Balanced inside →
    ∃ added, (run ops).slots = added ++ (run before).slots ∧
      (run ops).closeBlock = (run before, added.length)
  /-- These are the variables of the innermost block. -/
  counts : (run ops).closeBlock.2 = ((Nest.behind ops).blocks.headD []).length
  /-- If no block is open, closing removes nothing. -/
  unmatched : (∀ before inside, ops = before ++ .openBlock :: inside → ¬ Balanced inside) →
    (run ops).closeBlock = (run ops, 0)
  /-- A function has at most 62 parameters. -/
  enter : ∀ function parameters position, (enter function parameters position).2 =
    if 62 < parameters.length then .error (.frameTooLarge function position) else .ok ()
  /-- A function has at most 64 local variables at a time. -/
  pushLocal : ∀ x, ((run ops).pushLocal x).2 =
    if (run ops).locals = 64 then .error (run ops).tooLarge
    else .ok (1 - 2 * ((run ops).locals + 1 : Nat))

/-- The frame is laid out as it should be behind every history in which no variable
was out of reach since the last function was entered. -/
theorem laidOut_of_noFailure {ops : List Op} (h : NoFailure ops) : LaidOut ops where
  slots := by rw [slots_eq_reverse (shows_run h), List.reverse_reverse]
  locals := (shows_run h).locals
  distinct := by
    refine List.pairwise_map.mpr ((shows_run h).pairwise.imp fun hlt => ?_)
    omega
  odd s hs := ((shows_run h).odd_and_inReach hs).1
  inReach s hs := ((shows_run h).odd_and_inReach hs).2
  lookup := (shows_run h).lookup
  closes before inside hops hinside := by
    subst hops
    exact closeBlock_of_balanced hinside h
  counts := (shows_run h).closeBlock.2
  unmatched hnone := by
    refine closeBlock_of_marks_nil ?_
    cases hmarks : (run ops).marks with
    | nil => rfl
    | cons mark marks =>
        obtain ⟨before, inside, hops, hinside, -⟩ := exists_openBlock hmarks
        exact absurd hinside (hnone before inside hops)
  enter := enter_outcome
  pushLocal x := by
    have hroom : (run ops).locals ≤ 64 := (shows_run h).locals ▸ (shows_run h).room
    rw [pushLocal_eq]
    by_cases hfull : (run ops).locals = 64
    · rw [if_neg (by omega), if_pos hfull]
    · rw [if_pos (by omega), if_neg hfull]
      rfl

/-- A variable that hides a parameter, two blocks inside each other, a block that was
never opened, and a slot that is used again. -/
theorem laidOut_of_noFailure_reused : ∃ ops,
    NoFailure ops ∧ LaidOut ops ∧
    ops = [.enter "f" ["x", "y"] ⟨1, 1⟩, .openBlock, .pushLocal "a", .openBlock, .pushLocal "x",
      .closeBlock, .closeBlock, .closeBlock, .pushLocal "b", .openBlock, .pushLocal "x"] ∧
    (run ops).slots.reverse = [⟨"x", 7⟩, ⟨"y", 5⟩, ⟨"b", -1⟩, ⟨"x", -3⟩] ∧
    (run ops).lookup "x" = some (-3) ∧ (run ops).closeBlock.2 = 1 := by
  have hok : NoFailure [.enter "f" ["x", "y"] ⟨1, 1⟩, .openBlock, .pushLocal "a", .openBlock,
      .pushLocal "x", .closeBlock, .closeBlock, .closeBlock, .pushLocal "b", .openBlock,
      .pushLocal "x"] := noFailure_of_few (by decide)
  exact ⟨_, hok, laidOut_of_noFailure hok, rfl, by decide, by decide, by decide⟩

end Octet.Frame
