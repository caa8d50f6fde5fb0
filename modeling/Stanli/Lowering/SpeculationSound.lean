import Stanli.Lowering.Speculation

/-!
# What a failed attempt leaves behind

The lists of a lowering only grow and the data environment of `write_array` is journaled, so cutting and
undoing return them.  The bindings of the named variables are put back and the ranges of the removed
slots dropped.  Nothing returns the constant cache, the observations, the initialised prefixes, the
targets and roots, the last written name and what a bounded alternative has spent: the attempt leaves no
trace if and only if it did not change them.
-/

namespace Stanli

namespace Speculation

variable {s s' s₁ s₂ : State} {names : List Bytes}

lemma eraseAll_apply {V : Type} (m : Bytes → Option V) (names : List Bytes) (n : Bytes) :
    eraseAll m names n = if n ∈ names then none else m n := by
  induction names generalizing m with
  | nil => simp [eraseAll]
  | cons name names ih =>
    have hstep : eraseAll m (name :: names) = eraseAll (Function.update m name none) names := rfl
    rw [hstep, ih, Function.update_apply]
    by_cases h : n = name
    · subst h
      simp
    · simp [h]

/-! ## What a run does to the lists and the journal -/

/-- The later state extends the lists of the earlier one, and undoing its journal gives the data
environment back.  Only a bounded alternative spends anything, and storage only while it has slots left. -/
structure Grows (s s' : State) : Prop where
  mode : s'.inWriteArray = s.inWriteArray
  bounded : s'.boundedSpecialization = s.boundedSpecialization
  steps : s.specializationSteps ≤ s'.specializationSteps
  elements : s.specializationElements ≤ s'.specializationElements
  unbounded : s.boundedSpecialization = false →
    s'.specializationSteps = s.specializationSteps ∧
      s'.specializationElements = s.specializationElements
  full : s.boundedSpecialization = true → specializationSlotLimit ≤ s.g.slots.length →
    s'.specializationElements = s.specializationElements
  slots : s.g.slots <+: s'.g.slots
  ops : s.g.ops <+: s'.g.ops
  idataPool : s.g.idataPool <+: s'.g.idataPool
  udataPool : s.g.udataPool <+: s'.g.udataPool
  fills : s.out.fills <+: s'.out.fills
  paramNames : s.out.paramNames <+: s'.out.paramNames
  views : s.out.views <+: s'.out.views
  uncParams : s.out.uncParams <+: s'.out.uncParams
  interpreterFallbacks : s.out.interpreterFallbacks <+: s'.out.interpreterFallbacks
  reduceSumFallbacks : s.out.reduceSumFallbacks <+: s'.out.reduceSumFallbacks
  syntheticNames : s.syntheticNames <+: s'.syntheticNames
  journal : s.td.journal.length ≤ s'.td.journal.length
  undone : s.inWriteArray = true → s'.td.rollback s.td.journal.length = s.td
  unjournaled : s.inWriteArray = false → s'.td.journal = s.td.journal

lemma Grows.refl (s : State) : Grows s s where
  mode := rfl
  bounded := rfl
  steps := Nat.le_refl _
  elements := Nat.le_refl _
  unbounded _ := ⟨rfl, rfl⟩
  full _ _ := rfl
  slots := List.prefix_rfl
  ops := List.prefix_rfl
  idataPool := List.prefix_rfl
  udataPool := List.prefix_rfl
  fills := List.prefix_rfl
  paramNames := List.prefix_rfl
  views := List.prefix_rfl
  uncParams := List.prefix_rfl
  interpreterFallbacks := List.prefix_rfl
  reduceSumFallbacks := List.prefix_rfl
  syntheticNames := List.prefix_rfl
  journal := Nat.le_refl _
  undone _ := Journaled.rollback_length _
  unjournaled _ := rfl

lemma Grows.trans (h : Grows s s₁) (h' : Grows s₁ s₂) : Grows s s₂ where
  mode := h'.mode.trans h.mode
  bounded := h'.bounded.trans h.bounded
  steps := h.steps.trans h'.steps
  elements := h.elements.trans h'.elements
  unbounded hb :=
    ⟨(h'.unbounded (h.bounded.trans hb)).1.trans (h.unbounded hb).1,
      (h'.unbounded (h.bounded.trans hb)).2.trans (h.unbounded hb).2⟩
  full hb hslots :=
    (h'.full (h.bounded.trans hb) (hslots.trans h.slots.length_le)).trans (h.full hb hslots)
  slots := h.slots.trans h'.slots
  ops := h.ops.trans h'.ops
  idataPool := h.idataPool.trans h'.idataPool
  udataPool := h.udataPool.trans h'.udataPool
  fills := h.fills.trans h'.fills
  paramNames := h.paramNames.trans h'.paramNames
  views := h.views.trans h'.views
  uncParams := h.uncParams.trans h'.uncParams
  interpreterFallbacks := h.interpreterFallbacks.trans h'.interpreterFallbacks
  reduceSumFallbacks := h.reduceSumFallbacks.trans h'.reduceSumFallbacks
  syntheticNames := h.syntheticNames.trans h'.syntheticNames
  journal := h.journal.trans h'.journal
  undone hw := by
    rw [← Journaled.rollback_rollback _ h.journal, h'.undone (h.mode.trans hw), h.undone hw]
  unjournaled hw := (h'.unjournaled (h.mode.trans hw)).trans (h.unjournaled hw)

lemma writeData_grows (s : State) (name : Bytes) (v : Option Entry) :
    Grows s (s.writeData name v) := by
  cases hw : s.inWriteArray with
  | true =>
    refine { Grows.refl s with journal := ?_, undone := fun _ => ?_, unjournaled := fun h => ?_ }
    · simp [State.writeData, hw, Journaled.write]
    · simp only [State.writeData, hw, if_true]
      rw [Journaled.rollback_write _ _ _ (Nat.le_refl _), Journaled.rollback_length]
    · rw [hw] at h
      cases h
  | false =>
    refine { Grows.refl s with journal := ?_, undone := fun h => ?_, unjournaled := fun _ => ?_ }
    · simp [State.writeData, hw]
    · rw [hw] at h
      cases h
    · simp [State.writeData, hw]

lemma addSlot_grows {len : ℤ} (h : s.admitsSlot len = true) (isParam : Bool) :
    Grows s (s.addSlot len isParam) := by
  refine { Grows.refl s with
    elements := ?_
    unbounded := fun hb => ⟨rfl, ?_⟩
    full := fun hb hslots => ?_
    slots := List.prefix_append _ _ }
  · rw [State.addSlot]
    split_ifs
    · exact Nat.le_add_right _ _
    · exact Nat.le_refl _
  · rw [State.addSlot, hb, if_neg Bool.false_ne_true]
  · rw [State.admitsSlot, hb, Bool.not_true, Bool.false_or, decide_eq_true_eq] at h
    exact absurd h.2.1 (Nat.not_lt.2 hslots)

lemma constSlot_grows (v : Binary64) (h : s.admits (.constSlot v) = true) :
    Grows s (s.constSlot v).1 := by
  rw [State.constSlot]
  cases hc : s.constCache v with
  | some slot => exact .refl s
  | none =>
    have hslot : s.admitsSlot 1 = true := by simpa [State.admits, hc] using h
    exact { addSlot_grows hslot false with fills := List.prefix_append _ _ }

lemma apply_grows {p : Primitive} (h : s.admits p = true) : Grows s (apply s p).1 := by
  cases p with
  | lowerStmt =>
    refine { Grows.refl s with steps := ?_, unbounded := fun hb => ⟨?_, rfl⟩ }
    · rw [apply]
      split_ifs
      · exact Nat.le_add_right _ _
      · exact Nat.le_refl _
    · rw [apply, hb, if_neg Bool.false_ne_true]
  | addSlot len isParam => exact addSlot_grows h isParam
  | pushOp => exact { Grows.refl s with ops := List.prefix_append _ _ }
  | pushIdata => exact { Grows.refl s with idataPool := List.prefix_append _ _ }
  | pushUdata => exact { Grows.refl s with udataPool := List.prefix_append _ _ }
  | pushFill => exact { Grows.refl s with fills := List.prefix_append _ _ }
  | pushParamName => exact { Grows.refl s with paramNames := List.prefix_append _ _ }
  | pushView => exact { Grows.refl s with views := List.prefix_append _ _ }
  | pushUncParam => exact { Grows.refl s with uncParams := List.prefix_append _ _ }
  | noteInterpreterFallback note =>
    rw [apply]
    split_ifs
    · exact .refl s
    · exact { Grows.refl s with interpreterFallbacks := List.prefix_append _ _ }
  | pushReduceSumFallback => exact { Grows.refl s with reduceSumFallbacks := List.prefix_append _ _ }
  | bindSynthetic => exact { Grows.refl s with syntheticNames := List.prefix_append _ _ }
  | tdAssign name v => exact writeData_grows s name (some v)
  | tdErase name =>
    rw [apply]
    split_ifs
    · exact writeData_grows s name none
    · exact .refl s
  | setIntRange | setRealRange =>
    rw [apply]
    split_ifs <;> exact { Grows.refl s with }
  | constSlot v => exact constSlot_grows v h
  | _ => exact { Grows.refl s with }

/-- The names the attempt made up. -/
def madeUp (s s' : State) : List Bytes := s'.syntheticNames.drop s.syntheticNames.length

section Restored

variable (h : Grows s s')

include h

lemma rolledBack_td : s'.td.rollback s.td.journal.length =
    ⟨if s.inWriteArray then s.td.map else s'.td.map, s.td.journal⟩ := by
  cases hw : s.inWriteArray with
  | true =>
    rw [h.undone hw]
    rfl
  | false =>
    have hlen : s.td.journal.length = s'.td.journal.length := by rw [h.unjournaled hw]
    rw [hlen, Journaled.rollback_length, ← h.unjournaled hw]
    rfl

/-- A restored state is the earlier one with what is not returned. -/
lemma waRestore_eq (names : List Bytes) : waRestore (waSnapshot names s) s' =
    { s with
      td := ⟨if s.inWriteArray then s.td.map else s'.td.map, s.td.journal⟩
      scope := eraseAll (restoreNamed s'.scope (saveNamed s.scope names)) (madeUp s s')
      decls := eraseAll (restoreNamed s'.decls (saveNamed s.decls names)) (madeUp s s')
      intEnv := restoreNamed s'.intEnv (saveNamed s.intEnv names)
      intLocals := restoreNamed s'.intLocals (saveNamed s.intLocals names)
      intRanges := below s.g.slots.length s'.intRanges
      realRanges := below s.g.slots.length s'.realRanges
      intInitializedPrefix := s'.intInitializedPrefix
      constCache := s'.constCache
      observations := s'.observations
      targetTerms := s'.targetTerms
      jacSlots := s'.jacSlots
      extraRoots := s'.extraRoots
      lastWritten := s'.lastWritten
      specializationSteps := s'.specializationSteps
      specializationElements := s'.specializationElements } := by
  simp only [waRestore, waRollback, waSnapshot, waMark, rolledBack_td h, take_prefix_length h.slots,
    take_prefix_length h.ops, take_prefix_length h.idataPool, take_prefix_length h.udataPool,
    take_prefix_length h.fills, take_prefix_length h.paramNames, take_prefix_length h.views,
    take_prefix_length h.uncParams, take_prefix_length h.interpreterFallbacks,
    take_prefix_length h.reduceSumFallbacks, take_prefix_length h.syntheticNames, h.mode, h.bounded]
  rfl

/-- A restored state grows from the earlier one like the one it is made from. -/
lemma restored_grows (names : List Bytes) : Grows s (waRestore (waSnapshot names s) s') := by
  rw [waRestore_eq h names]
  refine { Grows.refl s with
    steps := h.steps
    elements := h.elements
    unbounded := h.unbounded
    full := h.full
    undone := fun hw => ?_ }
  rw [hw]
  exact Journaled.rollback_length _

end Restored

/-- An action that is not refused. -/
lemma step_prim_eq_some {p : Primitive} {r : State × Answer} :
    step s (.prim p) = some r ↔ s.admits p = true ∧ apply s p = r := by
  rw [step]
  split_ifs with h <;> simp [h]

lemma step_abandon_eq_some {attempt : List Action} {r : State × Answer} :
    step s (.abandon names attempt) = some r ↔
      ∃ s', run s attempt = some s' ∧ (waRestore (waSnapshot names s) s', .done) = r := by
  rw [step]
  cases run s attempt <;> simp

lemma run_cons_eq_some {a : Action} {rest : List Action} :
    run s (a :: rest) = some s' ↔ ∃ r, step s a = some r ∧ run r.1 rest = some s' := by
  rw [run]
  cases step s a <;> simp

mutual

lemma step_grows (s : State) : ∀ (a : Action) (r : State × Answer), step s a = some r → Grows s r.1
  | .prim p, r, h => by
    obtain ⟨hp, rfl⟩ := step_prim_eq_some.1 h
    exact apply_grows hp
  | .abandon names attempt, r, h => by
    obtain ⟨s', hrun, rfl⟩ := step_abandon_eq_some.1 h
    exact restored_grows (run_grows s attempt s' hrun) names

/-- A run extends the lists, with attempts at any depth. -/
lemma run_grows (s : State) : ∀ (actions : List Action) (s' : State), run s actions = some s' →
    Grows s s'
  | [], s', h => by
    obtain rfl : s = s' := Option.some.inj h
    exact .refl s
  | a :: rest, s', h => by
    obtain ⟨r, hr, hrest⟩ := run_cons_eq_some.1 h
    exact (step_grows s a r hr).trans (run_grows r.1 rest s' hrest)

end

/-! ## States of a lowering -/

/-- No range is kept of a slot that is not there. -/
structure Allocated (s : State) : Prop where
  intRanges : ∀ slot, s.g.slots.length ≤ slot → s.intRanges slot = none
  realRanges : ∀ slot, s.g.slots.length ≤ slot → s.realRanges slot = none

/-- The states a lowering gets to from an empty graph. -/
inductive Reachable : State → Prop
  | start (s : State) (hi : s.intRanges = fun _ => none) (hr : s.realRanges = fun _ => none)
    (hs : s.specializationSteps = 0) (he : s.specializationElements = 0) : Reachable s
  | step {s : State} (h : Reachable s) (a : Action) {r : State × Answer} (hr : step s a = some r) :
    Reachable r.1

lemma Allocated.of_eq (h : Allocated s) (hlen : s.g.slots.length ≤ s'.g.slots.length)
    (hi : s'.intRanges = s.intRanges) (hr : s'.realRanges = s.realRanges) : Allocated s' where
  intRanges slot hslot := by rw [hi, h.intRanges slot (hlen.trans hslot)]
  realRanges slot hslot := by rw [hr, h.realRanges slot (hlen.trans hslot)]

/-- A range is changed of another slot, or forgotten. -/
lemma update_eq_none {α : Type} {m : ℕ → Option α} {slot slot' : ℕ} {v : Option α} (h : m slot' = none)
    (hv : slot' = slot → v = none) : Function.update m slot v slot' = none := by
  rw [Function.update_apply]
  split_ifs with heq
  · exact hv heq
  · exact h

lemma apply_allocated (h : Allocated s) {p : Primitive} (hp : s.admits p = true) :
    Allocated (apply s p).1 := by
  cases p with
  | addSlot => exact h.of_eq (by simp [apply, State.addSlot]) rfl rfl
  | noteInterpreterFallback note =>
    rw [apply]
    split_ifs
    · exact h
    · exact h.of_eq (Nat.le_refl _) rfl rfl
  | tdErase name =>
    rw [apply]
    split_ifs
    · exact h.of_eq (Nat.le_refl _) rfl rfl
    · exact h
  | setIntRange slot lo hi =>
    rw [apply]
    split_ifs with hslot
    · exact ⟨fun slot' hslot' => update_eq_none (h.intRanges slot' hslot') fun heq =>
        absurd (heq ▸ hslot) (Nat.not_lt.2 hslot'), h.realRanges⟩
    · exact h
  | setIntInitialized | setUninitializedIntArray =>
    exact ⟨fun slot hslot => update_eq_none (h.intRanges slot hslot) fun _ => rfl, h.realRanges⟩
  | setRealRange slot range =>
    rw [apply]
    split_ifs with hslot
    · exact ⟨h.intRanges, fun slot' hslot' => update_eq_none (h.realRanges slot' hslot') fun heq =>
        absurd (heq ▸ hslot) (Nat.not_lt.2 hslot')⟩
    · exact h
  | constSlot v =>
    refine h.of_eq (constSlot_grows v hp).slots.length_le ?_ ?_
    · simp only [apply, State.constSlot]
      cases s.constCache v <;> rfl
    · simp only [apply, State.constSlot]
      cases s.constCache v <;> rfl
  | _ => exact h.of_eq (Nat.le_refl _) rfl rfl

lemma below_eq_none {α : Type} {m : ℕ → Option α} {n slot : ℕ} (h : n ≤ slot) :
    below n m slot = none := if_neg (Nat.not_lt.2 h)

/-- Restoring drops the ranges of the slots it removes. -/
lemma restored_allocated (h : Grows s s') (names : List Bytes) :
    Allocated (waRestore (waSnapshot names s) s') := by
  have hlen : (waRestore (waSnapshot names s) s').g.slots = s.g.slots :=
    take_prefix_length h.slots
  constructor <;> intro slot hslot <;> rw [hlen] at hslot <;> exact below_eq_none hslot

lemma Reachable.allocated (h : Reachable s) : Allocated s := by
  induction h with
  | start s hi hr => exact ⟨fun slot _ => by rw [hi], fun slot _ => by rw [hr]⟩
  | step _ a hr ih =>
    cases a with
    | prim p =>
      obtain ⟨hp, rfl⟩ := step_prim_eq_some.1 hr
      exact apply_allocated ih hp
    | abandon names attempt =>
      obtain ⟨s', hrun, rfl⟩ := step_abandon_eq_some.1 hr
      exact restored_allocated (run_grows _ attempt s' hrun) names

/-- No more is spent than there is. -/
structure WithinBudget (s : State) : Prop where
  steps : s.specializationSteps ≤ specializationStepLimit
  elements : s.specializationElements ≤ specializationElementLimit

lemma addSlot_withinBudget (h : WithinBudget s) {len : ℤ} (hlen : s.admitsSlot len = true)
    (isParam : Bool) : WithinBudget (s.addSlot len isParam) := by
  refine ⟨h.steps, ?_⟩
  have he := h.elements
  rw [State.addSlot]
  cases hb : s.boundedSpecialization with
  | false => exact he
  | true =>
    rw [State.admitsSlot, hb, Bool.not_true, Bool.false_or, decide_eq_true_eq] at hlen
    simp only [if_true]
    omega

lemma apply_withinBudget (h : WithinBudget s) {p : Primitive} (hp : s.admits p = true) :
    WithinBudget (apply s p).1 := by
  cases p with
  | lowerStmt =>
    refine ⟨?_, h.elements⟩
    rw [apply]
    cases hb : s.boundedSpecialization with
    | false => exact h.steps
    | true =>
      rw [State.admits, hb, Bool.not_true, Bool.false_or, decide_eq_true_eq] at hp
      simpa using hp
  | addSlot len isParam => exact addSlot_withinBudget h hp isParam
  | noteInterpreterFallback | tdErase | setIntRange | setRealRange =>
    rw [apply]
    split_ifs <;> exact ⟨h.steps, h.elements⟩
  | constSlot v =>
    rw [apply, State.constSlot]
    cases hc : s.constCache v with
    | some slot => exact h
    | none =>
      have hslot : WithinBudget (s.addSlot 1 false) :=
        addSlot_withinBudget h (by simpa [State.admits, hc] using hp) false
      exact ⟨hslot.steps, hslot.elements⟩
  | _ => exact ⟨h.steps, h.elements⟩

mutual

lemma step_withinBudget {s : State} (h : WithinBudget s) : ∀ (a : Action) (r : State × Answer),
    step s a = some r → WithinBudget r.1
  | .prim p, r, hr => by
    obtain ⟨hp, rfl⟩ := step_prim_eq_some.1 hr
    exact apply_withinBudget h hp
  | .abandon names attempt, r, hr => by
    obtain ⟨s', hrun, rfl⟩ := step_abandon_eq_some.1 hr
    -- what the attempt has spent stays spent
    have hs' := run_withinBudget h attempt s' hrun
    exact ⟨hs'.steps, hs'.elements⟩

lemma run_withinBudget {s : State} (h : WithinBudget s) : ∀ (actions : List Action) (s' : State),
    run s actions = some s' → WithinBudget s'
  | [], s', hr => by
    obtain rfl : s = s' := Option.some.inj hr
    exact h
  | a :: rest, s', hr => by
    obtain ⟨r, hr, hrest⟩ := run_cons_eq_some.1 hr
    exact run_withinBudget (step_withinBudget h a r hr) rest s' hrest

end

lemma Reachable.withinBudget (h : Reachable s) : WithinBudget s := by
  induction h with
  | start s _ _ hs he => exact ⟨by rw [hs]; exact Nat.zero_le _, by rw [he]; exact Nat.zero_le _⟩
  | step _ a hr ih => exact step_withinBudget ih a _ hr

/-! ## What is left behind -/

/-- The attempt changed nothing that a snapshot of these names does not return. -/
structure Untouched (names : List Bytes) (s s' : State) : Prop where
  constCache : s'.constCache = s.constCache
  observations : s'.observations = s.observations
  intInitializedPrefix : s'.intInitializedPrefix = s.intInitializedPrefix
  targetTerms : s'.targetTerms = s.targetTerms
  jacSlots : s'.jacSlots = s.jacSlots
  extraRoots : s'.extraRoots = s.extraRoots
  lastWritten : s'.lastWritten = s.lastWritten
  specializationSteps : s'.specializationSteps = s.specializationSteps
  specializationElements : s'.specializationElements = s.specializationElements
  data : s.inWriteArray = false → s'.td.map = s.td.map
  intRanges : ∀ slot < s.g.slots.length, s'.intRanges slot = s.intRanges slot
  realRanges : ∀ slot < s.g.slots.length, s'.realRanges slot = s.realRanges slot
  fresh : ∀ n ∈ madeUp s s', s.scope n = none ∧ s.decls n = none
  bindings : ∀ n ∉ names, n ∉ madeUp s s' → s'.scope n = s.scope n ∧ s'.decls n = s.decls n
  ints : ∀ n ∉ names, s'.intEnv n = s.intEnv n ∧ s'.intLocals n = s.intLocals n

lemma eraseAll_restoreNamed {V : Type} (m m' : Bytes → Option V) (names synthetic : List Bytes)
    (n : Bytes) :
    eraseAll (restoreNamed m' (saveNamed m names)) synthetic n =
      if n ∈ synthetic then none else if n ∈ names then m n else m' n := by
  rw [eraseAll_apply, restoreNamed_saveNamed]
  split_ifs <;> rfl

/-- A binding is the earlier one exactly when it was made up anew, saved, or not changed. -/
lemma erased_eq_iff {V : Type} {m m' : Bytes → Option V} {names synthetic : List Bytes} :
    eraseAll (restoreNamed m' (saveNamed m names)) synthetic = m ↔
      (∀ n ∈ synthetic, m n = none) ∧ ∀ n ∉ names, n ∉ synthetic → m' n = m n := by
  constructor
  · intro h
    refine ⟨fun n hn => ?_, fun n hn hs => ?_⟩
    · have hat := congrFun h n
      rw [eraseAll_restoreNamed, if_pos hn] at hat
      exact hat.symm
    · have hat := congrFun h n
      rwa [eraseAll_restoreNamed, if_neg hs, if_neg hn] at hat
  · rintro ⟨hfresh, hkept⟩
    funext n
    rw [eraseAll_restoreNamed]
    split_ifs with hs hn
    · exact (hfresh n hs).symm
    · rfl
    · exact hkept n hn hs

lemma restoreNamed_eq_iff {V : Type} {m m' : Bytes → Option V} {names : List Bytes} :
    restoreNamed m' (saveNamed m names) = m ↔ ∀ n ∉ names, m' n = m n := by
  constructor
  · intro h n hn
    have hat := congrFun h n
    rwa [restoreNamed_saveNamed, if_neg hn] at hat
  · intro h
    funext n
    rw [restoreNamed_saveNamed]
    split_ifs with hn
    · rfl
    · exact h n hn

lemma below_eq_iff {V : Type} {m m' : ℕ → Option V} {n : ℕ} (hm : ∀ slot, n ≤ slot → m slot = none) :
    below n m' = m ↔ ∀ slot < n, m' slot = m slot := by
  constructor
  · intro h slot hslot
    have hat := congrFun h slot
    rwa [below, if_pos hslot] at hat
  · intro h
    funext slot
    rw [below]
    split_ifs with hslot
    · exact h slot hslot
    · exact (hm slot (Nat.not_lt.1 hslot)).symm

/-- What comes later can see of a state. -/
structure SameView (s s' : State) : Prop where
  g : s.g = s'.g
  out : s.out = s'.out
  nTpStart : s.nTpStart = s'.nTpStart
  nGqStart : s.nGqStart = s'.nGqStart
  scope : s.scope = s'.scope
  decls : s.decls = s'.decls
  intEnv : s.intEnv = s'.intEnv
  intLocals : s.intLocals = s'.intLocals
  td : s.td.map = s'.td.map
  intRanges : s.intRanges = s'.intRanges
  realRanges : s.realRanges = s'.realRanges
  intInitializedPrefix : s.intInitializedPrefix = s'.intInitializedPrefix
  constCache : s.constCache = s'.constCache
  observations : s.observations = s'.observations
  targetTerms : s.targetTerms = s'.targetTerms
  jacSlots : s.jacSlots = s'.jacSlots
  extraRoots : s.extraRoots = s'.extraRoots
  lastWritten : s.lastWritten = s'.lastWritten

lemma apply_ne_refused (s : State) (p : Primitive) : (apply s p).2 ≠ .refused := by
  cases p <;> simp [apply]

/-- Lowerings that get the same answers are refused the same actions. -/
lemma admits_eq (h : ∀ later : Later, later.answers s = later.answers s') (p : Primitive) :
    s.admits p = s'.admits p := by
  have hact := h (.act (.prim p) fun _ => .stop)
  cases hp : s.admits p <;> cases hp' : s'.admits p
  · rfl
  · simp only [Later.answers, step, hp, hp', Bool.false_eq_true, if_false, if_true,
      List.cons.injEq, and_true] at hact
    exact absurd hact.symm (apply_ne_refused s' p)
  · simp only [Later.answers, step, hp, hp', Bool.false_eq_true, if_false, if_true,
      List.cons.injEq, and_true] at hact
    exact absurd hact (apply_ne_refused s p)
  · rfl

lemma answer_eq (h : ∀ later : Later, later.answers s = later.answers s') {p : Primitive}
    (hp : s.admits p = true) : (apply s p).2 = (apply s' p).2 := by
  have hact := h (.act (.prim p) fun _ => .stop)
  simpa [Later.answers, step, hp, (admits_eq h p).symm.trans hp] using hact

/-- A constant that only one of the lowerings has cached shows in the graph. -/
lemma constCache_of_none (h : ∀ later : Later, later.answers s = later.answers s') (hg : s.g = s'.g)
    {v : Binary64} (hc : s.constCache v = none) : s'.constCache v = none := by
  cases hc' : s'.constCache v with
  | none => rfl
  | some slot =>
    have hp' : s'.admits (.constSlot v) = true := by simp [State.admits, hc']
    have hp := (admits_eq h (.constSlot v)).trans hp'
    have hconst := h (.act (.prim (.constSlot v)) fun _ => .act (.prim .finish) fun _ => .stop)
    have hfinish : ∀ s : State, s.admits .finish = true := fun _ => rfl
    simp only [Later.answers, step, hp, hp', hfinish, if_true, apply, State.constSlot, State.addSlot,
      hc, hc', hg, List.cons.injEq, Answer.model.injEq] at hconst
    simpa using congrArg (fun g : Graph => g.slots.length) hconst.2.1.1

/-- A lowering that gets the same answers whatever it does starts from states that look the same. -/
lemma sameView_of_answers (h : ∀ later : Later, later.answers s = later.answers s') :
    SameView s s' := by
  have hfinish := answer_eq h (p := .finish) rfl
  simp only [apply, Answer.model.injEq, Prod.mk.injEq] at hfinish
  obtain ⟨hg, hout, ⟨htp, hgq⟩, ht, hj, hr⟩ := hfinish
  refine ⟨hg, hout, htp, hgq, ?_, ?_, ?_, ?_, ?_, ?_, ?_, ?_, ?_, ?_, ht, hj, hr, ?_⟩
  · funext n
    simpa [apply] using answer_eq h (p := .findScope n) rfl
  · funext n
    simpa [apply] using answer_eq h (p := .findDecl n) rfl
  · funext n
    simpa [apply] using answer_eq h (p := .findInt n) rfl
  · funext n
    simpa [apply] using answer_eq h (p := .findIntLocal n) rfl
  · funext n
    simpa [apply] using answer_eq h (p := .findData n) rfl
  · funext slot
    simpa [apply] using answer_eq h (p := .findIntRange slot) rfl
  · funext slot
    simpa [apply] using answer_eq h (p := .findRealRange slot) rfl
  · funext slot
    simpa [apply] using answer_eq h (p := .findInitializedPrefix slot) rfl
  · funext v
    cases hc : s.constCache v with
    | none => exact (constCache_of_none h hg hc).symm
    | some slot =>
      cases hc' : s'.constCache v with
      | none =>
        rw [constCache_of_none (fun later => (h later).symm) hg.symm hc'] at hc
        cases hc
      | some slot' =>
        have hslot := answer_eq h (p := .constSlot v) (by simp [State.admits, hc])
        simp only [apply, State.constSlot, hc, hc', Answer.slot.injEq] at hslot
        rw [hslot]
  · funext key
    simpa [apply] using answer_eq h (p := .observation key) rfl
  · simpa [apply] using answer_eq h (p := .askLastWritten) rfl

/-- What a bounded alternative has spent shows in what it is refused. -/
lemma budget_of_answers (h : ∀ later : Later, later.answers s = later.answers s')
    (hb : s.boundedSpecialization = true) (hb' : s'.boundedSpecialization = true)
    (hs : WithinBudget s) (hs' : WithinBudget s') :
    s.specializationSteps = s'.specializationSteps ∧
      (s.g.slots.length < specializationSlotLimit →
        s.specializationElements = s'.specializationElements) := by
  constructor
  · have htrips : ∀ trips, trips ≤ specializationStepLimit - s.specializationSteps ↔
        trips ≤ specializationStepLimit - s'.specializationSteps := by
      intro trips
      simpa [State.admits, hb, hb'] using admits_eq h (.lowerTrips trips)
    have h1 := (htrips _).1 (Nat.le_refl _)
    have h2 := (htrips _).2 (Nat.le_refl _)
    have := hs.steps
    have := hs'.steps
    omega
  · intro hroom
    have hg := (sameView_of_answers h).g
    have hslots : ∀ n : ℕ, n ≤ specializationElementLimit - s.specializationElements ↔
        n ≤ specializationElementLimit - s'.specializationElements := by
      intro n
      simpa [State.admits, State.admitsSlot, hb, hb', ← hg, hroom] using admits_eq h (.addSlot n false)
    have h1 := (hslots _).1 (Nat.le_refl _)
    have h2 := (hslots _).2 (Nat.le_refl _)
    have := hs.elements
    have := hs'.elements
    omega

/-! ## Traces -/

/-- Every later lowering produces what it would have produced from the other state. -/
def NoTrace (s' s : State) : Prop := ∀ later : Later, later.answers s' = later.answers s

lemma data_eq_iff : (if s.inWriteArray then s.td.map else s'.td.map) = s.td.map ↔
    (s.inWriteArray = false → s'.td.map = s.td.map) := by
  cases s.inWriteArray <;> simp

section Restored

variable (h : Grows s s') (ha : Allocated s) (hb : WithinBudget s) (hb' : WithinBudget s')

include h hb hb'

/-- No trace is left of what was spent when nothing was. -/
lemma budget_of_noTrace {t : State} (hno : NoTrace t s)
    (hmode : t.boundedSpecialization = s.boundedSpecialization)
    (hsteps : t.specializationSteps = s'.specializationSteps)
    (helements : t.specializationElements = s'.specializationElements) :
    s'.specializationSteps = s.specializationSteps ∧
      s'.specializationElements = s.specializationElements := by
  cases hbounded : s.boundedSpecialization with
  | false => exact h.unbounded hbounded
  | true =>
    have hbt : WithinBudget t := ⟨hsteps ▸ hb'.steps, helements ▸ hb'.elements⟩
    obtain ⟨h1, h2⟩ := budget_of_answers hno (hmode.trans hbounded) hbounded hbt hb
    refine ⟨hsteps.symm.trans h1, ?_⟩
    rcases Nat.lt_or_ge s.g.slots.length specializationSlotLimit with hroom | hfull
    · rw [← (sameView_of_answers hno).g] at hroom
      exact helements.symm.trans (h2 hroom)
    · exact h.full hbounded hfull

include ha

/-- The restored state is the earlier one exactly when the attempt changed nothing else. -/
lemma waRestore_noTrace_iff (names : List Bytes) :
    NoTrace (waRestore (waSnapshot names s) s') s ↔ Untouched names s s' := by
  rw [waRestore_eq h names]
  constructor
  · intro hno
    have hview := sameView_of_answers hno
    obtain ⟨hsteps, helements⟩ := budget_of_noTrace h hb hb' hno rfl rfl rfl
    obtain ⟨hfresh, hscope⟩ := erased_eq_iff.1 hview.scope
    obtain ⟨hfresh', hdecls⟩ := erased_eq_iff.1 hview.decls
    have hints := restoreNamed_eq_iff.1 hview.intEnv
    have hlocals := restoreNamed_eq_iff.1 hview.intLocals
    exact {
      constCache := hview.constCache
      observations := hview.observations
      intInitializedPrefix := hview.intInitializedPrefix
      targetTerms := hview.targetTerms
      jacSlots := hview.jacSlots
      extraRoots := hview.extraRoots
      lastWritten := hview.lastWritten
      specializationSteps := hsteps
      specializationElements := helements
      data := data_eq_iff.1 hview.td
      intRanges := (below_eq_iff ha.intRanges).1 hview.intRanges
      realRanges := (below_eq_iff ha.realRanges).1 hview.realRanges
      fresh := fun n hn => ⟨hfresh n hn, hfresh' n hn⟩
      bindings := fun n hn hs => ⟨hscope n hn hs, hdecls n hn hs⟩
      ints := fun n hn => ⟨hints n hn, hlocals n hn⟩ }
  · intro hun later
    rw [data_eq_iff.2 hun.data, hun.constCache, hun.observations, hun.intInitializedPrefix,
      hun.targetTerms, hun.jacSlots, hun.extraRoots, hun.lastWritten, hun.specializationSteps,
      hun.specializationElements,
      (below_eq_iff ha.intRanges).2 hun.intRanges, (below_eq_iff ha.realRanges).2 hun.realRanges,
      erased_eq_iff.2 ⟨fun n hn => (hun.fresh n hn).1, fun n hn hs => (hun.bindings n hn hs).1⟩,
      erased_eq_iff.2 ⟨fun n hn => (hun.fresh n hn).2, fun n hn hs => (hun.bindings n hn hs).2⟩,
      restoreNamed_eq_iff.2 fun n hn => (hun.ints n hn).1,
      restoreNamed_eq_iff.2 fun n hn => (hun.ints n hn).2]

/-- Without ranges of the removed slots `wa_rollback` leaves what restoring no name does. -/
lemma waRollback_noTrace_iff : NoTrace (waRollback (waMark s) s') s ↔
    Untouched [] s s' ∧ ∀ slot, s.g.slots.length ≤ slot →
      s'.intRanges slot = none ∧ s'.realRanges slot = none := by
  have hcut (hranges : ∀ slot, s.g.slots.length ≤ slot →
      s'.intRanges slot = none ∧ s'.realRanges slot = none) :
      waRollback (waMark s) s' = waRestore (waSnapshot [] s) s' := by
    have hi : below s.g.slots.length s'.intRanges = s'.intRanges :=
      (below_eq_iff fun slot hslot => (hranges slot hslot).1).2 fun _ _ => rfl
    have hr : below s.g.slots.length s'.realRanges = s'.realRanges :=
      (below_eq_iff fun slot hslot => (hranges slot hslot).2).2 fun _ _ => rfl
    simp only [waRestore, waSnapshot, waMark, hi, hr]
    rfl
  constructor
  · intro hno
    have hview := sameView_of_answers hno
    have hranges : ∀ slot, s.g.slots.length ≤ slot →
        s'.intRanges slot = none ∧ s'.realRanges slot = none := fun slot hslot =>
      ⟨(congrFun hview.intRanges slot).trans (ha.intRanges slot hslot),
        (congrFun hview.realRanges slot).trans (ha.realRanges slot hslot)⟩
    rw [hcut hranges] at hno
    exact ⟨(waRestore_noTrace_iff h ha hb hb' []).1 hno, hranges⟩
  · rintro ⟨hun, hranges⟩
    rw [hcut hranges]
    exact (waRestore_noTrace_iff h ha hb hb' []).2 hun

end Restored

/-- An attempt that is taken back leaves no trace if and only if it changed nothing that the snapshot,
or the mark alone, does not return. -/
theorem abandon_noTrace_iff (hs : Reachable s) (names : List Bytes) (attempt : List Action)
    (hrun : run s attempt = some s') :
    (NoTrace (waRestore (waSnapshot names s) s') s ↔ Untouched names s s') ∧
      (NoTrace (waRollback (waMark s) s') s ↔
        Untouched [] s s' ∧ ∀ slot, s.g.slots.length ≤ slot →
          s'.intRanges slot = none ∧ s'.realRanges slot = none) :=
  have hgrows := run_grows s attempt s' hrun
  have hbudget := run_withinBudget hs.withinBudget attempt s' hrun
  ⟨waRestore_noTrace_iff hgrows hs.allocated hs.withinBudget hbudget names,
    waRollback_noTrace_iff hgrows hs.allocated hs.withinBudget hbudget⟩

/-! ## Attempts of a loop

A loop is tried as a region map.  The attempt may only emit an op of its own; it may read a scalar of the
data for the first time. -/

/-- The lowering before the loop: the scalar is in the data environment and has no slot. -/
def beforeLoop : State where
  inWriteArray := false
  td := ⟨fun n => if n = ascii "a" then some { r := [{ bits := 0 }] } else none, []⟩

/-- A slot with an op, a range and a binding of its own, after an attempt inside that fails as well. -/
def emitsOp : List Action :=
  [.abandon [] [.prim (.pushOp { opcode := 1, ins := [], out := 0 })],
    .prim (.addSlot 1 false), .prim (.pushOp { opcode := 2, ins := [], out := 0 }),
    .prim (.setRealRange 0 (some ({ bits := 0 }, { bits := 0 }))),
    .prim (.setScope (ascii "x") (some { slot := 0 }))]

/-- It is taken back without a trace. -/
theorem emitsOp_leaves_nothing : ∃ s', run beforeLoop emitsOp = some s' ∧
    NoTrace (waRestore (waSnapshot [ascii "x"] beforeLoop) s') beforeLoop := by
  refine ⟨_, rfl, (abandon_noTrace_iff (.start beforeLoop rfl rfl rfl rfl) [ascii "x"] emitsOp rfl).1.2 ?_⟩
  exact {
    constCache := rfl
    observations := rfl
    intInitializedPrefix := rfl
    targetTerms := rfl
    jacSlots := rfl
    extraRoots := rfl
    lastWritten := rfl
    specializationSteps := rfl
    specializationElements := rfl
    data := fun _ => rfl
    intRanges := fun slot hslot => absurd hslot (Nat.not_lt_zero slot)
    realRanges := fun slot hslot => absurd hslot (Nat.not_lt_zero slot)
    fresh := fun n hn => absurd hn List.not_mem_nil
    bindings := fun n hn _ =>
      ⟨Function.update_of_ne (fun h => hn (List.mem_singleton.2 h)) _ _, rfl⟩
    ints := fun n _ => ⟨rfl, rfl⟩ }

/-- `env_slot`: a slot with the value, its fill, its binding and its observation. -/
def readsData : List Action :=
  [.prim (.addSlot 1 false), .prim (.pushFill 0 [{ bits := 0 }]),
    .prim (.setScope (ascii "a") (some { slot := 0, si := { paramFree := true } })),
    .prim (.observe { slot := 0, si := { paramFree := true } } { r := [{ bits := 0 }] })]

/-- The next op gives the slot number to its result and asks whether its value is known. -/
def nextResult : Later :=
  .act (.prim (.addSlot 1 false)) fun _ =>
    .act (.prim (.observation { slot := 0, kind := .flat, shape := 0, rows := 0, cols := 0 })) fun _ =>
      .stop

/-- The reused slot number is taken for the scalar of the data. -/
theorem readsData_leaves_observation : Reachable beforeLoop ∧
    ∃ s', run beforeLoop readsData = some s' ∧
      ¬NoTrace (waRestore (waSnapshot [ascii "a"] beforeLoop) s') beforeLoop := by
  refine ⟨.start beforeLoop rfl rfl rfl rfl, _, rfl, fun h => ?_⟩
  have hanswers := h nextResult
  revert hanswers
  decide

/-- In a bounded alternative an attempt that is taken back can use up the storage that the next op
needs. -/
example :
    let s : State := { beforeLoop with boundedSpecialization := true }
    let attempt : Action := .abandon [] [.prim (.addSlot 1048576 false)]
    Later.answers (.act (.prim (.addSlot 1 false)) fun _ => .stop) s = [.slot 0] ∧
      Later.answers (.act attempt fun _ => .act (.prim (.addSlot 1 false)) fun _ => .stop) s =
        [.done, .refused] := by
  decide

end Speculation

end Stanli
