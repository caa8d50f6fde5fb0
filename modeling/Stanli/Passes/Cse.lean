import Stanli.Graph.Preserve
import Stanli.Lib.Scan

/-!
# Common-subexpression elimination

`cse` of `cse.cpp`: local value numbering over slots that are mutable buffers.  Every write bumps a
per-slot version, and the key of an op carries the version of each input.  An op whose key is in the
table repeats the op that entered it (its survivor).  If no parameter reaches it, or if active ops may
be merged too, it is dropped and later references to its output are renamed; otherwise it stays, with
its own output and adjoint, and only shares the survivor's value and scratch (`primalSource`).

The scan decides about each op when it reaches it, so the pass is a `Rewriter`.  Only the mark on a
survivor (`survivor.primal_source = survivor.out`) is made later than its op is read: the marked
positions are collected by a first run of the scan (`sources`) and handed to the rewriter.
-/

namespace Stanli

variable {U V S W : Type*}

/-! ## The pass -/

/-- `never_merge`: effectful opcodes, reductions whose variant selects their grouping, compiled
regions and solvers. -/
def Opcode.neverMerge (oc : Opcode) : Bool :=
  oc.isEffectful || oc.hasTrait .variantGrouped || decide (oc ∈ [island, ode, dae, odeAdjoint])

/-- How often the ops write a slot (`writes`). -/
def Graph.writeCount (g : Graph U) (s : ℕ) : ℕ := (g.ops.flatMap Op.outs).count s

/-- The slots that must keep their identity: the roots, the result and the filled slots (`keep`). -/
def Graph.cseKeep (g : Graph U) (fills : Fills V) (roots : List ℕ) (s : ℕ) : Bool :=
  g.isRoot roots s || decide (s ∈ fills.map Prod.fst)

/-- What two ops must have in common to compute the same (`Key`): each input with its version. -/
structure CseKey where
  opcode : Opcode
  variant : ℕ
  len : ℕ
  ins : List (ℕ × ℕ)
  idata : List ℤ
deriving DecidableEq

/-- The op that entered a key into the table. -/
structure Survivor where
  pos : ℕ
  out : ℕ
deriving DecidableEq

/-- The state of the scan before op `pos`. -/
structure CseScan where
  pos : ℕ
  version : ℕ → ℕ
  /-- A parameter reaches the slot. -/
  active : ℕ → Bool
  table : CseKey → Option Survivor
  /-- Removed output to surviving output. -/
  rename : ℕ → Option ℕ
  /-- Same value, independent adjoint. -/
  primal : ℕ → Option ℕ
  /-- The survivors that other ops name as their primal source. -/
  sources : List ℕ
  opsRemoved : ℕ
  primalsShared : ℕ

/-- What the scan of one graph does not change: the registry, the graph, the slots to keep, and
whether active ops may be merged. -/
structure CseEnv (U V S W : Type*) where
  K : Kernels U V S W
  g : Graph U
  keep : ℕ → Bool
  mergeActive : Bool

namespace CseEnv

variable (E : CseEnv U V S W)

/-- The scan starts with the parameters active. -/
def init : CseScan where
  pos := 0
  version _ := 0
  active := E.g.isParam
  table _ := none
  rename _ := none
  primal _ := none
  sources := []
  opsRemoved := 0
  primalsShared := 0

/-- The op may be merged with another one. -/
def candidate (op : Op U) : Bool :=
  op.out2.isNone && op.udata.isNone && op.primalSource.isNone && decide (op.dynLengths = 0) &&
  !op.opcode.neverMerge && decide (E.g.writeCount op.out = 1) && !E.keep op.out &&
  !E.g.isParam op.out && decide (op.out ∉ op.ins) && E.K.registered op.opcode &&
  !E.K.makesState op.opcode

end CseEnv

namespace CseScan

/-- The slot that now stands for `s`. -/
def resolve (st : CseScan) (s : ℕ) : ℕ := (st.rename s).getD s

/-- The slot whose value buffer a slot uses. -/
def source (st : CseScan) (s : ℕ) : ℕ := (st.primal s).getD s

/-- The key of an op whose inputs are resolved. -/
def key (g : Graph U) (st : CseScan) (op : Op U) : CseKey where
  opcode := op.opcode
  variant := op.variant
  len := g.len op.out
  ins := op.ins.map fun s => (st.source s, st.version (st.source s))
  idata := op.idata

/-- A parameter reaches an input (`any_active`). -/
def anyActive (st : CseScan) (op : Op U) : Bool := (op.mapIns st.resolve).ins.any st.active

/-- The op that computes the same, if there is one before. -/
def survivor (E : CseEnv U V S W) (st : CseScan) (op : Op U) : Option Survivor :=
  if E.candidate (op.mapIns st.resolve) then st.table (st.key E.g (op.mapIns st.resolve)) else none

/-- An op that repeats another one shares its primal only. -/
def shares (E : CseEnv U V S W) (st : CseScan) (op : Op U) : Bool :=
  st.anyActive op && !E.mergeActive

/-- The active slots after the next op. -/
def nextActive (st : CseScan) (op : Op U) (s : ℕ) : Bool :=
  st.active s || (decide (s ∈ op.outs) && st.anyActive op)

/-- The versions after the writes of the next op. -/
def nextVersion (st : CseScan) (op : Op U) (s : ℕ) : ℕ := st.version s + op.outs.count s

/-- The state after the next op. -/
def step (E : CseEnv U V S W) (st : CseScan) (op : Op U) : CseScan :=
  match st.survivor E op with
  | some v =>
    if st.shares E op then
      { st with
        pos := st.pos + 1
        version := st.nextVersion op
        active := st.nextActive op
        primal := Function.update st.primal op.out (some v.out)
        sources := v.pos :: st.sources
        primalsShared := st.primalsShared + 1 }
    else
      { st with
        pos := st.pos + 1
        active := st.nextActive op
        rename := Function.update st.rename op.out (some v.out)
        opsRemoved := st.opsRemoved + 1 }
  | none =>
    let renamed := op.mapIns st.resolve
    { st with
      pos := st.pos + 1
      version := st.nextVersion op
      active := st.nextActive op
      table :=
        if E.candidate renamed then
          Function.update st.table (st.key E.g renamed) (some ⟨st.pos, op.out⟩)
        else st.table }

/-- The op that replaces the next one, when the survivors at the positions `sources` are shared. -/
def emit (E : CseEnv U V S W) (sources : List ℕ) (st : CseScan) (op : Op U) : Option (Op U) :=
  match st.survivor E op with
  | some v =>
    if st.shares E op then some { op.mapIns st.resolve with primalSource := some v.out } else none
  | none =>
    some { op.mapIns st.resolve with
      primalSource := if st.pos ∈ sources then some op.out else op.primalSource }

end CseScan

namespace CseEnv

variable (E : CseEnv U V S W)

/-- The state of the scan after some ops. -/
def scan (ops : List (Op U)) : CseScan := ops.foldl (CseScan.step E) E.init

/-- The pass as a rewriter. -/
def rewriter : Rewriter CseScan (Op U) (Op U) where
  emit := CseScan.emit E (E.scan E.g.ops).sources
  next := CseScan.step E

/-- The graph with the ops rewritten and the removed outputs emptied. -/
def graph : Graph U where
  slots := E.g.slots.mapIdx fun s slot =>
    if ((E.scan E.g.ops).rename s).isSome then { slot with len := 0 } else slot
  ops := E.rewriter.run E.init E.g.ops
  resultSlot := E.g.resultSlot

end CseEnv

/-- What the pass returns: the graph, the target terms, and its two counts. -/
structure CseResult (U : Type*) where
  graph : Graph U
  targetTerms : List ℕ
  opsRemoved : ℕ
  primalsShared : ℕ

/-- `cse`. -/
def cse (K : Kernels U V S W) (g : Graph U) (fills : Fills V) (targetTerms roots : List ℕ)
    (mergeActive : Bool) : CseResult U :=
  let E : CseEnv U V S W := ⟨K, g, g.cseKeep fills roots, mergeActive⟩
  let last := E.scan g.ops
  { graph := E.graph
    -- nothing is renamed when nothing is removed
    targetTerms := if last.opsRemoved = 0 then targetTerms else targetTerms.map last.resolve
    opsRemoved := last.opsRemoved
    primalsShared := last.primalsShared }

/-! ## What the scan knows -/

namespace CseEnv

variable (E : CseEnv U V S W)

/-- The state of the scan before op `n`. -/
def before (n : ℕ) : CseScan := E.scan (E.g.ops.take n)

variable {E}

lemma before_succ {n : ℕ} {op : Op U} (hop : E.g.ops[n]? = some op) :
    E.before (n + 1) = (E.before n).step E op := by
  unfold before scan
  rw [List.take_add_one, hop, Option.toList_some, List.foldl_append]
  rfl

lemma before_length : E.before E.g.ops.length = E.scan E.g.ops := by
  rw [before, List.take_length]

/-- What the candidate check promises about an op. -/
structure Mergeable (E : CseEnv U V S W) (op : Op U) : Prop where
  out2 : op.out2 = none
  udata : op.udata = none
  noEffect : E.K.hasEffect op.call = false
  once : E.g.writeCount op.out = 1
  keep : E.keep op.out = false
  notParam : E.g.isParam op.out = false

lemma Mergeable.of_candidate {f : ℕ → ℕ} {op : Op U} (h : E.candidate (op.mapIns f) = true) :
    E.Mergeable op ∧ op.out ∉ op.ins.map f := by
  simp only [candidate, Bool.and_eq_true, Bool.not_eq_true', decide_eq_true_eq,
    Option.isNone_iff_eq_none] at h
  obtain ⟨⟨⟨⟨⟨⟨⟨⟨⟨⟨h2, hu⟩, -⟩, -⟩, hm⟩, hw⟩, hk⟩, hp⟩, hi⟩, -⟩, -⟩ := h
  have hm' : op.opcode.neverMerge = false := hm
  simp only [Opcode.neverMerge, Bool.or_eq_false_iff, decide_eq_false_iff_not] at hm'
  have hne : op.opcode ≠ .island := fun h => hm'.2 (by simp [h])
  exact ⟨⟨h2, hu, by simp [Kernels.hasEffect, Op.call, hm'.1.1, hne], hw, hk, hp⟩, hi⟩

/-- A mergeable op is the only one that writes its output. -/
lemma Mergeable.soleWriter {op : Op U} (h : E.Mergeable op) {n : ℕ} (hop : E.g.ops[n]? = some op) :
    E.g.SoleWriter op.out n := by
  refine ⟨⟨op, hop, by simp⟩, ?_⟩
  rintro k ⟨o, ho, hs⟩
  exact eq_of_count_flatMap (Nat.le_of_eq h.once) ho hs hop (by simp)

lemma Mergeable.outs {op : Op U} (h : E.Mergeable op) {s : ℕ} : s ∈ op.outs ↔ s = op.out := by
  simp [h.out2]

end CseEnv

/-- The call of the ops with a key. -/
def CseKey.call (U : Type*) (key : CseKey) : KernelCall U where
  opcode := key.opcode
  variant := key.variant
  idata := key.idata
  udata := none

namespace CseScan

variable {E : CseEnv U V S W} {st : CseScan} {op : Op U} {n : ℕ}

/-- The inputs of the key still are what they were when the key was entered. -/
def Current (st : CseScan) (key : CseKey) : Prop := ∀ q ∈ key.ins, st.version q.1 = q.2

/-- The slot whose value buffer stands for slot `s`. -/
def valueSlot (st : CseScan) (s : ℕ) : ℕ := st.source (st.resolve s)

/-- The three things that can happen to an op: it shares a survivor's primal, it is removed, or it is
kept, and then it may enter the table. -/
lemma step_cases (E : CseEnv U V S W) (st : CseScan) (op : Op U) :
    (∃ v, st.survivor E op = some v ∧ st.shares E op = true ∧
      st.step E op =
        { st with
          pos := st.pos + 1
          version := st.nextVersion op
          active := st.nextActive op
          primal := Function.update st.primal op.out (some v.out)
          sources := v.pos :: st.sources
          primalsShared := st.primalsShared + 1 }) ∨
    (∃ v, st.survivor E op = some v ∧ st.shares E op = false ∧
      st.step E op =
        { st with
          pos := st.pos + 1
          active := st.nextActive op
          rename := Function.update st.rename op.out (some v.out)
          opsRemoved := st.opsRemoved + 1 }) ∨
    (st.survivor E op = none ∧
      st.step E op =
        { st with
          pos := st.pos + 1
          version := st.nextVersion op
          active := st.nextActive op
          table :=
            if E.candidate (op.mapIns st.resolve) then
              Function.update st.table (st.key E.g (op.mapIns st.resolve)) (some ⟨st.pos, op.out⟩)
            else st.table }) := by
  cases hs : st.survivor E op with
  | none => exact .inr (.inr ⟨rfl, by simp only [step, hs]⟩)
  | some v =>
    cases hsh : st.shares E op with
    | true => exact .inl ⟨v, rfl, rfl, by simp only [step, hs, hsh, if_true]⟩
    | false =>
      exact .inr (.inl ⟨v, rfl, rfl, by simp only [step, hs, hsh, Bool.false_eq_true, if_false]⟩)

/-- A repeated op is mergeable, and its survivor is in the table under its key. -/
lemma survivor_eq_some {v : Survivor} (h : st.survivor E op = some v) :
    E.Mergeable op ∧ op.out ∉ op.ins.map st.resolve ∧
      st.table (st.key E.g (op.mapIns st.resolve)) = some v := by
  unfold survivor at h
  split_ifs at h with hc
  exact ⟨(CseEnv.Mergeable.of_candidate hc).1, (CseEnv.Mergeable.of_candidate hc).2, h⟩

@[simp] lemma step_pos : (st.step E op).pos = st.pos + 1 := by
  rcases step_cases E st op with ⟨v, -, -, h⟩ | ⟨v, -, -, h⟩ | ⟨-, h⟩ <;> rw [h]

@[simp] lemma step_active : (st.step E op).active = st.nextActive op := by
  rcases step_cases E st op with ⟨v, -, -, h⟩ | ⟨v, -, -, h⟩ | ⟨-, h⟩ <;> rw [h]

lemma active_le_step {s : ℕ} (h : st.active s = true) : (st.step E op).active s = true := by
  rw [step_active]
  simp [nextActive, h]

/-- Only the outputs of an op become active. -/
lemma step_active_of_notMem {s : ℕ} (h : s ∉ op.outs) :
    (st.step E op).active s = st.active s := by
  rw [step_active]
  simp [nextActive, h]

lemma version_le_step (s : ℕ) : st.version s ≤ (st.step E op).version s := by
  rcases step_cases E st op with ⟨v, -, -, h⟩ | ⟨v, -, -, h⟩ | ⟨-, h⟩ <;> rw [h]
  · exact Nat.le_add_right _ _
  · exact Nat.le_add_right _ _

/-- Only a repeated op changes what its output stands for. -/
lemma step_rename (E : CseEnv U V S W) (st : CseScan) (op : Op U) {s : ℕ}
    (h : s ≠ op.out ∨ st.survivor E op = none) :
    (st.step E op).rename s = st.rename s ∧ (st.step E op).primal s = st.primal s := by
  rcases step_cases E st op with ⟨v, hv, -, hst⟩ | ⟨v, hv, -, hst⟩ | ⟨-, hst⟩ <;> rw [hst]
  · exact ⟨rfl, Function.update_of_ne (h.resolve_right (by simp [hv])) _ _⟩
  · exact ⟨Function.update_of_ne (h.resolve_right (by simp [hv])) _ _, rfl⟩
  · exact ⟨rfl, rfl⟩

/-- A removed or primal-sharing output and the output that stands for it. -/
structure Merged (E : CseEnv U V S W) (n : ℕ) (st : CseScan) (x y : ℕ) : Prop where
  writers : ∃ d < n, ∃ j < d, E.g.SoleWriter x d ∧ E.g.SoleWriter y j
  len : E.g.len x = E.g.len y
  keep : E.keep x = false
  notParam : E.g.isParam x = false
  root : st.rename y = none ∧ st.primal y = none

/-- An entry of the table. -/
structure Entry (E : CseEnv U V S W) (n : ℕ) (st : CseScan) (key : CseKey) (v : Survivor) :
    Prop where
  lt : v.pos < n
  op : ∃ o, E.g.ops[v.pos]? = some o ∧ E.Mergeable o ∧ o.out = v.out ∧ o.call = key.call U
  len : E.g.len v.out = key.len
  version : ∀ q ∈ key.ins, q.2 ≤ st.version q.1
  settled : ∀ q ∈ key.ins, E.g.Settled n q.1
  root : st.rename v.out = none ∧ st.primal v.out = none
  active : st.Current key → st.active v.out = key.ins.any fun q => st.active q.1

lemma Entry.soleWriter {key : CseKey} {v : Survivor} (h : Entry E n st key v) :
    E.g.SoleWriter v.out v.pos := by
  obtain ⟨o, ho, hm, hout, -⟩ := h.op
  exact hout ▸ hm.soleWriter ho

/-- What holds before op `n`. -/
structure Invariant (E : CseEnv U V S W) (n : ℕ) (st : CseScan) : Prop where
  pos : st.pos = n
  entry : ∀ key v, st.table key = some v → Entry E n st key v
  merged : ∀ x y, st.rename x = some y ∨ st.primal x = some y → Merged E n st x y
  written : ∀ s, st.active s = true → E.g.isParam s = true ∨ ∃ i < n, Writes E.g.ops s i
  inactive : E.mergeActive = false → ∀ x y, st.rename x = some y →
    st.active x = false ∧ st.active y = false
  shared : ∀ x y, st.primal x = some y → st.active x = true ∧ st.active y = true

section Step

variable {v : Survivor} {key : CseKey} {s x y : ℕ}

lemma key_current (st : CseScan) (g : Graph U) (op : Op U) : st.Current (st.key g op) := by
  intro q hq
  obtain ⟨s, -, rfl⟩ := List.mem_map.1 hq
  rfl

lemma mem_key_ins {q : ℕ × ℕ} (hq : q ∈ (st.key E.g (op.mapIns st.resolve)).ins) :
    ∃ s ∈ op.ins, q = (st.valueSlot s, st.version (st.valueSlot s)) := by
  obtain ⟨t, ht, rfl⟩ := List.mem_map.1 hq
  obtain ⟨s, hs, rfl⟩ := List.mem_map.1 ht
  exact ⟨s, hs, rfl⟩

namespace Invariant

/-- What stands for a settled slot is settled. -/
lemma settled_resolve (h : Invariant E n st) (hs : E.g.Settled n s) :
    E.g.Settled n (st.resolve s) := by
  unfold resolve
  cases hr : st.rename s with
  | none => exact hs
  | some y =>
    obtain ⟨d, hd, j, hj, -, hy⟩ := (h.merged s y (.inl hr)).writers
    exact hy.settled (by omega)

lemma settled_source (h : Invariant E n st) (hs : E.g.Settled n s) :
    E.g.Settled n (st.source s) := by
  unfold source
  cases hr : st.primal s with
  | none => exact hs
  | some y =>
    obtain ⟨d, hd, j, hj, -, hy⟩ := (h.merged s y (.inr hr)).writers
    exact hy.settled (by omega)

lemma settled_valueSlot (h : Invariant E n st) (hs : E.g.Settled n s) :
    E.g.Settled n (st.valueSlot s) := h.settled_source (h.settled_resolve hs)

/-- A slot that op `n` writes stands for itself before it. -/
lemma rename_of_mem (h : Invariant E n st) (hop : E.g.ops[n]? = some op) (hs : s ∈ op.outs) :
    st.rename s = none ∧ st.primal s = none := by
  have hno : ∀ y, ¬ (st.rename s = some y ∨ st.primal s = some y) := by
    intro y hy
    obtain ⟨d, hd, -, -, hx, -⟩ := (h.merged s y hy).writers
    have := hx.unique n ⟨op, hop, hs⟩
    omega
  exact ⟨Option.eq_none_iff_forall_ne_some.2 fun y hy => hno y (.inl hy),
    Option.eq_none_iff_forall_ne_some.2 fun y hy => hno y (.inr hy)⟩

lemma active_source (h : Invariant E n st) (s : ℕ) : st.active (st.source s) = st.active s := by
  unfold source
  cases hp : st.primal s with
  | none => rfl
  | some y =>
    rw [Option.getD_some, (h.shared s y hp).1, (h.shared s y hp).2]

/-- A parameter reaches the inputs of the key when it reaches the inputs of the op. -/
lemma key_any_active (h : Invariant E n st) (op : Op U) :
    ((st.key E.g (op.mapIns st.resolve)).ins.any fun q => st.active q.1) = st.anyActive op := by
  simp only [key, anyActive, List.any_map]
  congr 1
  funext s
  exact h.active_source s

/-- A survivor is as active as the op that repeats it. -/
lemma survivor_active (h : Invariant E n st) (hv : st.survivor E op = some v) :
    st.active v.out = st.anyActive op := by
  rw [(h.entry _ v (survivor_eq_some hv).2.2).active (key_current st _ _), h.key_any_active]

lemma survivor_entry (h : Invariant E n st) (hv : st.survivor E op = some v) :
    Entry E n st (st.key E.g (op.mapIns st.resolve)) v :=
  h.entry _ v (survivor_eq_some hv).2.2

end Invariant

lemma Merged.step (h : Merged E n st x y) (hop : E.g.ops[n]? = some op) :
    Merged E (n + 1) (st.step E op) x y := by
  obtain ⟨d, hd, j, hj, hx, hy⟩ := h.writers
  have hne : y ≠ op.out := by
    rintro rfl
    have := hy.unique n ⟨op, hop, by simp⟩
    omega
  obtain ⟨hr, hp⟩ := step_rename E st op (.inl hne)
  exact ⟨⟨d, by omega, j, hj, hx, hy⟩, h.len, h.keep, h.notParam, hr ▸ h.root.1, hp ▸ h.root.2⟩

/-- While a key is current its inputs are not written. -/
lemma Entry.notMem_outs (h : Entry E n st key v) (hop : E.g.ops[n]? = some op)
    (hcur : (st.step E op).Current key) {q : ℕ × ℕ} (hq : q ∈ key.ins) : q.1 ∉ op.outs := by
  intro hmem
  have hle := h.version q hq
  have hbump : st.nextVersion op q.1 ≠ q.2 := by
    have : 0 < op.outs.count q.1 := List.count_pos_iff.2 hmem
    unfold nextVersion
    omega
  have heq := hcur q hq
  rcases step_cases E st op with ⟨w, -, -, hst⟩ | ⟨w, hw, -, hst⟩ | ⟨-, hst⟩
  · rw [hst] at heq
    exact hbump heq
  · -- a removed op does not bump versions, but its output was not there to be read
    obtain ⟨hm, -, -⟩ := survivor_eq_some hw
    have := (hm.soleWriter hop).lt_of_settled (hm.outs.1 hmem ▸ h.settled q hq)
    omega
  · rw [hst] at heq
    exact hbump heq

lemma Entry.current (h : Entry E n st key v) (hcur : (st.step E op).Current key) :
    st.Current key := by
  intro q hq
  have h1 := hcur q hq
  have h2 := h.version q hq
  have h3 : st.version q.1 ≤ (st.step E op).version q.1 := version_le_step q.1
  omega

lemma Entry.step (h : Entry E n st key v) (hop : E.g.ops[n]? = some op) :
    Entry E (n + 1) (st.step E op) key v := by
  have hlt := h.lt
  have hnot : v.out ∉ op.outs := h.soleWriter.notMem hop (by omega)
  obtain ⟨hr, hp⟩ := step_rename E st op (s := v.out)
    (.inl fun heq => hnot (by simp [heq]))
  refine ⟨by omega, h.op, h.len, fun q hq => (h.version q hq).trans (version_le_step _),
    fun q hq => (h.settled q hq).mono (by omega), ⟨hr ▸ h.root.1, hp ▸ h.root.2⟩, fun hcur => ?_⟩
  rw [step_active_of_notMem hnot, h.active (h.current hcur)]
  exact any_congr_of_mem fun q hq => (step_active_of_notMem (h.notMem_outs hop hcur hq)).symm

namespace Invariant

/-- A repeated op and its survivor. -/
lemma merged_survivor (h : Invariant E n st) (hop : E.g.ops[n]? = some op)
    (hv : st.survivor E op = some v) : Merged E (n + 1) (st.step E op) op.out v.out := by
  obtain ⟨hm, -, -⟩ := survivor_eq_some hv
  have he := h.survivor_entry hv
  exact ⟨⟨n, by omega, v.pos, he.lt, hm.soleWriter hop, he.soleWriter⟩, he.len.symm, hm.keep,
    hm.notParam, (he.step hop).root⟩

/-- A mergeable op does not write what it reads. -/
lemma valueSlot_notMem_of_mergeable (h : Invariant E n st) (horder : EvalOrder E.g.ops)
    (hop : E.g.ops[n]? = some op) (hm : E.Mergeable op) (hs : s ∈ op.ins) :
    st.valueSlot s ∉ op.outs := by
  intro hmem
  have hsettled := h.settled_valueSlot (horder.settled hop hs)
  have := (hm.soleWriter hop).lt_of_settled (hm.outs.1 hmem ▸ hsettled)
  omega

/-- A candidate that repeats no op enters the table. -/
lemma entry_new (h : Invariant E n st) (horder : EvalOrder E.g.ops) (hop : E.g.ops[n]? = some op)
    (hv : st.survivor E op = none) (hc : E.candidate (op.mapIns st.resolve) = true) :
    Entry E (n + 1) (st.step E op) (st.key E.g (op.mapIns st.resolve)) ⟨n, op.out⟩ := by
  obtain ⟨hm, -⟩ := CseEnv.Mergeable.of_candidate hc
  have hsole := hm.soleWriter hop
  have hsettled : ∀ s ∈ op.ins, E.g.Settled n (st.valueSlot s) := fun s hs =>
    h.settled_valueSlot (horder.settled hop hs)
  have hne : ∀ s ∈ op.ins, st.valueSlot s ∉ op.outs := fun s hs =>
    h.valueSlot_notMem_of_mergeable horder hop hm hs
  obtain ⟨hr, hp⟩ := step_rename E st op (s := op.out) (.inr hv)
  obtain ⟨hr', hp'⟩ := h.rename_of_mem hop (s := op.out) (by simp)
  refine ⟨by simp, ⟨op, hop, hm, rfl, ?_⟩, rfl, fun q hq => ?_, fun q hq => ?_, ⟨hr.trans hr', hp.trans hp'⟩,
    fun _ => ?_⟩
  · simp [Op.call, CseKey.call, key, Op.mapIns, hm.udata]
  · obtain ⟨s, -, rfl⟩ := mem_key_ins hq
    exact version_le_step _
  · obtain ⟨s, hs, rfl⟩ := mem_key_ins hq
    exact (hsettled s hs).mono (by omega)
  · have hout : st.active op.out = false := by
      cases ha : st.active op.out with
      | false => rfl
      | true =>
        rcases h.written _ ha with hp | ⟨i, hi, hw⟩
        · rw [hm.notParam] at hp
          cases hp
        · have := hsole.unique i hw
          omega
    have hkey : ((st.key E.g (op.mapIns st.resolve)).ins.any fun q => (st.step E op).active q.1) =
        (st.key E.g (op.mapIns st.resolve)).ins.any fun q => st.active q.1 := by
      refine any_congr_of_mem fun q hq => ?_
      obtain ⟨s, hs, rfl⟩ := mem_key_ins hq
      exact step_active_of_notMem (hne s hs)
    rw [hkey, h.key_any_active, step_active]
    simp [nextActive, hout]

/-- What an op changes about the slots that stand for others. -/
lemma step_slots (h : Invariant E n st) (hop : E.g.ops[n]? = some op) {x y : ℕ}
    (hxy : (st.step E op).rename x = some y ∨ (st.step E op).primal x = some y) :
    (x ∉ op.outs ∧ y ∉ op.outs ∧ (st.rename x = some y ∨ st.primal x = some y) ∧
      (st.step E op).rename x = st.rename x ∧ (st.step E op).primal x = st.primal x) ∨
    ∃ v, st.survivor E op = some v ∧ x = op.out ∧ y = v.out ∧
      ((st.step E op).rename x = some y ↔ st.shares E op = false) ∧
      ((st.step E op).primal x = some y ↔ st.shares E op = true) := by
  by_cases hnew : x ≠ op.out ∨ st.survivor E op = none
  · -- an entry from before, whose slots are written by earlier ops only
    obtain ⟨hr, hp⟩ := step_rename E st op hnew
    rw [hr, hp] at hxy
    obtain ⟨d, hd, j, hj, hx, hy⟩ := (h.merged x y hxy).writers
    exact .inl ⟨hx.notMem hop (by omega), hy.notMem hop (by omega), hxy, hr, hp⟩
  · rw [not_or, not_ne_iff] at hnew
    obtain ⟨rfl, hnone⟩ := hnew
    obtain ⟨v, hv⟩ := Option.ne_none_iff_exists'.1 hnone
    obtain ⟨hr, hp⟩ := h.rename_of_mem hop (s := op.out) (by simp)
    refine .inr ⟨v, hv, rfl, ?_⟩
    rcases step_cases E st op with ⟨w, hw, hsh, hst⟩ | ⟨w, hw, hsh, hst⟩ | ⟨hw, -⟩
    · obtain rfl := Option.some.inj (hv.symm.trans hw)
      rw [hst] at hxy ⊢
      simp only [hr, Function.update_self, reduceCtorEq, false_or, Option.some.injEq] at hxy
      simp [hr, hsh, hxy]
    · obtain rfl := Option.some.inj (hv.symm.trans hw)
      rw [hst] at hxy ⊢
      simp only [hp, Function.update_self, reduceCtorEq, or_false, Option.some.injEq] at hxy
      simp [hp, hsh, hxy]
    · rw [hv] at hw
      cases hw

/-- The invariant is kept. -/
lemma step (h : Invariant E n st) (horder : EvalOrder E.g.ops) (hop : E.g.ops[n]? = some op) :
    Invariant E (n + 1) (st.step E op) := by
  refine ⟨by rw [step_pos, h.pos], fun key v hkey => ?_, fun x y hxy => ?_, fun s hs => ?_,
    fun hma x y hxy => ?_, fun x y hxy => ?_⟩
  · rcases step_cases E st op with ⟨w, -, -, hst⟩ | ⟨w, -, -, hst⟩ | ⟨hv, hst⟩
    · rw [hst] at hkey
      exact (h.entry key v hkey).step hop
    · rw [hst] at hkey
      exact (h.entry key v hkey).step hop
    · by_cases hc : E.candidate (op.mapIns st.resolve) = true
      · by_cases hk : key = st.key E.g (op.mapIns st.resolve)
        · subst hk
          rw [hst] at hkey
          simp only [hc, if_true, Function.update_self, Option.some.injEq] at hkey
          rw [← hkey, h.pos]
          exact h.entry_new horder hop hv hc
        · rw [hst] at hkey
          simp only [hc, if_true, Function.update_of_ne hk] at hkey
          exact (h.entry key v hkey).step hop
      · rw [hst] at hkey
        simp only [hc, Bool.false_eq_true, if_false] at hkey
        exact (h.entry key v hkey).step hop
  · rcases h.step_slots hop hxy with ⟨-, -, hold, -, -⟩ | ⟨v, hv, rfl, rfl, -⟩
    · exact (h.merged x y hold).step hop
    · exact h.merged_survivor hop hv
  · by_cases hso : s ∈ op.outs
    · exact .inr ⟨n, by omega, op, hop, hso⟩
    · rw [step_active_of_notMem hso] at hs
      refine (h.written s hs).imp id ?_
      rintro ⟨i, hi, hw⟩
      exact ⟨i, by omega, hw⟩
  · rcases h.step_slots hop (.inl hxy) with ⟨hx, hy, -, hr, -⟩ | ⟨v, hv, rfl, rfl, hsh, -⟩
    · rw [step_active_of_notMem hx, step_active_of_notMem hy]
      exact h.inactive hma x y (hr ▸ hxy)
    · -- a removed op is inactive, and its output had not been written
      have hact : st.anyActive op = false := by simpa [shares, hma] using hsh.1 hxy
      obtain ⟨hm, -, -⟩ := survivor_eq_some hv
      have hsole := hm.soleWriter hop
      have hvout : v.out ∉ op.outs :=
        (h.survivor_entry hv).soleWriter.notMem hop (Nat.ne_of_gt (h.survivor_entry hv).lt)
      rw [step_active_of_notMem hvout, h.survivor_active hv, step_active]
      refine ⟨?_, hact⟩
      cases ha : st.active op.out with
      | false => simp [nextActive, ha, hact]
      | true =>
        rcases h.written _ ha with hp | ⟨i, hi, hw⟩
        · rw [hm.notParam] at hp
          cases hp
        · have := hsole.unique i hw
          omega
  · rcases h.step_slots hop (.inr hxy) with ⟨hx, hy, -, -, hp⟩ | ⟨v, hv, rfl, rfl, -, hsh⟩
    · rw [step_active_of_notMem hx, step_active_of_notMem hy]
      exact h.shared x y (hp ▸ hxy)
    · have hact : st.anyActive op = true := by
        have := hsh.1 hxy
        simp only [shares, Bool.and_eq_true] at this
        exact this.1
      exact ⟨by rw [step_active]; simp [nextActive, hact],
        active_le_step ((h.survivor_active hv).trans hact)⟩

end Invariant

end Step

/-- The invariant holds before every op. -/
lemma invariant_before (horder : EvalOrder E.g.ops) (hn : n ≤ E.g.ops.length) :
    Invariant E n (E.before n) := by
  induction n with
  | zero =>
    constructor
    · rfl
    · exact fun _ _ h => absurd h (by simp [CseEnv.before, CseEnv.scan, CseEnv.init])
    · exact fun _ _ h => absurd h (by simp [CseEnv.before, CseEnv.scan, CseEnv.init])
    · exact fun s hs => .inl hs
    · exact fun _ _ _ h => absurd h (by simp [CseEnv.before, CseEnv.scan, CseEnv.init])
    · exact fun _ _ h => absurd h (by simp [CseEnv.before, CseEnv.scan, CseEnv.init])
  | succ n ih =>
    have hop := List.getElem?_eq_getElem (l := E.g.ops) hn
    rw [CseEnv.before_succ hop]
    exact (ih (by omega)).step horder hop

end CseScan

end Stanli
