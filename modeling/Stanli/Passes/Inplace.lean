import Mathlib.Algebra.Order.Ring.Int
import Stanli.Graph.Preserve
import Stanli.Lib.Scan

/-!
# Destructive functional updates

`make_inplace_updates` of `inplace.cpp`.  One scan turns a copying store whose base nothing reads
afterwards into an in-place one: the output slot becomes the base slot, and later references to it
are renamed.  The scan keeps the last op that reads each slot, the slots some op will reread in the
reverse sweep (`valueReader`), and the slots whose fresh producer does not reread its output
(`outputSafe`).
-/

namespace Stanli

variable {U V S W : Type*}

/-! ## The pass -/

/-- `inplace_form`. -/
def Opcode.inplaceForm : Opcode → Option Opcode
  | .setIndex => some .setIndexInplace
  | .setSlice => some .setSliceInplace
  | .setSliceStrided => some .setSliceStridedInplace
  | _ => none

/-- The last op that reads each slot, or `-1`. -/
def lastUses (ops : List (Op U)) : ℕ → ℤ := lastPositions (fun op s => decide (s ∈ op.ins)) ops

/-- The state of the scan before op `pos`.  `slots` are the graph's, with the dead outputs emptied. -/
structure InplaceScan where
  pos : ℕ
  slots : List Slot
  lastUse : ℕ → ℤ
  /-- Dead output slot to live slot. -/
  rename : ℕ → Option ℕ
  /-- Some op that rereads the slot's values in reverse has consumed it. -/
  valueReader : ℕ → Bool
  /-- An op produced the slot, and its backward ignores its output. -/
  outputSafe : ℕ → Bool
  rewritten : ℕ

namespace InplaceScan

/-- The slot that now stands for `s`. -/
def resolve (st : InplaceScan) (s : ℕ) : ℕ := (st.rename s).getD s

/-- An in-place store whose output is its base (before renaming). -/
def aliased (op : Op U) : Bool :=
  op.opcode.isInplaceStore && decide (op.ins ≠ [] ∧ op.out = op.input 0)

/-- The op with both sides renamed: the inputs, and the output of an in-place store. -/
def renameOp (st : InplaceScan) (op : Op U) : Op U :=
  let renamed := op.mapIns st.resolve
  if aliased op then { renamed with out := renamed.input 0 } else renamed

/-- The store contract over the slots as they stand. -/
def validStore (g : Graph U) (st : InplaceScan) (op : Op U) : Bool :=
  { g with slots := st.slots }.validStoreContract op

/-- `valid_existing_inplace`. -/
def validExisting (g : Graph U) (st : InplaceScan) (op : Op U) : Bool :=
  !op.opcode.isInplaceStore || (aliased op && st.validStore g (st.renameOp op))

/-- `mark_fresh_output(op.out)`, then the second output. -/
def markOutputs (g : Graph U) (st : InplaceScan) (op : Op U) : ℕ → Bool :=
  let renamed := st.renameOp op
  let safe :=
    if renamed.out ∈ renamed.ins then
      if op.opcode.isInplaceStore && st.validExisting g op then st.outputSafe
      else Function.update st.outputSafe renamed.out false
    else Function.update st.outputSafe renamed.out
      (st.validExisting g op && op.opcode.backwardIgnoresValues)
  match op.out2 with
  | some o => Function.update safe o false
  | none => safe

/-- The store may destroy its base. -/
def eligible (g : Graph U) (isRoot : ℕ → Bool) (st : InplaceScan) (op : Op U) : Bool :=
  let renamed := st.renameOp op
  let vec := renamed.input 0
  op.opcode.inplaceForm.isSome && st.validStore g renamed && decide (renamed.input 1 ≠ vec) &&
    st.outputSafe vec && !((st.slots[vec]?).map Slot.isParam).getD false && !isRoot vec &&
    !isRoot renamed.out && decide (st.lastUse vec = st.pos) && !st.valueReader vec

/-- The op that replaces the next one. -/
def rewrite (g : Graph U) (isRoot : ℕ → Bool) (st : InplaceScan) (op : Op U) : Op U :=
  let renamed := st.renameOp op
  if st.eligible g isRoot op then
    { renamed with
      opcode := op.opcode.inplaceForm.getD op.opcode
      out := renamed.input 0 }
  else renamed

@[simp] lemma rewrite_primalSource (g : Graph U) (isRoot : ℕ → Bool) (st : InplaceScan)
    (op : Op U) : (st.rewrite g isRoot op).primalSource = op.primalSource := by
  unfold rewrite renameOp
  split_ifs <;> rfl

/-- The state after the next op. -/
def step (g : Graph U) (isRoot : ℕ → Bool) (st : InplaceScan) (op : Op U) : InplaceScan :=
  let renamed := st.renameOp op
  let vec := renamed.input 0
  if st.eligible g isRoot op then
    { pos := st.pos + 1
      slots := st.slots.modify op.out fun s => { s with len := 0 }
      lastUse := Function.update st.lastUse vec (max (st.lastUse vec) (st.lastUse op.out))
      rename := Function.update st.rename op.out (some vec)
      valueReader := st.valueReader
      outputSafe := st.outputSafe
      rewritten := st.rewritten + 1 }
  else
    { st with
      pos := st.pos + 1
      valueReader :=
        if op.opcode.inplaceForm.isSome ∨
            (op.opcode.backwardIgnoresValues && st.validExisting g op) = true then st.valueReader
        else fun s => st.valueReader s || decide (s ∈ renamed.ins)
      outputSafe := st.markOutputs g op }

/-- The scan as a rewriter. -/
def rewriter (g : Graph U) (isRoot : ℕ → Bool) : Rewriter InplaceScan (Op U) (Op U) where
  emit st op := some (st.rewrite g isRoot op)
  next st op := st.step g isRoot op

/-- The state the scan starts in. -/
def start (g : Graph U) : InplaceScan where
  pos := 0
  slots := g.slots
  lastUse := lastUses g.ops
  rename _ := none
  valueReader _ := false
  outputSafe _ := false
  rewritten := 0

end InplaceScan

/-- `make_inplace_updates`: the rewritten graph and the number of stores rewritten. -/
def makeInplaceUpdates (g : Graph U) (roots : List ℕ) : Graph U × ℕ :=
  let T := InplaceScan.rewriter g (g.isRoot roots)
  let final := T.final (InplaceScan.start g) g.ops
  ({ g with slots := final.slots, ops := T.run (InplaceScan.start g) g.ops }, final.rewritten)

/-! ## Producers -/

/-- Op `j` writes slot `s` and is not an in-place store. -/
def Producer (ops : List (Op U)) (s j : ℕ) : Prop :=
  ∃ op, ops[j]? = some op ∧ op.opcode.isInplaceStore = false ∧ s ∈ op.outs

/-- Ops in evaluation order, with stores and loads that meet their contracts, and no cached
primals. -/
structure StoreGraph (g : Graph U) : Prop where
  order : EvalOrder g.ops
  stores : ∀ op ∈ g.ops, op.opcode.isStore = true → g.validStoreContract op = true
  loads : ∀ op ∈ g.ops, op.opcode = .index → op.ins = [op.input 0] ∧ op.out2 = none ∧
    g.len op.out = 1 ∧ 0 ≤ op.imm 0 ∧ op.imm 0 < g.len (op.input 0)
  noPrimal : ∀ op ∈ g.ops, op.primalSource = none

/-- The graphs the pass is for: every slot has at most one producer. -/
structure ProducerGraph (g : Graph U) : Prop extends StoreGraph g where
  producers : g.ops.Pairwise fun o o' => o.opcode.isInplaceStore = false →
    o'.opcode.isInplaceStore = false → ∀ s ∈ o.outs, s ∉ o'.outs
  out2_len : ∀ op ∈ g.ops, ∀ o ∈ op.out2, 0 < g.len o

/-- Every producer of `s` comes before op `n`. -/
def DefinedAt (ops : List (Op U)) (n s : ℕ) : Prop := ∀ j, Producer ops s j → j < n

section Producers

variable {g : Graph U} {n s j k : ℕ} {op : Op U}

lemma Producer.writes {ops : List (Op U)} (h : Producer ops s j) : Writes ops s j := by
  obtain ⟨op, hop, -, hs⟩ := h
  exact ⟨op, hop, hs⟩

lemma ProducerGraph.unique (hg : ProducerGraph g) (hj : Producer g.ops s j)
    (hk : Producer g.ops s k) : j = k := by
  have hlt : ∀ {j k : ℕ}, j < k → Producer g.ops s j → Producer g.ops s k → False := by
    rintro j k hjk ⟨o, ho, hi, hs⟩ ⟨o', ho', hi', hs'⟩
    obtain ⟨h1, rfl⟩ := List.getElem?_eq_some_iff.1 ho
    obtain ⟨h2, rfl⟩ := List.getElem?_eq_some_iff.1 ho'
    exact List.pairwise_iff_getElem.1 hg.producers j k h1 h2 hjk hi hi' s hs hs'
  rcases Nat.lt_trichotomy j k with h | h | h
  · exact (hlt h hj hk).elim
  · exact h
  · exact (hlt h hk hj).elim

lemma StoreGraph.contract (hg : StoreGraph g) (hop : g.ops[n]? = some op)
    (hst : op.opcode.isStore = true) : op.StoreContract g.len :=
  Graph.storeContract_of_valid (hg.stores op (List.mem_of_getElem? hop) hst)

/-- A written slot that op `n` reads has its producer before `n`. -/
lemma StoreGraph.producer_lt (hg : StoreGraph g) (hop : g.ops[n]? = some op)
    (hs : s ∈ op.ins) (hw : Writes g.ops s j) : ∃ i < n, Producer g.ops s i := by
  obtain ⟨i, hi, hwi⟩ := hg.order.writes_lt hop hs hw
  clear hw
  -- the first writer is not an in-place store, since that one would read the slot
  induction i using Nat.strong_induction_on with
  | _ i ih =>
    obtain ⟨o, ho, hso⟩ := hwi
    by_cases hip : o.opcode.isInplaceStore = true
    · have hc := hg.contract ho (Opcode.isStore_of_isInplaceStore hip)
      have hsin : s ∈ o.ins := by
        have : s = o.out := by simpa [hc.out2_eq] using hso
        rw [hc.ins_eq, this, (hc.inplace hip).1]
        simp
      obtain ⟨i', hi', hw'⟩ := hg.order.writes_lt ho hsin ⟨o, ho, hso⟩
      exact ih i' hi' (by omega) hw'
    · exact ⟨i, hi, o, ho, by simpa using hip, hso⟩

lemma ProducerGraph.definedAt_of_read (hg : ProducerGraph g) (hop : g.ops[n]? = some op)
    (hs : s ∈ op.ins) : DefinedAt g.ops n s := by
  intro j hj
  obtain ⟨i, hi, hp⟩ := hg.producer_lt hop hs hj.writes
  rw [hg.unique hj hp]
  exact hi

lemma ProducerGraph.definedAt_of_producer (hg : ProducerGraph g) (hj : Producer g.ops s j)
    (h : j < n) : DefinedAt g.ops n s := by
  intro k hk
  rw [hg.unique hk hj]
  exact h

lemma DefinedAt.mono {ops : List (Op U)} {m : ℕ} (h : DefinedAt ops n s) (hnm : n ≤ m) :
    DefinedAt ops m s := fun j hj => Nat.lt_of_lt_of_le (h j hj) hnm

/-- A slot op `n` does not produce is defined before it if it is after it. -/
lemma DefinedAt.of_succ {ops : List (Op U)} (h : DefinedAt ops (n + 1) s)
    (hn : ¬ Producer ops s n) : DefinedAt ops n s := by
  intro j hj
  rcases Nat.lt_succ_iff_lt_or_eq.1 (h j hj) with h | rfl
  · exact h
  · exact absurd hj hn

/-- A written slot has a producer. -/
lemma StoreGraph.exists_producer (hg : StoreGraph g) (hw : Writes g.ops s j) :
    ∃ i, Producer g.ops s i := by
  obtain ⟨o, ho, hso⟩ := hw
  by_cases hip : o.opcode.isInplaceStore = true
  · have hc := hg.contract ho (Opcode.isStore_of_isInplaceStore hip)
    have hsin : s ∈ o.ins := by
      have : s = o.out := by simpa [hc.out2_eq] using hso
      rw [hc.ins_eq, this, (hc.inplace hip).1]
      simp
    obtain ⟨i, -, hp⟩ := hg.producer_lt ho hsin ⟨o, ho, hso⟩
    exact ⟨i, hp⟩
  · exact ⟨j, o, ho, by simpa using hip, hso⟩

end Producers

/-! ## The invariant of the scan -/

/-- The scan together with the stale slots: those whose buffer a rewritten store has taken over. -/
def InplaceScan.ghost (g : Graph U) (isRoot : ℕ → Bool) :
    Rewriter (InplaceScan × (ℕ → Bool)) (Op U) (Op U) where
  emit p op := some (p.1.rewrite g isRoot op)
  next p op := (p.1.step g isRoot op,
    if p.1.eligible g isRoot op then Function.update p.2 (op.input 0) true else p.2)

/-- The state of the scan before op `n`, with the stale slots `z`. -/
structure InplaceInv (g : Graph U) (isRoot : ℕ → Bool) (n : ℕ) (st : InplaceScan)
    (z : ℕ → Bool) : Prop where
  pos : st.pos = n
  slots_length : st.slots.length = g.slots.length
  slots : ∀ s : ℕ, st.rename s = none → st.slots[s]? = g.slots[s]?
  slots_isParam : ∀ s : ℕ, (st.slots[s]?).map Slot.isParam = (g.slots[s]?).map Slot.isParam
  renamed : ∀ s v, st.rename s = some v → st.rename v = none ∧ z v = true ∧ g.len v = g.len s ∧
    isRoot s = false ∧ isRoot v = false ∧ g.isParam s = false ∧ (∃ j < n, Producer g.ops s j) ∧
    ∃ j < n, Producer g.ops v j
  inj : ∀ s s', z s = false → z s' = false → st.resolve s = st.resolve s' → s = s'
  stale : ∀ s, z s = true → isRoot s = false ∧ g.isParam s = false ∧
    (∃ j < n, Producer g.ops s j) ∧
    ∀ k op, n ≤ k → g.ops[k]? = some op → s ∉ op.ins ∧ s ∉ op.outs
  lastUse : ∀ s, z s = false → ∀ k op, n ≤ k → g.ops[k]? = some op → s ∈ op.ins →
    (k : ℤ) ≤ st.lastUse (st.resolve s)
  safe : ∀ s, st.outputSafe s = true → ∃ j < n, Producer g.ops s j

section Inv

variable {g : Graph U} {isRoot : ℕ → Bool} {n : ℕ} {st : InplaceScan} {z : ℕ → Bool} {op : Op U}

namespace InplaceInv

lemma start : InplaceInv g isRoot 0 (InplaceScan.start g) fun _ => false where
  pos := rfl
  slots_length := rfl
  slots _ _ := rfl
  slots_isParam _ := rfl
  renamed _ _ h := by simp [InplaceScan.start] at h
  inj _ _ _ _ h := h
  stale _ h := by simp at h
  lastUse s _ k op _ hop hs :=
    @le_lastPositions (Op U) (fun op s => decide (s ∈ op.ins)) g.ops k s op hop (decide_eq_true hs)
  safe _ h := by simp [InplaceScan.start] at h

lemma resolve_of_none {s : ℕ} (h : st.rename s = none) : st.resolve s = s := by
  simp [InplaceScan.resolve, h]

lemma resolve_of_some {s v : ℕ} (h : st.rename s = some v) : st.resolve s = v := by
  simp [InplaceScan.resolve, h]

/-- A slot that op `n` produces has no other name yet, and is not stale. -/
lemma rename_of_producer (h : InplaceInv g isRoot n st z) (hg : ProducerGraph g) {s : ℕ}
    (hs : Producer g.ops s n) : st.rename s = none ∧ z s = false := by
  constructor
  · by_contra hne
    obtain ⟨v, hv⟩ := Option.ne_none_iff_exists'.1 hne
    obtain ⟨-, -, -, -, -, -, ⟨j, hj, hp⟩, -⟩ := h.renamed s v hv
    have := hg.unique hp hs
    omega
  · by_contra hz
    rw [Bool.not_eq_false] at hz
    obtain ⟨-, -, ⟨j, hj, hp⟩, -⟩ := h.stale s hz
    have := hg.unique hp hs
    omega

/-- What op `n` reads is defined and not stale. -/
lemma read (h : InplaceInv g isRoot n st z) (hg : ProducerGraph g) (hop : g.ops[n]? = some op)
    {s : ℕ} (hs : s ∈ op.ins) : DefinedAt g.ops n s ∧ z s = false := by
  refine ⟨hg.definedAt_of_read hop hs, ?_⟩
  by_contra hz
  rw [Bool.not_eq_false] at hz
  exact ((h.stale s hz).2.2.2 n op (le_refl n) hop).1 hs

/-- A slot stands for a slot that is defined as well. -/
lemma definedAt_resolve (h : InplaceInv g isRoot n st z) (hg : ProducerGraph g) {s : ℕ}
    (hs : DefinedAt g.ops n s) :
    DefinedAt g.ops n (st.resolve s) ∧ st.rename (st.resolve s) = none ∧
      g.len (st.resolve s) = g.len s := by
  cases hr : st.rename s with
  | none =>
    rw [resolve_of_none hr]
    exact ⟨hs, hr, rfl⟩
  | some v =>
    obtain ⟨hv, -, hlen, -, -, -, -, j, hj, hp⟩ := h.renamed s v hr
    rw [resolve_of_some hr]
    exact ⟨hg.definedAt_of_producer hp hj, hv, hlen⟩

/-- What the rewriting of a store is decided on. -/
lemma eligible_facts (he : st.eligible g isRoot op = true) :
    op.opcode.isCopyingStore = true ∧ st.renameOp op = op.mapIns st.resolve ∧
      (op.mapIns st.resolve).input 1 ≠ (op.mapIns st.resolve).input 0 ∧
      st.outputSafe ((op.mapIns st.resolve).input 0) = true ∧
      ((st.slots[(op.mapIns st.resolve).input 0]?).map Slot.isParam).getD false = false ∧
      isRoot ((op.mapIns st.resolve).input 0) = false ∧ isRoot op.out = false ∧
      st.lastUse ((op.mapIns st.resolve).input 0) = st.pos ∧
      st.valueReader ((op.mapIns st.resolve).input 0) = false := by
  have hform : op.opcode.inplaceForm.isSome = true := by
    simp only [InplaceScan.eligible, Bool.and_eq_true] at he
    exact he.1.1.1.1.1.1.1.1
  have hcp : op.opcode.isCopyingStore = true := by
    revert hform
    cases op.opcode <;> decide
  have hren : st.renameOp op = op.mapIns st.resolve := by
    have : InplaceScan.aliased op = false := by
      simp [InplaceScan.aliased, Opcode.isInplaceStore_eq_false_of_isCopyingStore hcp]
    simp [InplaceScan.renameOp, this]
  simp only [InplaceScan.eligible, hren, Bool.and_eq_true, Bool.not_eq_true',
    decide_eq_true_eq] at he
  obtain ⟨⟨⟨⟨⟨⟨⟨⟨-, -⟩, hne⟩, hsafe⟩, hpar⟩, hrv⟩, hro⟩, hlu⟩, hvr⟩ := he
  exact ⟨hcp, hren, hne, hsafe, hpar, hrv, hro, hlu, hvr⟩

/-- The state after a store that is rewritten. -/
lemma step_eligible (he : st.eligible g isRoot op = true) :
    st.step g isRoot op =
      { pos := st.pos + 1
        slots := st.slots.modify op.out fun s => { s with len := 0 }
        lastUse := Function.update st.lastUse ((op.mapIns st.resolve).input 0)
          (max (st.lastUse ((op.mapIns st.resolve).input 0)) (st.lastUse op.out))
        rename := Function.update st.rename op.out (some ((op.mapIns st.resolve).input 0))
        valueReader := st.valueReader
        outputSafe := st.outputSafe
        rewritten := st.rewritten + 1 } := by
  simp only [InplaceScan.step, if_pos he, (eligible_facts he).2.1]

/-- The state after any other op. -/
lemma step_not_eligible (he : st.eligible g isRoot op = false) :
    st.step g isRoot op =
      { st with
        pos := st.pos + 1
        valueReader :=
          if op.opcode.inplaceForm.isSome ∨
              (op.opcode.backwardIgnoresValues && st.validExisting g op) = true then st.valueReader
          else fun s => st.valueReader s || decide (s ∈ (st.renameOp op).ins)
        outputSafe := st.markOutputs g op } := by
  rw [InplaceScan.step, if_neg (by simp [he])]

/-- The base of a rewritten store is not read again, and was written before. -/
lemma base_facts (h : InplaceInv g isRoot n st z) (hg : ProducerGraph g)
    (hop : g.ops[n]? = some op) (he : st.eligible g isRoot op = true) :
    (op.mapIns st.resolve).input 0 = st.resolve (op.input 0) ∧
      (op.mapIns st.resolve).input 1 = st.resolve (op.input 1) ∧
      op.input 0 ∈ op.ins ∧ op.input 1 ∈ op.ins ∧ Producer g.ops op.out n ∧
      (∀ k o, n + 1 ≤ k → g.ops[k]? = some o → op.input 0 ∉ o.ins) ∧
      ∃ j < n, Producer g.ops (st.resolve (op.input 0)) j := by
  obtain ⟨hcp, -, -, hsafe, -, -, -, hlu, -⟩ := eligible_facts he
  have hc := hg.contract hop (by simp [Opcode.isStore, hcp])
  have hin0 : (op.mapIns st.resolve).input 0 = st.resolve (op.input 0) :=
    Op.mapIns_input (by simp [hc.ins_eq])
  have hin1 : (op.mapIns st.resolve).input 1 = st.resolve (op.input 1) :=
    Op.mapIns_input (by simp [hc.ins_eq])
  have hm0 : op.input 0 ∈ op.ins := by rw [hc.ins_eq]; simp
  have hm1 : op.input 1 ∈ op.ins := by rw [hc.ins_eq]; simp
  rw [hin0] at hsafe hlu
  refine ⟨hin0, hin1, hm0, hm1,
    ⟨op, hop, Opcode.isInplaceStore_eq_false_of_isCopyingStore hcp, by simp⟩, ?_, h.safe _ hsafe⟩
  intro k o hk ho hmem
  have := h.lastUse _ (h.read hg hop hm0).2 k o (by omega) ho hmem
  rw [hlu, h.pos] at this
  omega

/-- The invariant after a store that is rewritten. -/
lemma eligible_step (h : InplaceInv g isRoot n st z) (hg : ProducerGraph g)
    (hop : g.ops[n]? = some op) (he : st.eligible g isRoot op = true) :
    InplaceInv g isRoot (n + 1) (st.step g isRoot op) (Function.update z (op.input 0) true) := by
  obtain ⟨hin0, hin1, hm0, hm1, hprod, hunread, jv, hjv, hpv⟩ := h.base_facts hg hop he
  obtain ⟨hcp, -, -, hsafe, hpar, hrv, hro, hlu, -⟩ := eligible_facts he
  have hc := hg.contract hop (by simp [Opcode.isStore, hcp])
  have hnip := Opcode.isInplaceStore_eq_false_of_isCopyingStore hcp
  obtain ⟨hd0, hz0⟩ := h.read hg hop hm0
  obtain ⟨hdv, hnv, hlenv⟩ := h.definedAt_resolve hg hd0
  obtain ⟨hno, hzo⟩ := h.rename_of_producer hg hprod
  have hne0 : op.out ≠ op.input 0 := (hc.copying hnip).1
  have hlen : g.len op.out = g.len (op.input 0) := (hc.copying hnip).2.2
  have hvo : st.resolve (op.input 0) ≠ op.out := by
    intro heq
    have := hdv n (heq ▸ hprod)
    omega
  -- the base is produced before the store: it is its own producer's slot or a renamed one
  have hp0 : ∃ j < n, Producer g.ops (op.input 0) j := by
    cases hr : st.rename (op.input 0) with
    | none =>
      rw [resolve_of_none hr] at hpv
      exact ⟨jv, hjv, hpv⟩
    | some v =>
      obtain ⟨-, -, -, -, -, -, hj, -⟩ := h.renamed _ v hr
      exact hj
  have hroot0 : isRoot (op.input 0) = false := by
    cases hr : st.rename (op.input 0) with
    | none =>
      rw [hin0, resolve_of_none hr] at hrv
      exact hrv
    | some v => exact (h.renamed _ v hr).2.2.2.1
  have hpar0 : g.isParam (op.input 0) = false := by
    cases hr : st.rename (op.input 0) with
    | none =>
      rw [hin0, resolve_of_none hr] at hpar
      unfold Graph.isParam
      rw [← h.slots_isParam]
      exact hpar
    | some v => exact (h.renamed _ v hr).2.2.2.2.2.1
  have hstale : Function.update z (op.input 0) true (st.resolve (op.input 0)) = true := by
    cases hr : st.rename (op.input 0) with
    | none => rw [resolve_of_none hr, Function.update_self]
    | some v =>
      rw [resolve_of_some hr]
      by_cases hv : v = op.input 0
      · rw [hv, Function.update_self]
      · rw [Function.update_of_ne hv]
        exact (h.renamed _ v hr).2.1
  have hz' : ∀ s, Function.update z (op.input 0) true s = false → s ≠ op.input 0 ∧ z s = false := by
    intro s hs
    have hne : s ≠ op.input 0 := by
      rintro rfl
      simp at hs
    rw [Function.update_of_ne hne] at hs
    exact ⟨hne, hs⟩
  rw [step_eligible he, hin0]
  have hself : ∀ {u l r m vr os w}, InplaceScan.resolve ⟨u, l, m, Function.update st.rename op.out
      (some (st.resolve (op.input 0))), vr, os, w⟩ r = if r = op.out then st.resolve (op.input 0)
        else st.resolve r := by
    intro u l r m vr os w
    unfold InplaceScan.resolve
    by_cases hr : r = op.out
    · simp [hr]
    · simp [hr]
  refine ⟨by simp [h.pos], by simp [h.slots_length], fun s hs => ?_, fun s => ?_,
    fun s v hs => ?_, fun s s' hs hs' heq => ?_, fun s hs => ?_, fun s hs k o hk ho hmem => ?_,
    fun s hs => ?_⟩
  · have hso : s ≠ op.out := by
      rintro rfl
      simp at hs
    simp only [Function.update_of_ne hso] at hs
    rw [List.getElem?_modify]
    simp [Ne.symm hso, h.slots s hs]
  · rw [List.getElem?_modify, ← h.slots_isParam s]
    cases st.slots[s]? with
    | none => rfl
    | some o => by_cases hso : op.out = s <;> simp [hso]
  · by_cases hso : s = op.out
    · subst hso
      simp only [Function.update_self, Option.some.injEq] at hs
      subst hs
      exact ⟨(Function.update_of_ne hvo _ _).trans hnv, hstale, by rw [hlenv, hlen], hro,
        hin0 ▸ hrv, Graph.isParam_out_of_valid
          (hg.stores op (List.mem_of_getElem? hop) (by simp [Opcode.isStore, hcp])),
        ⟨n, by omega, hprod⟩, jv, by omega, hpv⟩
    · simp only [Function.update_of_ne hso] at hs
      obtain ⟨h1, h2, h3, h4, h5, h6, ⟨j, hj, hp⟩, j', hj', hp'⟩ := h.renamed s v hs
      have hvout : v ≠ op.out := by
        rintro rfl
        have := hg.unique hp' hprod
        omega
      refine ⟨(Function.update_of_ne hvout _ _).trans h1, ?_, h3, h4, h5, h6,
        ⟨j, by omega, hp⟩, j', by omega, hp'⟩
      by_cases hv0 : v = op.input 0
      · rw [hv0, Function.update_self]
      · rw [Function.update_of_ne hv0]
        exact h2
  · obtain ⟨hs0, hzs⟩ := hz' s hs
    obtain ⟨hs0', hzs'⟩ := hz' s' hs'
    rw [hself, hself] at heq
    by_cases hso : s = op.out
    · by_cases hso' : s' = op.out
      · rw [hso, hso']
      · rw [if_pos hso, if_neg hso'] at heq
        exact absurd (h.inj _ _ hz0 hzs' heq).symm hs0'
    · by_cases hso' : s' = op.out
      · rw [if_neg hso, if_pos hso'] at heq
        exact absurd (h.inj _ _ hzs hz0 heq) hs0
      · rw [if_neg hso, if_neg hso'] at heq
        exact h.inj _ _ hzs hzs' heq
  · by_cases hs0 : s = op.input 0
    · subst hs0
      obtain ⟨j, hj, hp⟩ := hp0
      refine ⟨hroot0, hpar0, ⟨j, by omega, hp⟩, fun k o hk ho => ⟨hunread k o hk ho, fun hso => ?_⟩⟩
      by_cases hip : o.opcode.isInplaceStore = true
      · have hc' := hg.contract ho (Opcode.isStore_of_isInplaceStore hip)
        refine hunread k o hk ho ?_
        have : op.input 0 = o.out := by simpa [hc'.out2_eq] using hso
        rw [this, (hc'.inplace hip).1, hc'.ins_eq]
        simp [Op.input]
      · have := hg.unique hp ⟨o, ho, by simpa using hip, hso⟩
        omega
    · rw [Function.update_of_ne hs0] at hs
      obtain ⟨h1, h2, ⟨j, hj, hp⟩, h4⟩ := h.stale s hs
      exact ⟨h1, h2, ⟨j, by omega, hp⟩, fun k o hk => h4 k o (by omega)⟩
  · obtain ⟨hs0, hzs⟩ := hz' s hs
    rw [hself]
    by_cases hso : s = op.out
    · rw [if_pos hso]
      simp only [Function.update_self]
      have := h.lastUse s hzs k o (by omega) ho hmem
      rw [hso, resolve_of_none hno] at this
      exact le_trans this (le_max_right _ _)
    · rw [if_neg hso]
      have hne : st.resolve s ≠ st.resolve (op.input 0) := fun heq =>
        hs0 (h.inj _ _ hzs hz0 heq)
      simp only [Function.update_of_ne hne]
      exact h.lastUse s hzs k o (by omega) ho hmem
  · obtain ⟨j, hj, hp⟩ := h.safe s hs
    exact ⟨j, by omega, hp⟩

/-- Only the producer of a slot makes its output safe to destroy. -/
lemma markOutputs_true (hg : StoreGraph g) (hop : g.ops[n]? = some op) {s : ℕ}
    (hs : st.markOutputs g op s = true) : st.outputSafe s = true ∨ Producer g.ops s n := by
  have hnew : (if (st.renameOp op).out ∈ (st.renameOp op).ins then
      if (op.opcode.isInplaceStore && st.validExisting g op) = true then st.outputSafe
      else Function.update st.outputSafe (st.renameOp op).out false
    else Function.update st.outputSafe (st.renameOp op).out
      (st.validExisting g op && op.opcode.backwardIgnoresValues)) s = true →
      st.outputSafe s = true ∨ Producer g.ops s n := by
    intro hs
    by_cases hmem : (st.renameOp op).out ∈ (st.renameOp op).ins
    · rw [if_pos hmem] at hs
      by_cases hv : (op.opcode.isInplaceStore && st.validExisting g op) = true
      · rw [if_pos hv] at hs
        exact .inl hs
      · rw [if_neg hv] at hs
        by_cases hso : s = (st.renameOp op).out
        · simp [hso] at hs
        · rw [Function.update_of_ne hso] at hs
          exact .inl hs
    · rw [if_neg hmem] at hs
      by_cases hso : s = (st.renameOp op).out
      · -- an in-place store reads its output, so this op produces it
        have hip : op.opcode.isInplaceStore = false := by
          by_contra hip
          rw [Bool.not_eq_false] at hip
          have hc := hg.contract hop (Opcode.isStore_of_isInplaceStore hip)
          refine hmem ?_
          have hal : InplaceScan.aliased op = true := by
            simp [InplaceScan.aliased, hip, (hc.inplace hip).1, hc.ins_eq]
          simp only [InplaceScan.renameOp, hal, if_true]
          exact Op.input_mem (by simp [hc.ins_eq])
        have hal : InplaceScan.aliased op = false := by simp [InplaceScan.aliased, hip]
        have hout : (st.renameOp op).out = op.out := by simp [InplaceScan.renameOp, hal]
        exact .inr ⟨op, hop, hip, by simp [hso, hout]⟩
      · rw [Function.update_of_ne hso] at hs
        exact .inl hs
  unfold InplaceScan.markOutputs at hs
  cases h2 : op.out2 with
  | none =>
    rw [h2] at hs
    exact hnew hs
  | some t =>
    rw [h2] at hs
    by_cases hst : s = t
    · simp [hst] at hs
    · simp only [Function.update_of_ne hst] at hs
      exact hnew hs

/-- The invariant after any other op. -/
lemma other_step (h : InplaceInv g isRoot n st z) (hg : ProducerGraph g)
    (hop : g.ops[n]? = some op) (he : st.eligible g isRoot op = false) :
    InplaceInv g isRoot (n + 1) (st.step g isRoot op) z := by
  rw [step_not_eligible he]
  refine ⟨by simp [h.pos], h.slots_length, h.slots, h.slots_isParam, fun s v hs => ?_, h.inj,
    fun s hs => ?_, fun s hs k o hk => h.lastUse s hs k o (by omega), fun s hs => ?_⟩
  · obtain ⟨h1, h2, h3, h4, h5, h6, ⟨j, hj, hp⟩, j', hj', hp'⟩ := h.renamed s v hs
    exact ⟨h1, h2, h3, h4, h5, h6, ⟨j, by omega, hp⟩, j', by omega, hp'⟩
  · obtain ⟨h1, h2, ⟨j, hj, hp⟩, h4⟩ := h.stale s hs
    exact ⟨h1, h2, ⟨j, by omega, hp⟩, fun k o hk => h4 k o (by omega)⟩
  · rcases markOutputs_true hg.toStoreGraph hop hs with hs | hp
    · obtain ⟨j, hj, hp⟩ := h.safe s hs
      exact ⟨j, by omega, hp⟩
    · exact ⟨n, by omega, hp⟩

/-- The invariant after an op. -/
lemma step (h : InplaceInv g isRoot n st z) (hg : ProducerGraph g) (hop : g.ops[n]? = some op) :
    InplaceInv g isRoot (n + 1) ((InplaceScan.ghost g isRoot).next (st, z) op).1
      ((InplaceScan.ghost g isRoot).next (st, z) op).2 := by
  by_cases he : st.eligible g isRoot op = true
  · simp only [InplaceScan.ghost, he, if_true]
    exact h.eligible_step hg hop he
  · simp only [InplaceScan.ghost, he]
    exact h.other_step hg hop (by simpa using he)

/-- A slot that later ops do not produce keeps having no other name. -/
lemma rename_final (h : InplaceInv g isRoot n st z) (hg : ProducerGraph g) {rest : List (Op U)}
    (hrest : g.ops.drop n = rest) {s : ℕ} (hs : DefinedAt g.ops n s) (hn : st.rename s = none) :
    ((InplaceScan.ghost g isRoot).final (st, z) rest).1.rename s = none := by
  induction rest generalizing n st z with
  | nil => exact hn
  | cons op rest ih =>
    obtain ⟨hop, hrest'⟩ := drop_succ_eq hrest
    refine ih (h.step hg hop) hrest' (hs.mono (by omega)) ?_
    by_cases he : st.eligible g isRoot op = true
    · have hso : s ≠ op.out := by
        rintro rfl
        have := hs n (h.base_facts hg hop he).2.2.2.2.1
        omega
      simp only [step_eligible he, Function.update_of_ne hso]
      exact hn
    · simp only [step_not_eligible (by simpa using he)]
      exact hn

/-- Once a slot's values are needed in reverse, its buffer is not taken over. -/
lemma protected_final (h : InplaceInv g isRoot n st z) (hg : ProducerGraph g)
    {rest : List (Op U)} (hrest : g.ops.drop n = rest) {s : ℕ} (hs : DefinedAt g.ops n s)
    (hz : z s = false)
    (hp : st.valueReader (st.resolve s) = true ∨ st.outputSafe (st.resolve s) = false) :
    ((InplaceScan.ghost g isRoot).final (st, z) rest).2 s = false ∧
      ((InplaceScan.ghost g isRoot).final (st, z) rest).1.resolve s = st.resolve s := by
  induction rest generalizing n st z with
  | nil => exact ⟨hz, rfl⟩
  | cons op rest ih =>
    obtain ⟨hop, hrest'⟩ := drop_succ_eq hrest
    have hstep := h.step hg hop
    have hnext : ((InplaceScan.ghost g isRoot).next (st, z) op).2 s = false ∧
        ((InplaceScan.ghost g isRoot).next (st, z) op).1.resolve s = st.resolve s ∧
        (((InplaceScan.ghost g isRoot).next (st, z) op).1.valueReader (st.resolve s) = true ∨
          ((InplaceScan.ghost g isRoot).next (st, z) op).1.outputSafe (st.resolve s) = false) := by
      by_cases he : st.eligible g isRoot op = true
      · obtain ⟨hin0, -, hm0, -, hprod, -⟩ := h.base_facts hg hop he
        obtain ⟨-, -, -, hsafe, -, -, -, -, hvr⟩ := eligible_facts he
        rw [hin0] at hsafe hvr
        have hne : s ≠ op.input 0 := by
          rintro rfl
          rcases hp with hp | hp
          · rw [hvr] at hp
            cases hp
          · rw [hsafe] at hp
            cases hp
        have hso : s ≠ op.out := by
          rintro rfl
          have := hs n hprod
          omega
        simp only [InplaceScan.ghost, he, if_true, Function.update_of_ne hne]
        rw [step_eligible he]
        refine ⟨hz, ?_, hp⟩
        simp only [InplaceScan.resolve, Function.update_of_ne hso]
      · have he' : st.eligible g isRoot op = false := by simpa using he
        simp only [InplaceScan.ghost, he', Bool.false_eq_true, if_false]
        rw [step_not_eligible he']
        refine ⟨hz, rfl, ?_⟩
        rcases hp with hp | hp
        · refine .inl ?_
          by_cases hc : op.opcode.inplaceForm.isSome = true ∨
              (op.opcode.backwardIgnoresValues && st.validExisting g op) = true
          · simp only [hc, if_true]
            exact hp
          · simp only [hc, if_false, hp, Bool.true_or]
        · refine .inr ?_
          by_contra hsafe
          rw [Bool.not_eq_false] at hsafe
          rcases markOutputs_true hg.toStoreGraph hop hsafe with hsafe | hprod
          · rw [hp] at hsafe
            cases hsafe
          · have := (h.definedAt_resolve hg hs).1 n hprod
            omega
    obtain ⟨h1, h2, h3⟩ := hnext
    rw [← h2] at h3
    obtain ⟨h4, h5⟩ := ih hstep hrest' (hs.mono (by omega)) h1 h3
    exact ⟨h4, h5.trans h2⟩

end InplaceInv

end Inv

end Stanli
