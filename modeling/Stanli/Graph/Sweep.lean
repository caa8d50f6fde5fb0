import Mathlib.Algebra.Group.Basic
import Stanli.Graph.Basic

/-!
# The forward and the reverse sweep

`forwardOp` and `backwardOp` are one entry of the executor's two dispatch loops, with the kernels of
the store family and `OP_INDEX` written out (`elementwise.cpp`) and every other kernel taken from
`Kernels`.  `Graph.forward` is `Executor::run_forward_only`, `Graph.reverse` is `Executor::reverse`.
-/

namespace Stanli

variable {U V S W : Type*}

/-! ## Reading and writing buffers -/

/-- The cells of a slot's value buffer that a kernel may read. -/
def Binding.read (b : Binding) (m : Arena V) (s : ℕ) : List V :=
  (List.range (b.len s)).map (m (b.home s))

/-- `for k < n: buf[start + k * stride] = rhs[k]`. -/
def writeComb (start stride n : ℕ) (rhs buf : ℕ → V) : ℕ → V :=
  (List.range n).foldl (fun buf k => Function.update buf (start + k * stride) (rhs k)) buf

/-- The store an opcode performs: where it starts, its stride, and how many elements it writes
(`none` for the length of the right-hand side). -/
def Op.comb (op : Op U) (rhsLen : ℕ) : ℕ × ℕ × ℕ :=
  if op.opcode = .setIndex ∨ op.opcode = .setIndexInplace then ((op.imm 0).toNat, 1, 1)
  else if op.opcode = .setSlice ∨ op.opcode = .setSliceInplace then ((op.imm 0).toNat, 1, rhsLen)
  else ((op.imm 0).toNat, (op.imm 1).toNat, rhsLen)

@[simp] lemma Op.mapIns_comb (f : ℕ → ℕ) (op : Op U) (n : ℕ) :
    (op.mapIns f).comb n = op.comb n := rfl

/-- The stores that copy their base into the output first. -/
def Opcode.isCopyingStore (oc : Opcode) : Bool :=
  decide (oc ∈ [Opcode.setIndex, .setSlice, .setSliceStrided])

/-- `is_inplace_store`: the stores whose output is their base. -/
def Opcode.isInplaceStore (oc : Opcode) : Bool :=
  decide (oc ∈ [Opcode.setIndexInplace, .setSliceInplace, .setSliceStridedInplace])

/-- What an op leaves in its output buffer when its kernel only moves values: the element read and
the six stores.  The copying stores start from the base, the others from the output itself. -/
def Op.routed (op : Op U) (b : Binding) (m : Arena V) : Option (ℕ → V) :=
  let in0 := m (b.home (op.input 0))
  let in1 := m (b.home (op.input 1))
  let old := m (b.home op.out)
  let comb := op.comb (b.len (op.input 1))
  if op.opcode = .index then some (Function.update old 0 (in0 (op.imm 0).toNat))
  else if op.opcode.isCopyingStore then some (writeComb comb.1 comb.2.1 comb.2.2 in1 in0)
  else if op.opcode.isInplaceStore then some (writeComb comb.1 comb.2.1 comb.2.2 in1 old)
  else none

/-! ## Forward -/

/-- The state of a forward sweep: the value arena, the effects' state, and the scratch of the ops
that cached primals name (`primal_sources` once the offsets are assigned), where they have run; a
kernel that only moves values has none. -/
structure SweepState (V S W : Type*) where
  mem : Arena V
  world : W
  shared : ℕ → Option (Option S)

/-- What a forward step leaves for the reverse sweep and for comparing runs: what the kernel read of
its inputs, and its scratch. -/
structure LogEntry (V S : Type*) where
  inputs : List (List V)
  scratch : Option S

/-- The cells of an output that a store's comb covers. -/
def inComb (comb : ℕ × ℕ × ℕ) (i : ℕ) : Bool :=
  (List.range comb.2.2).any fun k => comb.1 + k * comb.2.1 == i

/-- What the kernel of an op reads of its inputs: every cell, except that the base of an in-place
store is the buffer it writes, of which it keeps the cells its comb does not cover. -/
def Op.shown (op : Op U) (b : Binding) (m : Arena V) : List (List V) :=
  if op.opcode.isInplaceStore then
    let comb := op.comb (b.len (op.input 1))
    (((List.range (b.len (op.input 0))).filter fun i => !inComb comb i).map
        (m (b.home (op.input 0)))) ::
      op.ins.tail.map (b.read m)
  else op.ins.map (b.read m)

/-- Write both outputs of an op. -/
def Op.store (op : Op U) (b : Binding) (out out2 : ℕ → V) (m : Arena V) : Arena V :=
  let m' := Function.update m (b.home op.out) out
  match op.out2 with
  | some o => Function.update m' (b.home o) out2
  | none => m'

/-- Run a kernel that is not written out here. -/
def Kernels.call (K : Kernels U V S W) (b : Binding) (op : Op U) (ins : List (List V)) (w : W) :
    Except String (KernelOut V S × W) :=
  let out2Len := (op.out2.map b.len).getD 0
  if K.hasEffect op.call then K.effect op.call (b.len op.out) out2Len ins w
  else (K.forward op.call (b.len op.out) out2Len ins).map fun r => (r, w)

/-- An op that names itself as primal source hands its scratch to the ops that name it. -/
def Op.share (op : Op U) (scratch : Option S) (shared : ℕ → Option (Option S)) :
    ℕ → Option (Option S) :=
  if op.primalSource = some op.out then Function.update shared op.out (some scratch) else shared

/-- One step of the forward sweep.  A cached op runs no kernel: it owns its source's scratch. -/
def forwardOp (K : Kernels U V S W) (b : Binding) (op : Op U) (st : SweepState V S W) :
    Except String (SweepState V S W × LogEntry V S) :=
  if op.cached then
    match st.shared (op.primalSource.getD op.out) with
    | none => .error "cached primal precedes its source"
    | some s => .ok (st, ⟨op.shown b st.mem, s⟩)
  else
    match op.routed b st.mem with
    | some buf =>
      .ok ({ mem := Function.update st.mem (b.home op.out) buf
             world := st.world
             shared := op.share none st.shared },
        ⟨op.shown b st.mem, none⟩)
    | none =>
      match K.call b op (op.ins.map (b.read st.mem)) st.world with
      | .error e => .error e
      | .ok (r, w) =>
        .ok ({ mem := op.store b r.out r.out2 st.mem
               world := w
               shared := op.share (some r.scratch) st.shared },
          ⟨op.shown b st.mem, some r.scratch⟩)

/-- The opcodes whose kernels are written out: the element read and the six stores. -/
def Opcode.isRouted (oc : Opcode) : Bool :=
  decide (oc = .index) || oc.isCopyingStore || oc.isInplaceStore

lemma Op.routed_eq_none {op : Op U} (h : op.opcode.isRouted = false) (b : Binding) (m : Arena V) :
    op.routed b m = none := by
  simp only [Opcode.isRouted, Bool.or_eq_false_iff, decide_eq_false_iff_not] at h
  simp [Op.routed, h.1.1, h.1.2, h.2]

lemma Op.cached_eq_false {op : Op U} (h : op.primalSource = none) : op.cached = false := by
  simp [Op.cached, h]

@[simp] lemma Op.share_of_noPrimal {op : Op U} (h : op.primalSource = none) (scratch : Option S)
    (shared : ℕ → Option (Option S)) : op.share scratch shared = shared := by
  simp [Op.share, h]

/-- A step of an op whose kernel only moves values. -/
lemma forwardOp_routed {K : Kernels U V S W} {b : Binding} {op : Op U} {st : SweepState V S W}
    {buf : ℕ → V} (hp : op.primalSource = none) (hr : op.routed b st.mem = some buf) :
    forwardOp K b op st =
      .ok ({ st with mem := Function.update st.mem (b.home op.out) buf },
        ⟨op.shown b st.mem, none⟩) := by
  simp [forwardOp, Op.cached_eq_false hp, hr, hp]

/-- A step of any other op calls its kernel. -/
lemma forwardOp_kernel {K : Kernels U V S W} {b : Binding} {op : Op U} {st : SweepState V S W}
    (hp : op.primalSource = none) (hr : op.opcode.isRouted = false) :
    forwardOp K b op st =
      (K.call b op (op.ins.map (b.read st.mem)) st.world).map fun r =>
        ({ mem := op.store b r.1.out r.1.out2 st.mem, world := r.2, shared := st.shared },
          ⟨op.shown b st.mem, some r.1.scratch⟩) := by
  simp only [forwardOp, Op.cached_eq_false hp, Op.routed_eq_none hr, Op.share_of_noPrimal hp]
  cases K.call b op (op.ins.map (b.read st.mem)) st.world <;> rfl

/-- An op that runs its kernel does what it would without a primal source, and shares its scratch. -/
lemma forwardOp_share {K : Kernels U V S W} {b : Binding} {op : Op U} {st : SweepState V S W}
    (hc : op.cached = false) : forwardOp K b op st =
      (forwardOp K b { op with primalSource := none } st).map fun r =>
        ({ r.1 with shared := op.share r.2.scratch r.1.shared }, r.2) := by
  have hcached : Op.cached { op with primalSource := none } = false := Op.cached_eq_false rfl
  have hrouted : Op.routed { op with primalSource := none } b st.mem = op.routed b st.mem := rfl
  have hcall : K.call b { op with primalSource := none } (op.ins.map (b.read st.mem)) st.world =
      K.call b op (op.ins.map (b.read st.mem)) st.world := rfl
  unfold forwardOp
  rw [hc, hcached, hrouted, hcall]
  cases op.routed b st.mem with
  | some buf => rfl
  | none => cases K.call b op (op.ins.map (b.read st.mem)) st.world <;> rfl

/-- Only ops that name a primal source touch the shared scratch. -/
lemma forwardOp_shared {K : Kernels U V S W} {b : Binding} {op : Op U} {st st' : SweepState V S W}
    {o : LogEntry V S} (hp : op.primalSource = none) (h : forwardOp K b op st = .ok (st', o)) :
    st'.shared = st.shared := by
  unfold forwardOp at h
  rw [Op.cached_eq_false hp, if_neg (by simp)] at h
  cases hr : op.routed b st.mem with
  | some buf =>
    rw [hr] at h
    simp only [Op.share_of_noPrimal hp, Except.ok.injEq, Prod.mk.injEq] at h
    rw [← h.1]
  | none =>
    rw [hr] at h
    cases hk : K.call b op (op.ins.map (b.read st.mem)) st.world with
    | error e =>
      rw [hk] at h
      cases h
    | ok r =>
      rw [hk] at h
      simp only [Op.share_of_noPrimal hp, Except.ok.injEq, Prod.mk.injEq] at h
      rw [← h.1]

/-- The forward dispatch loop as a machine. -/
def forwardMachine (K : Kernels U V S W) (b : Binding) :
    Machine (Op U) (SweepState V S W) (LogEntry V S) String where
  step := forwardOp K b

/-- `Executor::run_forward_only`, from a value arena and the state of the effects. -/
def Graph.forward (K : Kernels U V S W) (g : Graph U) (m : Arena V) (w : W) :
    Outcome (SweepState V S W) (LogEntry V S) String :=
  (forwardMachine K g.bind).run g.ops ⟨m, w, fun _ => none⟩

/-! ## Reverse -/

section Reverse

variable [AddCommMonoid V]

/-- Add to the adjoints of the inputs that have one, input by input. -/
def accumulate (b : Binding) (ins : List ℕ) (inc : ℕ → ℕ → V) (adj : Arena V) : Arena V :=
  ins.zipIdx.foldl
    (fun a p => if b.active p.1 then Function.update a p.1 (fun e => a p.1 e + inc p.2 e) else a)
    adj

/-- What a store routes to its base and its right-hand side: the cells it kept, and the cells it
wrote. -/
def Op.routedBack (op : Op U) (b : Binding) (u : ℕ → V) (j e : ℕ) : V :=
  let comb := op.comb (b.len (op.input 1))
  if op.opcode = .index then if j = 0 ∧ e = (op.imm 0).toNat then u 0 else 0
  else if j = 0 then
    if op.opcode.isCopyingStore ∧ e < b.len op.out ∧ inComb comb e = false then u e else 0
  else if j = 1 ∧ e < comb.2.2 then u (comb.1 + e * comb.2.1) else 0

/-- One step of the reverse sweep, over the value arena the forward sweep ended with.  An in-place
store hands the adjoints of the cells it wrote to its right-hand side and clears them; its base
needs nothing, since base and output share one adjoint buffer. -/
def backwardOp (K : Kernels U V S W) (b : Binding) (final : Arena V) (op : Op U)
    (entry : LogEntry V S) (adj : Arena V) : Arena V :=
  if op.opcode.isInplaceStore then
    let comb := op.comb (b.len (op.input 1))
    let routed := accumulate b op.ins (op.routedBack b (adj op.out)) adj
    Function.update routed op.out fun e => if inComb comb e then 0 else routed op.out e
  else if op.opcode = .index ∨ op.opcode.isCopyingStore then
    accumulate b op.ins (op.routedBack b (adj op.out)) adj
  else
    let u2 := (op.out2.map fun o => adj o 0).getD 0
    accumulate b op.ins
      (K.backward op.call entry.scratch (op.ins.map (b.read final)) (b.read final op.out)
        ((op.out2.map (b.read final)).getD []) (op.ins.map b.active)
        ((List.range (b.len op.out)).map (adj op.out)) u2)
      adj

/-- `Executor::reverse`: seed the result's adjoint and walk the ops backwards. -/
def Graph.reverse (K : Kernels U V S W) (g : Graph U)
    (fwd : Outcome (SweepState V S W) (LogEntry V S) String) (seed : V) : Arena V :=
  backRun (backwardOp K g.bind fwd.state.mem) g.ops fwd.log
    fun s e => if g.resultSlot = some s ∧ e = 0 then seed else 0

end Reverse

end Stanli
