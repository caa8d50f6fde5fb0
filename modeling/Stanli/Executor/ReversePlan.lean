import Mathlib.Algebra.Group.Defs
import Mathlib.Algebra.Notation.Defs
import Stanli.Executor.Layout
import Stanli.Lib.Batching

/-!
# The fused reverse plan

The second half of `Executor::bind_`, `refresh_micros_`, `detach_data_` and the sweep of
`Executor::reverse`.  Binding assembles one context per op and the list of backward steps, last op
first.  A cached op whose kernel can say what its backward does as a list of single accumulations
(`cached_micro`) is not made a step at once: it waits in a pending run, and a run that is long enough
becomes one null step, with its micro-ops in a flat list.  A run that stays short is taken back and
its ops become steps after all.

What a sweep reads and changes is a memory of cells and the log of the accumulations made.
-/

namespace Stanli

variable {U V X : Type*}

/-! ## Memory -/

/-- A pointer to a double.  Data buffers are numbered: detaching makes a new one. -/
inductive Ptr
  | null
  | value (o : ℕ)
  | data (buffer o : ℕ)
  | lent (slot o : ℕ)
  | adjoint (o : ℕ)
  | scratch (o : ℕ)
deriving DecidableEq, Repr

namespace Ptr

/-- `p + n`. -/
def add (p : Ptr) (n : ℕ) : Ptr :=
  match p with
  | null => null
  | value o => value (o + n)
  | data b o => data b (o + n)
  | lent s o => lent s (o + n)
  | adjoint o => adjoint (o + n)
  | scratch o => scratch (o + n)

end Ptr

/-- The pointer to a place, where `buffer` is the executor's data buffer. -/
def Place.ptr (buffer : ℕ) : Place → Ptr
  | value o => .value o
  | data o => .data buffer o
  | lent s => .lent s 0

/-- One accumulation: the cell, and what is added to it or subtracted from it. -/
inductive Accumulation (V : Type*)
  | add (dst : Ptr) (x : V)
  | sub (dst : Ptr) (x : V)
deriving DecidableEq, Repr

/-- What the sweep works on: all cells, the accumulations made so far, and what kernels keep
elsewhere. -/
structure RevState (V X : Type*) where
  mem : Ptr → V
  log : List (Accumulation V)
  rest : X

namespace RevState

/-- `*dst += x`. -/
def add [Add V] (st : RevState V X) (dst : Ptr) (x : V) : RevState V X :=
  { st with
    mem := Function.update st.mem dst (st.mem dst + x)
    log := st.log ++ [.add dst x] }

/-- `*dst -= x`. -/
def sub [Sub V] (st : RevState V X) (dst : Ptr) (x : V) : RevState V X :=
  { st with
    mem := Function.update st.mem dst (st.mem dst - x)
    log := st.log ++ [.sub dst x] }

end RevState

/-! ## Contexts -/

/-- `KernelCtx`, without the two adjoints that a sweep passes by value. -/
structure KernelCtx (U : Type*) where
  variant : ℕ
  idata : List ℤ
  udata : Option U
  ins : List (Ptr × ℕ)
  out : Ptr × ℕ
  out2 : Ptr × ℕ
  scratch : Ptr
  inAdj : List (Ptr × ℕ)
  outAdj : Ptr × ℕ

/-- The context that `resize` makes. -/
def KernelCtx.empty : KernelCtx U where
  variant := 0
  idata := []
  udata := none
  ins := []
  out := (.null, 0)
  out2 := (.null, 0)
  scratch := .null
  inAdj := []
  outAdj := (.null, 0)

/-- The pointer into the adjoint arena, null where there is none. -/
def adjointPtr (o : Option ℕ) : Ptr := o.elim .null .adjoint

/-- The context `make_ctx_` gives an op while the data lie in `buffer`. -/
def Layout.kernelCtx (L : Layout) (B : BindEnv U) (g : Graph U) (buffer : ℕ) (op : Op U)
    (scratchOffset : ℕ) : KernelCtx U :=
  let c := L.makeCtx B g op scratchOffset
  { variant := op.variant
    idata := op.idata
    udata := op.udata
    ins := c.ins.map fun d => (d.1.ptr buffer, d.2)
    out := (c.out.1.ptr buffer, c.out.2)
    out2 := c.out2.elim (.null, 0) fun d => (d.1.ptr buffer, d.2)
    scratch := c.scratch.elim .null .scratch
    inAdj := c.inAdj.map fun d => (adjointPtr d.1, d.2)
    outAdj := (adjointPtr c.outAdj.1, c.outAdj.2) }

/-- Point the inputs of an op that lie in the data buffer into another one. -/
def Layout.repoint (L : Layout) (B : BindEnv U) (buffer : ℕ) (op : Op U) (c : KernelCtx U) :
    KernelCtx U :=
  { c with
    ins := List.zipWith (fun s d =>
      if (L.dataOffset s).isSome then ((L.slotData B s).ptr buffer, d.2) else d) op.ins c.ins }

/-! ## Micro-ops -/

/-- `BwdMicroKind`. -/
inductive MicroKind
  | add | sub | scaled | fn | fnNonzero
deriving DecidableEq, Repr

/-- `BwdMicro`: one accumulation of a backward. -/
structure BwdMicro (V : Type*) where
  dst : Ptr
  seed : Ptr
  a : Ptr := .null
  b : Ptr := .null
  fn : V → V → V → V := fun s _ _ => s
  kind : MicroKind
  opcode : Opcode := .opNone

/-- A backward kernel: its context, and the adjoints of both outputs. -/
abbrev BackwardFn (U V X : Type*) := KernelCtx U → V → V → RevState V X → RevState V X

/-- `CachedMicroFn`: whether the backward is a list of single accumulations, and what was appended. -/
abbrev CachedMicroFn (U V : Type*) := KernelCtx U → Bool × List (BwdMicro V)

/-- The kernel table, as far as the reverse sweep uses it. -/
structure ReverseKernels (U V X : Type*) where
  backward : Opcode → Option (BackwardFn U V X)
  cachedMicro : Opcode → Option (CachedMicroFn U V)
  /-- `x == 0.0`. -/
  isZero : V → Bool

section Run

variable [Add V] [Sub V] [Mul V] [Zero V]

/-- `run_bwd_micro`. -/
def runBwdMicro (K : ReverseKernels U V X) (m : BwdMicro V) (st : RevState V X) : RevState V X :=
  match m.kind with
  | .add => st.add m.dst (st.mem m.seed)
  | .sub => st.sub m.dst (st.mem m.seed)
  | .scaled =>
    if m.b ≠ .null ∧ K.isZero (st.mem m.b) then st
    else st.add m.dst (st.mem m.seed * st.mem m.a)
  | .fn => st.add m.dst (m.fn (st.mem m.seed) (st.mem m.a) (st.mem m.b))
  | .fnNonzero =>
    if K.isZero (st.mem m.a) then st
    else st.add m.dst (m.fn (st.mem m.seed) (st.mem m.a) (st.mem m.b))

/-- Call a backward: the adjoint of a scalar output, and that of the second output, are read from the
arena first. -/
def callBackward (b : BackwardFn U V X) (c : KernelCtx U) (out2Adj : Ptr) (st : RevState V X) :
    RevState V X :=
  b c (if c.outAdj.2 = 1 then st.mem c.outAdj.1 else 0)
    (if out2Adj = .null then 0 else st.mem out2Adj) st

end Run

/-! ## Where the contexts are -/

/-- Where the context of each op stands: the ops that run come first, the cached ones behind them. -/
def ctxPositions : ℕ → ℕ → List (Op U) → List ℕ
  | _, _, [] => []
  | forward, cached, op :: ops =>
    if op.cached then cached :: ctxPositions forward (cached + 1) ops
    else forward :: ctxPositions (forward + 1) cached ops

/-- How many ops run in the forward sweep. -/
def Graph.nForward (g : Graph U) : ℕ := g.ops.countP fun op => !op.cached

/-- The position of each op's context. -/
def Graph.ctxPos (g : Graph U) : List ℕ := ctxPositions 0 g.nForward g.ops

/-- The contexts, assembled op by op. -/
def Graph.bindCtx (g : Graph U) (B : BindEnv U) (L : Layout) (buffer : ℕ) : ℕ → KernelCtx U :=
  (g.ctxPos.zip (g.ops.zip L.scratchOffsets)).foldl
    (fun ctx p => Function.update ctx p.1 (L.kernelCtx B g buffer p.2.1 p.2.2)) fun _ => .empty

/-! ## The plan -/

/-- `BwdStep`; the null step is left out of it. -/
structure BwdStep (U V X : Type*) where
  fn : BackwardFn U V X
  ctx : ℕ
  out2Adj : Ptr

/-- `FusedOp`. -/
structure FusedOp (U V : Type*) where
  ctx : ℕ
  fn : CachedMicroFn U V
  opcode : Opcode

/-- `Pending`: a cached op that waits for its run to be long enough. -/
structure PendingOp (U V X : Type*) where
  ci : ℕ
  backward : BackwardFn U V X
  cachedMicro : CachedMicroFn U V
  opcode : Opcode

/-- What the loop over the ops fills.  A null step is `none`. -/
structure ReversePlan (U V X : Type*) where
  bwd : List (Option (BwdStep U V X)) := []
  micro : List (BwdMicro V) := []
  microRuns : List Mark := []
  fused : List (FusedOp U V) := []
  pending : List (PendingOp U V X) := []
  runStart : ℕ := 0

/-- `kMinMicroRun`. -/
def minMicroRun : ℕ := 2

/-- `static_cast<uint32_t>`. -/
def toUInt32 (n : ℕ) : ℕ := n % 2 ^ 32

/-- Every micro-op carries the opcode it comes from. -/
def tagged (oc : Opcode) (ms : List (BwdMicro V)) : List (BwdMicro V) :=
  ms.map fun m => { m with opcode := oc }

namespace ReversePlan

/-- `close_run`. -/
def closeRun (p : ReversePlan U V X) : ReversePlan U V X :=
  if p.pending.isEmpty then p
  else if minMicroRun ≤ p.micro.length - p.runStart then
    { p with
      microRuns := p.microRuns ++
        [⟨toUInt32 p.runStart, toUInt32 p.micro.length, toUInt32 p.bwd.length⟩]
      bwd := p.bwd ++ [none]
      fused := p.fused ++ p.pending.map fun q => ⟨q.ci, q.cachedMicro, q.opcode⟩
      pending := [] }
  else
    { p with
      micro := p.micro.take p.runStart
      bwd := p.bwd ++ p.pending.map fun q => some ⟨q.backward, q.ci, .null⟩
      pending := [] }

/-- The op becomes a step of its own. -/
def pushStep (p : ReversePlan U V X) (s : BwdStep U V X) : ReversePlan U V X :=
  { p.closeRun with bwd := p.closeRun.bwd ++ [some s] }

/-- One round of the loop, for the op whose context stands at `ci`. -/
def addOp (K : ReverseKernels U V X) (L : Layout) (ctx : ℕ → KernelCtx U) (p : ReversePlan U V X)
    (op : Op U) (ci : ℕ) : ReversePlan U V X :=
  match K.backward op.opcode with
  | none => p
  | some b =>
    match if op.cached && op.out2.isNone then K.cachedMicro op.opcode else none with
    | none => p.pushStep ⟨b, ci, adjointPtr (op.out2.bind L.adjointOffset)⟩
    | some f =>
      let p := { p with runStart := if p.pending.isEmpty then p.micro.length else p.runStart }
      let r := f (ctx ci)
      if r.1 then
        { p with
          micro := p.micro ++ tagged op.opcode r.2
          pending := if r.2.isEmpty then p.pending else p.pending ++ [⟨ci, b, f, op.opcode⟩] }
      else p.pushStep ⟨b, ci, adjointPtr (op.out2.bind L.adjointOffset)⟩

end ReversePlan

/-- The bound reverse plan: the ops are taken from the last to the first. -/
def Graph.reversePlan (g : Graph U) (K : ReverseKernels U V X) (L : Layout)
    (ctx : ℕ → KernelCtx U) : ReversePlan U V X :=
  ((g.ops.zip g.ctxPos).reverse.foldl (fun (p : ReversePlan U V X) q => p.addOp K L ctx q.1 q.2)
    {}).closeRun

/-! ## The executor -/

/-- What the reverse sweep of a bound executor uses. -/
structure ReverseExecutor (U V X : Type*) where
  ctx : ℕ → KernelCtx U
  /-- The data buffer the contexts point into. -/
  buffer : ℕ
  plan : ReversePlan U V X

/-- Binding: contexts, then the plan. -/
def Graph.bindReverse (g : Graph U) (K : ReverseKernels U V X) (B : BindEnv U) (L : Layout)
    (buffer : ℕ) : ReverseExecutor U V X where
  ctx := g.bindCtx B L buffer
  buffer := buffer
  plan := g.reversePlan K L (g.bindCtx B L buffer)

namespace ReverseExecutor

/-- `refresh_micros_`. -/
def refreshMicros (E : ReverseExecutor U V X) : ReverseExecutor U V X :=
  { E with plan := { E.plan with
      micro := E.plan.fused.flatMap fun f => tagged f.opcode (f.fn (E.ctx f.ctx)).2 } }

/-- `detach_data_` where another executor shares the buffer: the inputs that lie in the data buffer are
pointed into a new one, and the micro-ops are made again. -/
def detachData (E : ReverseExecutor U V X) (g : Graph U) (B : BindEnv U) (L : Layout) (buffer : ℕ) :
    ReverseExecutor U V X :=
  refreshMicros
    { E with
      ctx := (g.ctxPos.zip g.ops).foldl
        (fun ctx p => Function.update ctx p.1 (L.repoint B buffer p.2 (ctx p.1))) E.ctx
      buffer := buffer }

section Reverse

variable [Add V] [Sub V] [Mul V] [Zero V]

/-- `run_bwd_step`. -/
def runStep (E : ReverseExecutor U V X) (s : BwdStep U V X) (st : RevState V X) : RevState V X :=
  callBackward s.fn (E.ctx s.ctx) s.out2Adj st

/-- `reverse_dense_micro`, also the sweep that profiles. -/
def reverseDense (E : ReverseExecutor U V X) (K : ReverseKernels U V X) (st : RevState V X) :
    Option (RevState V X) :=
  walkDense E.runStep (runBwdMicro K) E.plan.micro E.plan.bwd E.plan.microRuns st

/-- `reverse_sparse_micro`. -/
def reverseSparse (E : ReverseExecutor U V X) (K : ReverseKernels U V X) (st : RevState V X) :
    Option (RevState V X) :=
  walkSparse E.runStep (runBwdMicro K) E.plan.micro E.plan.bwd E.plan.microRuns 0 st

/-- The plain sweep over a plan without micro runs. -/
def reversePlain (E : ReverseExecutor U V X) (st : RevState V X) : Option (RevState V X) :=
  runSteps E.runStep E.plan.bwd 0 E.plan.bwd.length st

/-- The sweep of `Executor::reverse`, from the seeded adjoint arena on. -/
def reverse (E : ReverseExecutor U V X) (K : ReverseKernels U V X) (profile : Bool)
    (st : RevState V X) : Option (RevState V X) :=
  if profile then E.reverseDense K st
  else if E.plan.microRuns ≠ [] then
    if E.plan.micro.length * 2 < E.plan.bwd.length then E.reverseSparse K st
    else E.reverseDense K st
  else E.reversePlain st

end Reverse

end ReverseExecutor

/-! ## The sweep without micro-ops -/

section Unfused

variable [Add V] [Sub V] [Mul V] [Zero V]

/-- Call the backward of one op. -/
def Graph.backwardCall (g : Graph U) (K : ReverseKernels U V X) (B : BindEnv U) (L : Layout)
    (buffer : ℕ) (st : RevState V X) (p : Op U × ℕ) : RevState V X :=
  match K.backward p.1.opcode with
  | none => st
  | some b =>
    callBackward b (L.kernelCtx B g buffer p.1 p.2) (adjointPtr (p.1.out2.bind L.adjointOffset)) st

/-- Each op's backward is called once, from the last op to the first. -/
def Graph.reverseUnfused (g : Graph U) (K : ReverseKernels U V X) (B : BindEnv U) (L : Layout)
    (buffer : ℕ) (st : RevState V X) : RevState V X :=
  (g.ops.zip L.scratchOffsets).reverse.foldl (g.backwardCall K B L buffer) st

end Unfused

end Stanli
