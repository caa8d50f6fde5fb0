import Mathlib.Algebra.Notation.Defs
import Mathlib.Data.Int.Notation
import Mathlib.Data.List.GetD
import Mathlib.Data.Nat.Notation
import Mathlib.Logic.Function.Basic
import Stanli.Graph.Opcode
import Stanli.Lib.Machine

/-!
# The op graph and its executor

The data model of `graph.hpp` and `kernel_types.hpp` and the two sweeps of `executor.cpp`.

A `Graph` is a list of slots and a list of ops in evaluation order.  `Graph.bind` is what the
executor derives from it once: the length of each slot, the slot whose value buffer a slot uses
(`home`: its own, unless the op writing it is a cached primal), and which slots have an adjoint.
`forwardOp` runs one op on the value arena and `backwardOp` runs its pullback on the adjoint arena.

The element and slice stores and the element read are modelled by the loops of their kernels.  All
other kernels are a parameter (`Kernels`): functions of the call they are handed, which never sees a
slot id.  An arena is a map from slots to cells; a kernel only reads the cells below the slot's
length.
-/

namespace Stanli

/-! ## Graphs -/

/-- A value in the graph.  The slots with `isParam` are the unconstrained parameter vector; every
other slot is data or an intermediate. -/
structure Slot where
  len : ℕ
  isParam : Bool
deriving DecidableEq, Repr

/-- One op.  `ins` holds the `n_in` used entries of `in`, and `idata` the integer immediates.
`udata` is the opaque payload and `primalSource` the slot whose value a cached op shares. -/
structure Op (U : Type*) where
  opcode : Opcode
  variant : ℕ := 0
  out : ℕ
  out2 : Option ℕ := none
  ins : List ℕ
  idata : List ℤ := []
  udata : Option U := none
  dynLengths : ℕ := 0
  primalSource : Option ℕ := none
deriving DecidableEq, Repr

/-- The structured op graph. -/
structure Graph (U : Type*) where
  slots : List Slot
  ops : List (Op U)
  resultSlot : Option ℕ := none
deriving DecidableEq, Repr

/-- Bind-time contents of data slots, applied in order. -/
abbrev Fills (V : Type*) := List (ℕ × List V)

namespace Op

variable {U : Type*}

/-- The slots an op writes. -/
def outs (op : Op U) : List ℕ := op.out :: op.out2.toList

/-- `idata[k]`. -/
def imm (op : Op U) (k : ℕ) : ℤ := op.idata.getD k 0

/-- `in[k]`. -/
def input (op : Op U) (k : ℕ) : ℕ := op.ins.getD k 0

/-- The op shares the primal of another one: it has a primal source, and not its own output. -/
def cached (op : Op U) : Bool :=
  match op.primalSource with
  | some s => s != op.out
  | none => false

/-- The op with its inputs renamed. -/
def mapIns (f : ℕ → ℕ) (op : Op U) : Op U := { op with ins := op.ins.map f }

@[simp] lemma mapIns_opcode (f : ℕ → ℕ) (op : Op U) : (op.mapIns f).opcode = op.opcode := rfl

@[simp] lemma mapIns_out (f : ℕ → ℕ) (op : Op U) : (op.mapIns f).out = op.out := rfl

@[simp] lemma mapIns_out2 (f : ℕ → ℕ) (op : Op U) : (op.mapIns f).out2 = op.out2 := rfl

@[simp] lemma mapIns_outs (f : ℕ → ℕ) (op : Op U) : (op.mapIns f).outs = op.outs := rfl

@[simp] lemma mapIns_ins (f : ℕ → ℕ) (op : Op U) : (op.mapIns f).ins = op.ins.map f := rfl

@[simp] lemma mapIns_idata (f : ℕ → ℕ) (op : Op U) : (op.mapIns f).idata = op.idata := rfl

@[simp] lemma mapIns_imm (f : ℕ → ℕ) (op : Op U) (k : ℕ) : (op.mapIns f).imm k = op.imm k := rfl

@[simp] lemma mapIns_primalSource (f : ℕ → ℕ) (op : Op U) :
    (op.mapIns f).primalSource = op.primalSource := rfl

lemma mapIns_input {f : ℕ → ℕ} {op : Op U} {k : ℕ} (h : k < op.ins.length) :
    (op.mapIns f).input k = f (op.input k) := by
  simp [input, h]

lemma input_mem {op : Op U} {k : ℕ} (h : k < op.ins.length) : op.input k ∈ op.ins := by
  rw [input, List.getD_eq_getElem _ _ h]
  exact List.getElem_mem h

@[simp] lemma mem_outs {op : Op U} {s : ℕ} : s ∈ op.outs ↔ s = op.out ∨ op.out2 = some s := by
  simp [outs, Option.mem_toList]

end Op

namespace Graph

variable {U : Type*}

/-- The length of a slot; a slot the graph does not have has none. -/
def len (g : Graph U) (s : ℕ) : ℕ := ((g.slots[s]?).map Slot.len).getD 0

/-- Whether a slot is a parameter. -/
def isParam (g : Graph U) (s : ℕ) : Bool := ((g.slots[s]?).map Slot.isParam).getD false

/-- Some op writes the slot. -/
def written (g : Graph U) (s : ℕ) : Bool := g.ops.any fun op => decide (s ∈ op.outs)

/-- The slot whose value buffer a slot uses (`primal_sources` in `bind_`). -/
def home (g : Graph U) (s : ℕ) : ℕ :=
  (((g.ops.filter fun op => op.cached && op.out == s).getLast?).bind Op.primalSource).getD s

end Graph

/-- What binding a graph fixes for all its evaluations. -/
structure Binding where
  /-- The length of each slot. -/
  len : ℕ → ℕ
  /-- The slot whose value buffer a slot uses. -/
  home : ℕ → ℕ
  /-- The slots that have an adjoint: parameters and written slots. -/
  active : ℕ → Bool

/-- `Executor::bind_`, as far as slots are concerned. -/
def Graph.bind {U : Type*} (g : Graph U) : Binding where
  len := g.len
  home := g.home
  active s := g.isParam s || g.written s

/-! ## Kernels -/

/-- A value or adjoint arena: the cells of each slot. -/
abbrev Arena (V : Type*) := ℕ → ℕ → V

/-- What a kernel is told about its op (`KernelCtx` without buffers): no slot id. -/
structure KernelCall (U : Type*) where
  opcode : Opcode
  variant : ℕ
  idata : List ℤ
  udata : Option U
deriving DecidableEq, Repr

/-- The call an op makes. -/
def Op.call {U : Type*} (op : Op U) : KernelCall U where
  opcode := op.opcode
  variant := op.variant
  idata := op.idata
  udata := op.udata

@[simp] lemma Op.mapIns_call {U : Type*} (f : ℕ → ℕ) (op : Op U) :
    (op.mapIns f).call = op.call := rfl

/-- The buffers a kernel fills: both outputs and its scratch. -/
structure KernelOut (V S : Type*) where
  out : ℕ → V
  out2 : ℕ → V
  scratch : S

/-- The registered kernels, as functions of their call.  `W` is what effectful kernels read and
change (the draw stream, the messages printed), `S` a kernel's scratch. -/
structure Kernels (U V S W : Type*) where
  /-- `find_kernel` returns a kernel. -/
  registered : Opcode → Bool
  /-- The kernel has `make_state`. -/
  makesState : Opcode → Bool
  /-- `island_has_effect` of a region payload. -/
  islandHasEffect : U → Bool
  /-- The forward of a kernel without effects: the lengths of both outputs, then the inputs. -/
  forward : KernelCall U → ℕ → ℕ → List (List V) → Except String (KernelOut V S)
  /-- The forward of an effectful kernel. -/
  effect : KernelCall U → ℕ → ℕ → List (List V) → W → Except String (KernelOut V S × W)
  /-- The backward of a kernel: from the scratch, the inputs and outputs as they stand when it runs,
  which inputs have an adjoint, and the adjoints of both outputs, the amount it adds to each cell of
  each input's adjoint. -/
  backward : KernelCall U → Option S → List (List V) → List V → List V → List Bool → List V → V →
    ℕ → ℕ → V
  /-- The trait `kBackwardValueFree`: such a backward only looks at the lengths of its buffers. -/
  backward_valueFree : ∀ (c : KernelCall U), c.opcode.backwardIgnoresValues = true →
    ∀ (s : Option S) (ins ins' : List (List V)) (out out' out2 out2' : List V) (act : List Bool)
      (u : List V) (u2 : V), ins.map List.length = ins'.map List.length →
      out.length = out'.length → out2.length = out2'.length →
      backward c s ins out out2 act u u2 = backward c s ins' out' out2' act u u2

/-- Running the op twice is not running it once: an effectful opcode, or a region whose program has
an effect. -/
def Kernels.hasEffect {U V S W : Type*} (K : Kernels U V S W) (c : KernelCall U) : Bool :=
  c.opcode.isEffectful ||
    (decide (c.opcode = .island) && (c.udata.map K.islandHasEffect).getD false)

/-- A registry without kernels: every call throws. -/
def Kernels.empty (U V S W : Type*) [Zero V] : Kernels U V S W where
  registered _ := false
  makesState _ := false
  islandHasEffect _ := false
  forward _ _ _ _ := .error "no kernel"
  effect _ _ _ _ _ := .error "no kernel"
  backward _ _ _ _ _ _ _ _ _ _ := 0
  backward_valueFree _ _ _ _ _ _ _ _ _ _ _ _ _ _ _ := rfl

/-- Ops are in evaluation order: a slot that some op writes is written before it is read. -/
def EvalOrder {U : Type*} (ops : List (Op U)) : Prop :=
  ∀ i (_ : i < ops.length), ∀ s ∈ ops[i].ins, (∃ op ∈ ops, s ∈ op.outs) →
    ∃ op ∈ ops.take i, s ∈ op.outs

instance {U : Type*} (ops : List (Op U)) : Decidable (EvalOrder ops) :=
  inferInstanceAs (Decidable (∀ i (_ : i < ops.length), ∀ s ∈ ops[i].ins,
    (∃ op ∈ ops, s ∈ op.outs) → ∃ op ∈ ops.take i, s ∈ op.outs))

/-- Op `k` writes slot `s`. -/
def Writes {U : Type*} (ops : List (Op U)) (s k : ℕ) : Prop := ∃ op, ops[k]? = some op ∧ s ∈ op.outs

/-- A written slot has an adjoint. -/
lemma Writes.active {U : Type*} {g : Graph U} {s k : ℕ} (h : Writes g.ops s k) :
    g.bind.active s = true := by
  obtain ⟨op, hop, hs⟩ := h
  have hw : g.written s = true :=
    List.any_eq_true.2 ⟨op, List.mem_of_getElem? hop, decide_eq_true hs⟩
  simp [Graph.bind, hw]

lemma EvalOrder.writes_lt {U : Type*} {ops : List (Op U)} (h : EvalOrder ops) {n s j : ℕ}
    {op : Op U} (hop : ops[n]? = some op) (hs : s ∈ op.ins) (hw : Writes ops s j) :
    ∃ i < n, Writes ops s i := by
  obtain ⟨hn, rfl⟩ := List.getElem?_eq_some_iff.1 hop
  obtain ⟨o, ho, hso⟩ := hw
  obtain ⟨o', ho', hso'⟩ := h n hn s hs ⟨o, List.mem_of_getElem? ho, hso⟩
  obtain ⟨i, hi, rfl⟩ := List.mem_take_iff_getElem.1 ho'
  exact ⟨i, by omega, _, List.getElem?_eq_getElem (by omega), hso'⟩

/-- Before op `n` the slot holds what an op may read: it has been written, unless no op writes it. -/
def Graph.Settled {U : Type*} (g : Graph U) (n s : ℕ) : Prop :=
  ∀ j, Writes g.ops s j → ∃ i < n, Writes g.ops s i

lemma Graph.Settled.mono {U : Type*} {g : Graph U} {m n s : ℕ} (h : g.Settled m s) (hmn : m ≤ n) :
    g.Settled n s := fun j hj =>
  let ⟨i, hi, hw⟩ := h j hj
  ⟨i, by omega, hw⟩

/-- In evaluation order, ops read settled slots. -/
lemma EvalOrder.settled {U : Type*} {g : Graph U} (h : EvalOrder g.ops) {n s : ℕ} {op : Op U}
    (hop : g.ops[n]? = some op) (hs : s ∈ op.ins) : g.Settled n s :=
  fun _ hj => h.writes_lt hop hs hj

/-- At the end every slot is settled. -/
lemma Graph.settled_length {U : Type*} (g : Graph U) (s : ℕ) : g.Settled g.ops.length s :=
  fun j hj => ⟨j, (List.getElem?_eq_some_iff.1 hj.choose_spec.1).1, hj⟩

/-- A slot that op `n` leaves alone was settled before it. -/
lemma Graph.Settled.of_succ {U : Type*} {g : Graph U} {n s : ℕ} {op : Op U}
    (h : g.Settled (n + 1) s) (hop : g.ops[n]? = some op) (hs : s ∉ op.outs) : g.Settled n s := by
  intro j hj
  obtain ⟨i, hi, hw⟩ := h j hj
  rcases Nat.lt_succ_iff_lt_or_eq.1 hi with hi | rfl
  · exact ⟨i, hi, hw⟩
  · obtain ⟨o, ho, hso⟩ := hw
    obtain rfl := Option.some.inj (hop.symm.trans ho)
    exact absurd hso hs

/-- Only op `j` writes slot `s`. -/
structure Graph.SoleWriter {U : Type*} (g : Graph U) (s j : ℕ) : Prop where
  writes : Writes g.ops s j
  unique : ∀ k, Writes g.ops s k → k = j

lemma Graph.SoleWriter.settled {U : Type*} {g : Graph U} {s j n : ℕ} (h : g.SoleWriter s j)
    (hj : j < n) : g.Settled n s := fun _ _ => ⟨j, hj, h.writes⟩

lemma Graph.SoleWriter.lt_of_settled {U : Type*} {g : Graph U} {s j n : ℕ} (h : g.SoleWriter s j)
    (hs : g.Settled n s) : j < n := by
  obtain ⟨i, hi, hw⟩ := hs j h.writes
  rwa [← h.unique i hw]

lemma Graph.SoleWriter.notMem {U : Type*} {g : Graph U} {s j n : ℕ} {op : Op U}
    (h : g.SoleWriter s j) (hop : g.ops[n]? = some op) (hne : n ≠ j) : s ∉ op.outs :=
  fun hs => hne (h.unique n ⟨op, hop, hs⟩)

/-- A parameter reaches op `i`. -/
inductive ParamReaches {U : Type*} (g : Graph U) : ℕ → Prop
  | param {i s : ℕ} {op : Op U} (hop : g.ops[i]? = some op) (hs : s ∈ op.ins)
      (hparam : g.isParam s = true) : ParamReaches g i
  | write {i j s : ℕ} {op o : Op U} (hop : g.ops[i]? = some op) (hs : s ∈ op.ins) (hji : j < i)
      (ho : g.ops[j]? = some o) (hso : s ∈ o.outs) (hj : ParamReaches g j) : ParamReaches g i

end Stanli
