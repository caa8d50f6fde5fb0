import Stanli.Graph.Basic
import Stanli.Lib.Packing

/-!
# The executor's storage layout

`Executor::bind_` and `make_ctx_` of `executor.cpp`, as far as addresses go.  Binding gives every slot
a place in one of three buffers: the private value arena (parameters first, then what ops write), the
data buffer that copies of the executor share, or a buffer the caller lent.  Cached primals get no
place of their own; their offset is copied from the slot whose value they share.  Adjoints and the
kernels' scratch have arenas of their own.

Each loop of `bind_` is a fold that fails where the source throws.
-/

namespace Stanli

variable {U : Type*}

/-! ## What binding is given -/

/-- What `bind_` consults besides the graph: `max_size()` of a vector of doubles, the caller's buffers
(`borrowed_`), and the kernel table. -/
structure BindEnv (U : Type*) where
  maxSize : ℕ
  borrowed : ℕ → Bool
  /-- The kernel table has a forward for the opcode. -/
  registered : Opcode → Bool
  opcodeName : Opcode → String
  /-- `scratch_size` of the op's kernel, 0 where the kernel has none. -/
  scratchSize : Op U → List Slot → ℤ

/-- `checked_size`: one more block behind the first `a` cells of an arena. -/
def BindEnv.checkedSize (B : BindEnv U) (a : ℕ) (b : ℤ) : Except String ℕ :=
  if b < 0 ∨ (B.maxSize : ℤ) < a + b then .error "executor arena size overflow"
  else .ok (a + b.toNat)

/-- `primal_sources`: the slot that the last cached op writing `s` names. -/
def Graph.primalFrom (g : Graph U) (s : ℕ) : Option ℕ :=
  ((g.ops.filter fun op => op.cached && op.out == s).getLast?).bind Op.primalSource

/-! ## Value and data offsets -/

/-- What the loops over the slots fill: `Slot.offset`, `data_offsets_`, and how far the two arenas
go. -/
structure ValueLayout where
  offset : ℕ → ℕ
  dataOffset : ℕ → Option ℕ
  off : ℕ
  dataSize : ℕ

/-- One round of the loop that places the parameters. -/
def Graph.bindParam (g : Graph U) (B : BindEnv U) (st : ValueLayout) (i : ℕ) :
    Except String ValueLayout :=
  if g.isParam i then
    (B.checkedSize st.off (g.len i)).map fun off =>
      { st with offset := Function.update st.offset i st.off, off := off }
  else .ok st

/-- One round of the loop that places the other slots.  A cached primal is left out. -/
def Graph.bindSlot (g : Graph U) (B : BindEnv U) (st : ValueLayout) (i : ℕ) :
    Except String ValueLayout :=
  if B.borrowed i && (g.isParam i || g.written i) then
    .error "only unwritten data can be borrowed"
  else if g.isParam i then .ok st
  else if B.borrowed i then .ok { st with offset := Function.update st.offset i 0 }
  else if g.written i then
    if (g.primalFrom i).isSome then .ok st
    else (B.checkedSize st.off (g.len i)).map fun off =>
      { st with offset := Function.update st.offset i st.off, off := off }
  else (B.checkedSize st.dataSize (g.len i)).map fun size =>
    { st with
      offset := Function.update st.offset i st.dataSize
      dataOffset := Function.update st.dataOffset i (some st.dataSize)
      dataSize := size }

/-- One round of the loop that copies offsets to the cached primals. -/
def Graph.sharePrimal (g : Graph U) (offset : ℕ → ℕ) (i : ℕ) : ℕ → ℕ :=
  match g.primalFrom i with
  | some t => Function.update offset i (offset t)
  | none => offset

/-! ## Adjoint offsets -/

/-- `adjoint_offsets` and the size of the adjoint arena. -/
structure AdjointLayout where
  offset : ℕ → Option ℕ
  size : ℕ

/-- One round of the two loops that place adjoints. -/
def Graph.bindAdjoint (g : Graph U) (B : BindEnv U) (wanted : ℕ → Bool) (st : AdjointLayout) (i : ℕ) :
    Except String AdjointLayout :=
  if wanted i then
    (B.checkedSize st.size (g.len i)).map fun size =>
      ⟨Function.update st.offset i (some st.size), size⟩
  else .ok st

/-- The slots that have an adjoint without being a parameter. -/
def Graph.ownsAdjoint (g : Graph U) (i : ℕ) : Bool :=
  !g.isParam i && (g.written i || decide (g.resultSlot = some i))

/-! ## Scratch offsets -/

/-- `scratch_offsets`, the size of the scratch arena, and for each slot the op that names itself as
the primal source of its value (`primal_sources` once the value offsets are assigned). -/
structure ScratchLayout where
  offsets : List ℕ
  size : ℕ
  source : ℕ → Option ℕ

/-- One round of the loop over the ops: a cached op gets its source's scratch. -/
def Graph.bindScratch (g : Graph U) (B : BindEnv U) (st : ScratchLayout) (op : Op U) :
    Except String ScratchLayout :=
  if op.opcode = .opNone || !B.registered op.opcode then
    .error ("opcode not registered: " ++ B.opcodeName op.opcode)
  else if op.cached then
    match st.source (op.primalSource.getD op.out) with
    | none => .error "cached primal precedes its source"
    | some j => .ok { st with offsets := st.offsets ++ [st.offsets.getD j 0] }
  else
    (B.checkedSize st.size (B.scratchSize op g.slots)).map fun size =>
      { offsets := st.offsets ++ [st.size]
        size := size
        source := if op.primalSource = some op.out then
          Function.update st.source op.out (some st.offsets.length) else st.source }

/-! ## Binding -/

/-- Where everything is once a graph is bound. -/
structure Layout where
  /-- `Slot.offset`. -/
  offset : ℕ → ℕ
  dataOffset : ℕ → Option ℕ
  nParams : ℕ
  valueSize : ℕ
  dataSize : ℕ
  adjointOffset : ℕ → Option ℕ
  adjointSize : ℕ
  resultAdjointOffset : Option ℕ
  scratchOffsets : List ℕ
  scratchSize : ℕ

/-- `Executor::bind_`.  `stale` holds the slots' offsets from an earlier binding. -/
def Graph.layout (g : Graph U) (B : BindEnv U) (stale : ℕ → ℕ) : Except String Layout := do
  let slots := List.range g.slots.length
  let params ← slots.foldlM (g.bindParam B) ⟨stale, fun _ => none, 0, 0⟩
  let values ← slots.foldlM (g.bindSlot B) params
  let offset := slots.foldl g.sharePrimal values.offset
  let adjParams ← slots.foldlM (g.bindAdjoint B g.isParam) ⟨fun _ => none, 0⟩
  let adjoints ← slots.foldlM (g.bindAdjoint B g.ownsAdjoint) adjParams
  let scratch ← g.ops.foldlM (g.bindScratch B) ⟨[], 0, fun _ => none⟩
  return {
    offset := offset
    dataOffset := values.dataOffset
    nParams := params.off
    valueSize := values.off
    dataSize := values.dataSize
    adjointOffset := adjoints.offset
    adjointSize := adjoints.size
    resultAdjointOffset := g.resultSlot.bind adjoints.offset
    scratchOffsets := scratch.offsets
    scratchSize := scratch.size }

/-! ## Contexts -/

/-- Where a pointer into the bound storage points. -/
inductive Place
  /-- The private value arena `values_`. -/
  | value (offset : ℕ)
  /-- The shared data buffer `data_`. -/
  | data (offset : ℕ)
  /-- The buffer a caller lent for a slot. -/
  | lent (slot : ℕ)
deriving DecidableEq, Repr

/-- `Executor::slot_data_`. -/
def Layout.slotData (L : Layout) (B : BindEnv U) (s : ℕ) : Place :=
  match L.dataOffset s with
  | some o => .data o
  | none => if B.borrowed s then .lent s else .value (L.offset s)

/-- The buffers of a `KernelCtx`: where each starts and how long it is.  Inputs without adjoint have a
null pointer. -/
structure BoundCtx where
  ins : List (Place × ℕ)
  out : Place × ℕ
  out2 : Option (Place × ℕ)
  scratch : Option ℕ
  inAdj : List (Option ℕ × ℕ)
  outAdj : Option ℕ × ℕ
  out2Adj : Option ℕ
deriving DecidableEq, Repr

/-- `Executor::make_ctx_`. -/
def Layout.makeCtx (L : Layout) (B : BindEnv U) (g : Graph U) (op : Op U) (scratchOffset : ℕ) :
    BoundCtx where
  ins := op.ins.map fun s => (L.slotData B s, g.len s)
  out := (L.slotData B op.out, g.len op.out)
  out2 := op.out2.map fun s => (L.slotData B s, g.len s)
  scratch := if L.scratchSize = 0 then none else some scratchOffset
  inAdj := op.ins.map fun s =>
    (if g.isParam s || g.written s then L.adjointOffset s else none, g.len s)
  outAdj := (L.adjointOffset op.out, g.len op.out)
  out2Adj := op.out2.bind L.adjointOffset

/-- The context of each op, in the order of the ops. -/
def Layout.contexts (L : Layout) (B : BindEnv U) (g : Graph U) : List BoundCtx :=
  (g.ops.zip L.scratchOffsets).map fun p => L.makeCtx B g p.1 p.2

end Stanli
