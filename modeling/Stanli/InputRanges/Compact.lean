import Stanli.Graph.Evaluate

/-!
# Compacting the inputs of a callback graph

`compact_imports` of `input_ranges.hpp`.  A callback graph is bound to a few windows of its imported
slots, so each slot that is only read through windows shrinks to the convex hull of those: its ops,
its fills and its import records are rebased, and nothing else moves.
-/

namespace Stanli

variable {U V S W : Type*}

/-! ## Imports -/

/-- A run of parent coordinates that a child reads at `localStart`. -/
structure Import where
  parent : ℕ
  localStart : ℕ
  len : ℕ
  exclusive : Bool := false
deriving DecidableEq, Repr

/-- What `compact_imports` is handed and changes. -/
structure ImportState (U V : Type*) where
  graph : Graph U
  fills : Fills V
  imports : List Import
  sourceOffsets : List ℕ
  refusal : String

/-! ## Checks -/

/-- The ops that read one window of their only input. -/
def Op.isWindowRead (op : Op U) : Bool :=
  decide (op.ins.length = 1) && op.out2.isNone && decide (op.variant = 0) &&
    (decide (op.opcode = .index) || decide (op.opcode = .slice))

namespace Graph

/-- The slot exists. -/
def valid (g : Graph U) (s : ℕ) : Bool := decide (s < g.slots.length)

/-- The parameter slots have a total length that fits 64 bits. -/
def parametersFit : ℕ → List Slot → Bool
  | _, [] => true
  | size, slot :: slots =>
    if slot.isParam then
      decide (slot.len ≤ 2 ^ 63 - 1 - size) && parametersFit (size + slot.len) slots
    else parametersFit size slots

/-- A stateless kernel over whole inputs or windows.  `dynamicGeometry` tells the ops that have a
`dyn_extent_in` or a `dyn_capacity`. -/
def supports (K : Kernels U V S W) (dynamicGeometry : Op U → Bool) (g : Graph U) (op : Op U) : Bool :=
  K.registered op.opcode && !K.makesState op.opcode &&
    (op.udata.isNone || op.opcode.hasTrait .wholeInputPayload) && !dynamicGeometry op &&
    decide (op.dynLengths = 0) &&
    !decide (op.opcode ∈ [Opcode.dynamicSlice, .indexDynamic, .setIndexDynamic, .setIndexInplace,
      .setSliceInplace, .setSliceStridedInplace]) &&
    g.valid op.out && decide (op.ins.length ≤ 6) && op.out2.toList.all g.valid

end Graph

/-- `refusal` where no reason is given. -/
def defaultRefusal : String := "unsupported child import range"

/-- One op of the first loop. -/
def checkChildOp (K : Kernels U V S W) (dynamicGeometry : Op U → Bool) (opcodeName : Opcode → String)
    (g : Graph U) (op : Op U) : Except String Unit :=
  if g.supports K dynamicGeometry op = false then
    .error ("opaque/stateful kernel or dynamic import geometry: " ++ opcodeName op.opcode)
  else if op.ins.all g.valid = false then .error defaultRefusal
  else .ok ()

/-! ## Hulls -/

/-- The cells `[lo, hi)` of each slot. -/
structure Hull where
  lo : ℕ → ℕ
  hi : ℕ → ℕ

namespace Hull

def len (h : Hull) (s : ℕ) : ℕ := h.hi s - h.lo s

/-- `lo[s] = min(lo[s], begin); hi[s] = max(hi[s], end)`. -/
def widen (h : Hull) (s start stop : ℕ) : Hull where
  lo := Function.update h.lo s (min (h.lo s) start)
  hi := Function.update h.hi s (max (h.hi s) stop)

/-- The fills of the slots that are not empty, each cut to its hull. -/
def cutFills (h : Hull) (fills : Fills V) : Fills V :=
  (fills.filter fun f => decide (h.lo f.1 < h.hi f.1)).map fun f =>
    (f.1, (f.2.take (h.hi f.1)).drop (h.lo f.1))

end Hull

namespace Graph

variable (g : Graph U)

/-- Nothing has been read. -/
def emptyHull : Hull := ⟨g.len, fun _ => 0⟩

/-- The part of an input an op reads: `none` if it is not inside the input, and no part at all for an
empty read. -/
def readPart (op : Op U) (s : ℕ) : Option (Option (ℕ × ℕ)) :=
  if op.isWindowRead = true then
    if op.idata.length ≠ 1 then none
    else if op.imm 0 < 0 ∨ g.len s < op.imm 0 ∨ (g.len s : ℤ) - op.imm 0 < g.len op.out ∨
        (op.opcode = .index ∧ g.len op.out ≠ 1) then none
    else if g.len op.out = 0 then some none
    else some (some ((op.imm 0).toNat, (op.imm 0).toNat + g.len op.out))
  else some (some (0, g.len s))

/-- One input of the second loop. -/
def readInput (op : Op U) (h : Hull) (s : ℕ) : Option Hull :=
  match g.readPart op s with
  | none => none
  | some none => some h
  | some (some (start, stop)) => some (h.widen s start stop)

/-- The second loop: what the ops read of every slot. -/
def readHull : Option Hull :=
  g.ops.foldlM (fun h op => op.ins.foldlM (g.readInput op) h) g.emptyHull

/-- The slots that keep all their cells. -/
def pinned (s : ℕ) : Bool := g.written s || decide (g.resultSlot = some s)

/-- The third loop: written slots and the result stay whole, and a slot no op reads is empty. -/
def settleHull (h : Hull) : Hull where
  lo s := if g.pinned s = true then 0 else if h.hi s = 0 then 0 else h.lo s
  hi s := if g.pinned s = true then g.len s else h.hi s

/-! ## The compacted graph -/

/-- The import records, from slot `s` on. -/
def importsFrom (h : Hull) : ℕ → ℕ → ℕ → List Slot → List Import
  | _, _, _, [] => []
  | s, parent, start, slot :: slots =>
    if slot.isParam then
      (if h.len s = 0 then [] else [⟨parent + h.lo s, start, h.len s, false⟩]) ++
        importsFrom h (s + 1) (parent + slot.len) (start + h.len s) slots
    else importsFrom h (s + 1) parent start slots

/-- The slots with the lengths of their hulls. -/
def compactSlots (h : Hull) : List Slot :=
  g.slots.zipIdx.map fun p => { p.1 with len := h.len p.2 }

/-- A window read of a slot that shrinks starts where the hull does. -/
def rebase (h : Hull) (op : Op U) : Op U :=
  if op.isWindowRead = true ∧ h.len (op.input 0) ≠ g.len (op.input 0) then
    { op with idata := [if h.len op.out = 0 then 0 else op.imm 0 - h.lo (op.input 0)] }
  else op

/-- The graph over the hulls. -/
def compact (h : Hull) : Graph U where
  slots := g.compactSlots h
  ops := g.ops.map (g.rebase h)
  resultSlot := g.resultSlot

end Graph

/-! ## The pass -/

section Pass

variable (K : Kernels U V S W) (dynamicGeometry : Op U → Bool) (opcodeName : Opcode → String)

/-- The hulls of an accepted graph, or why it is refused. -/
def childHull (g : Graph U) (fills : Fills V) : Except String Hull :=
  if (g.resultSlot.map g.valid).getD false = false then .error defaultRefusal
  else if Graph.parametersFit 0 g.slots = false then .error defaultRefusal
  else
    match g.ops.forM (checkChildOp K dynamicGeometry opcodeName g) with
    | .error reason => .error reason
    | .ok _ =>
      match g.readHull with
      | none => .error defaultRefusal
      | some h =>
        if fills.all (fun f => g.valid f.1 && decide (f.2.length = g.len f.1)) = false then
          .error defaultRefusal
        else .ok (g.settleHull h)

/-- `compact_imports`. -/
def compactImports (st : ImportState U V) : Bool × ImportState U V :=
  match childHull K dynamicGeometry opcodeName st.graph st.fills with
  | .error reason => (false, { st with refusal := reason })
  | .ok h =>
    (true,
      { graph := st.graph.compact h
        fills := h.cutFills st.fills
        imports := Graph.importsFrom h 0 0 0 st.graph.slots
        sourceOffsets := (List.range st.graph.slots.length).map h.lo
        refusal := defaultRefusal })

end Pass

end Stanli
