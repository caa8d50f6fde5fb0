import Stanli.Graph.Sweep
import Stanli.Lib.Packing
import Stanli.Program.CopyProp

/-!
# What lowering hands an island

`Lowering::pack_island_inputs` and `Lowering::emit_island` of `lower_stmt.cpp`, with the narrowing of
the live-in windows that comes before them (`used_program_inputs` of `program.cpp`) and the seeding of
the registers that comes after (`run_island` of `island.hpp`).

An op has six inputs at most.  Of more live-ins the leading ones are packed into one slot: each is cut
down to its window, the cuts are concatenated, and the `(input, offset, len)` records are moved along
by a running offset.
-/

namespace Stanli

open Program

variable {U V : Type*}

/-! ## Narrowing the windows -/

namespace Program

/-- Skip the registers in front that nothing reads. -/
def trimFront (read : ℕ → Bool) : ℕ → ℕ → Span
  | reg, 0 => ⟨reg, 0⟩
  | reg, n + 1 => if read reg then ⟨reg, n + 1⟩ else trimFront read (reg + 1) n

/-- Skip the registers at the back that nothing reads. -/
def trimBack (read : ℕ → Bool) (reg : ℕ) : ℕ → ℕ
  | 0 => 0
  | n + 1 => if read (reg + n) then n + 1 else trimBack read reg n

/-- The smallest range with all registers that are read; a range nothing reads stays whole. -/
def trimSpan (read : ℕ → Bool) (s : Span) : Span :=
  let t := trimFront read s.reg s.len
  let len := trimBack read t.reg t.len
  if 0 < len then ⟨t.reg, len⟩ else s

/-- A register that some instruction or the end of the program reads. -/
def readAnywhere (R : Registry) (p : Program V) (r : ℕ) : Bool :=
  (p.code.any fun I => (p.eachRead R I).any fun s => decide (r ∈ s.regs)) || decide (r ∈ p.outRegs)

/-- `used_program_inputs`. -/
def usedProgramInputs (R : Registry) (p : Program V) (inputs : List Span) : List Span :=
  if p.code.any fun I => I.rule.has .noAdjoint && !I.isJump then inputs
  else inputs.map (trimSpan (p.readAnywhere R))

/-- A live-in narrowed to a part of its registers. -/
def LiveIn.narrow (li : LiveIn) (s : Span) : LiveIn :=
  { li with reg := s.reg, len := s.len, offset := li.offset + (s.reg - li.reg) }

/-- The windows `finalize_island_program_once` leaves. -/
def narrowInputs (R : Registry) (p : Program V) (ins : List LiveIn) : List LiveIn :=
  List.zipWith LiveIn.narrow ins (p.usedProgramInputs R (ins.map fun li => ⟨li.reg, li.len⟩))

/-! ## Seeding -/

/-- The values of live-in `k`: its window of the input it names, or of input `k`. -/
def LiveIn.values (li : LiveIn) (inputs : List (List V)) (k : ℕ) : List V :=
  (inputs.getD (li.input.getD k) []).window li.offset li.len

/-- What the live-ins from the `k`-th on seed: the first register of each, and its values. -/
def seeds (inputs : List (List V)) (k : ℕ) : List LiveIn → List (ℕ × List V)
  | [] => []
  | li :: ins => (li.reg, li.values inputs k) :: seeds inputs (k + 1) ins

/-- The first loop of `run_island`. -/
def seedIsland (ins : List LiveIn) (inputs : List (List V)) (reg : ℕ → V) : ℕ → V :=
  (seeds inputs 0 ins).foldl (fun reg e => writeRun reg e.1 e.2) reg

/-- The record of a live-in that has an input of its own. -/
def LiveIn.direct (li : LiveIn) : LiveIn := { li with input := none }

end Program

namespace Lowering

/-! ## Emitting ops -/

/-- A graph under construction, and the slot the last op emitted writes. -/
structure Emitted (U : Type*) where
  slot : ℕ
  graph : Graph U

/-- `add_slot`, for a slot that is no parameter. -/
def addSlot (g : Graph U) (len : ℕ) : Emitted U where
  slot := g.slots.length
  graph := { g with slots := g.slots ++ [⟨len, false⟩] }

/-- `emit_raw`, for the ops of this file: one or two inputs and no payload. -/
def emitRaw (opcode : Opcode) (ins : List ℕ) (outLen : ℕ) (idata : List ℤ) (g : Graph U) :
    Emitted U :=
  let o := addSlot g outLen
  { slot := o.slot
    graph := { o.graph with
      ops := g.ops ++ [{ opcode := opcode, out := o.slot, ins := ins, idata := idata }] } }

/-- The op that takes one window out of a slot. -/
def emitWindow (slot offset len : ℕ) (g : Graph U) : Emitted U :=
  emitRaw (if len = 1 then .index else .slice) [slot] len [(offset : ℤ)] g

/-! ## Packing the inputs -/

/-- The live-in records, the slots they are bound to, and the graph. -/
structure Bound (U : Type*) where
  ins : List LiveIn
  slots : List ℕ
  graph : Graph U

/-- One round of the first loop of `pack_island_inputs`. -/
def cutWindow (li : LiveIn) (slot : ℕ) (g : Graph U) : LiveIn × Emitted U :=
  if li.len = 0 ∨ li.len = g.len slot then (li, ⟨slot, g⟩)
  else ({ li with offset := 0 }, emitWindow slot li.offset li.len g)

/-- The first loop of `pack_island_inputs`: each leading live-in gets a slot that holds its window and
nothing else, unless it is empty or its slot does already. -/
def cutWindows : List LiveIn → List ℕ → Graph U → Bound U
  | li :: ins, slot :: slots, g =>
    let cut := cutWindow li slot g
    let rest := cutWindows ins slots cut.2.graph
    ⟨cut.1 :: rest.ins, cut.2.slot :: rest.slots, rest.graph⟩
  | ins, slots, g => ⟨ins, slots, g⟩

/-- The second loop: concatenate the slots behind what is packed already. -/
def concatSlots (packed packedLen : ℕ) : List ℕ → Graph U → Emitted U
  | [], g => ⟨packed, g⟩
  | slot :: slots, g =>
    let len := packedLen + g.len slot
    let e := emitRaw .concat2 [packed, slot] len [] g
    concatSlots e.slot len slots e.graph

/-- The third loop: point the records into the packed slot. -/
def rebase (g : Graph U) (offset : ℕ) : List LiveIn → List ℕ → List LiveIn
  | li :: ins, slot :: slots =>
    { li with input := some 0, offset := li.offset + offset } ::
      rebase g (offset + g.len slot) ins slots
  | ins, _ => ins

/-- One input for each record, counted from `k`. -/
def bindInputs (k : ℕ) : List LiveIn → List ℕ → List LiveIn
  | li :: ins, _ :: slots => { li with input := some k } :: bindInputs (k + 1) ins slots
  | ins, _ => ins

/-- `pack_island_inputs`. -/
def packIslandInputs (ins : List LiveIn) (inputs : List ℕ) (g : Graph U) : Bound U :=
  if inputs.length ≤ 6 then ⟨bindInputs 0 ins inputs, inputs, g⟩
  else
    let packedCount := inputs.length - 5
    let cut := cutWindows (ins.take packedCount) (inputs.take packedCount) g
    let packed := concatSlots (cut.slots.headD 0) (cut.graph.len (cut.slots.headD 0)) cut.slots.tail
      cut.graph
    { ins := rebase packed.graph 0 cut.ins cut.slots ++
        bindInputs 1 (ins.drop packedCount) (inputs.drop packedCount)
      slots := packed.slot :: inputs.drop packedCount
      graph := packed.graph }

/-! ## The island op -/

/-- The extractions of `emit_island`: one slot for each live-out. -/
def extract (island : ℕ) (offset : ℕ) : List ℕ → Graph U → List ℕ × Graph U
  | [], g => ([], g)
  | len :: lens, g =>
    let e := emitWindow island offset len g
    let rest := extract island (offset + len) lens e.graph
    (e.slot :: rest.1, rest.2)

/-- What `emit_island` leaves: the program with its records, the inputs of the island op, the graph
the op was added to, and the graph and the slots of the live-outs in the end. -/
structure IslandEmission (V : Type*) where
  prog : IslandProg V
  inputs : List ℕ
  packed : Graph (IslandProg V)
  graph : Graph (IslandProg V)
  outSlots : List ℕ

/-- The `OP_ISLAND` of a program. -/
def islandOp (prog : IslandProg V) (inputs : List ℕ) (out : ℕ) : Op (IslandProg V) :=
  { opcode := .island, out := out, ins := inputs, udata := some prog }

/-- `emit_island`.  `direct` says that `STANLI_NO_REGION_DIRECT_OUTPUT` is not set. -/
def emitIsland (direct : Bool) (prog : IslandProg V) (inSlots outLens : List ℕ)
    (g : Graph (IslandProg V)) : IslandEmission V :=
  let b := packIslandInputs prog.ins inSlots g
  let prog := { prog with ins := b.ins }
  let is := addSlot b.graph outLens.sum
  let g' := { is.graph with ops := b.graph.ops ++ [islandOp prog b.slots is.slot] }
  if direct && outLens.length == 1 && decide (0 < outLens.headD 0) then
    ⟨prog, b.slots, b.graph, g', [is.slot]⟩
  else
    let outs := extract is.slot 0 outLens g'
    ⟨prog, b.slots, b.graph, outs.2, outs.1⟩

end Lowering

end Stanli
