import Stanli.Lib.Scan
import Stanli.Program.Adjoint

/-!
# Generating an adjoint

`IslandProg.genAdjoint` is `gen_adjoint` of `adjoint.cpp`: reverse-mode source transformation over
the instruction list.  It refuses the programs it cannot differentiate, decides which registers share
an adjoint cell, which values the backward needs and the forward overwrites, and which basic blocks
the backward has to be told of, and emits for every forward instruction the saves around it and its
adjoint instruction.
-/

namespace Stanli

open Program

variable {V : Type*}

namespace Program

/-- `in_range`: `len` registers from `r` on lie in a file of `n0`. -/
def inRange (n0 r len : ℕ) : Bool := decide (r ≤ n0) && decide (len ≤ n0 - r)

/-- `in_range` of operand `k`, which may be a negative immediate. -/
def Instr.operandInRange (n0 : ℕ) (I : Instr) (k len : ℕ) : Bool :=
  (decide (k < 2) || decide (0 ≤ I.c)) && inRange n0 (I.operand k) len

/-- A branch. -/
def Instr.isJump (I : Instr) : Bool := decide (I.code = .jz ∨ I.code = .jmp)

/-- A density whose arguments are one run of registers. -/
def Instr.isRangedDensity (R : Registry) (I : Instr) : Bool :=
  decide (I.code = .density) && decide (3 < R.densityArity I.len)

/-- The instruction's `CALL` payload. -/
def callOf (p : Program V) (I : Instr) : Option Call :=
  if I.code = .call then p.calls[I.a]? else none

/-- `overlaps`. -/
def overlaps (x nx y ny : ℕ) : Bool :=
  decide (0 < nx) && decide (0 < ny) && decide (x < y + ny) && decide (y < x + nx)

end Program

namespace IslandProg

variable (R : Registry) (p : IslandProg V)

/-! ## What is refused -/

/-- The first loop: jumps go forward, messages and calls stay in the file, and no instruction
without an adjoint occurs but the jumps, `REJECT` and `EXTREMA_RANGE`. -/
def validInstr (pc : ℕ) (I : Instr) : Bool :=
  let n0 := p.nRegs
  (!I.isJump || (decide (pc < I.dst) && decide (I.dst ≤ p.code.length))) &&
  (decide (I.code ≠ .reject) ||
    match p.messages[I.a]? with
    | none => false
    | some message => message.values.all fun v => inRange n0 v.reg v.len) &&
  (!I.rule.has .noAdjoint || I.isJump || decide (I.code = .reject ∨ I.code = .extremaRange)) &&
  (decide (I.code ≠ .dynIndex) ||
    (decide (0 < I.len) && decide (I.a ≤ n0) && decide (0 ≤ I.c) && decide (I.c.toNat ≤ n0) &&
      inRange n0 (I.a + I.c.toNat) I.len && inRange n0 I.b 1)) &&
  (decide (I.code ≠ .call) ||
    match p.calls[I.a]? with
    | none => false
    | some call =>
      decide (call.ins.length ≤ 6) && call.forward.isSome && call.backward.isSome &&
      inRange n0 call.out.reg call.out.len &&
      (decide (call.scratch.len = 0) || inRange n0 call.scratch.reg call.scratch.len) &&
      call.ins.all fun i => inRange n0 i.reg i.len)

/-- `mark_write` accepts every register the instruction writes. -/
def writesInRange (I : Instr) : Bool := (p.writes I).all fun r => decide (r < p.nRegs)

/-- `first_write`: the first position that writes a register, or `-1`. -/
def firstWrite (r : ℕ) : ℤ :=
  match p.code.findIdx? (fun I => decide (r ∈ p.writes I)) with
  | none => -1
  | some i => i

/-- `last_write`. -/
def lastWrite : ℕ → ℤ := lastPositions (fun I r => decide (r ∈ p.writes I)) p.code

/-- `no_alias`: the live-ins and the registers whose adjoints a rule walks as a range keep a cell of
their own. -/
def noAlias (r : ℕ) : Bool :=
  p.ins.any (fun li => decide (r ∈ li.regs)) ||
  p.code.any fun I =>
    (I.isRangedDensity R && decide (r ∈ (Span.mk I.a (R.densityArity I.len)).regs)) ||
    (decide (I.code = .dynIndex) && decide (r ∈ (Span.mk (I.a + I.c.toNat) I.len).regs)) ||
    match p.callOf I with
    | some call => call.ins.any (fun i => decide (r ∈ i.regs)) || decide (r ∈ call.out.regs)
    | none => false

/-- The operands of an instruction: in the file, and disjoint from a range it writes or the same
range. -/
def validOperands (I : Instr) : Bool :=
  let n0 := p.nRegs
  let spec := I.rule
  if I.code = .dynIndex ∨ I.code = .call then true
  else if I.isRangedDensity R then inRange n0 I.a (R.densityArity I.len)
  else
    (spec.has .noInputs || (inRange n0 I.a 1 && inRange n0 I.b 1 && I.operandInRange n0 2 1)) &&
    (List.range 3).all fun k =>
      !I.reads k ||
        (let len := I.inputLen k
         I.operandInRange n0 k len &&
         !(decide (len = 1) && decide (1 < I.outputLen) && decide (I.code = .range) &&
            overlaps I.dst I.outputLen (I.operand k) 1) &&
         !(decide (1 < len) && overlaps I.dst I.outputLen (I.operand k) len &&
            !((spec.has .rangeOutput || decide (I.code = .range)) && decide (I.dst = I.operand k))))

/-! ## Extrema -/

/-- The registers the search for differentiated extrema follows an instruction to. -/
def sweptOperands (I : Instr) : List ℕ :=
  if I.isRangedDensity R then (Span.mk I.a (R.densityArity I.len)).regs
  else if I.code = .dynIndex then (Span.mk (I.a + I.c.toNat) I.len).regs
  else (List.range 3).flatMap fun k =>
    if I.reads k then (Span.mk (I.operand k) (I.inputLen k)).regs else []

/-- One step of the search, backwards: `none` when an extremum's result is needed. -/
def neededStep (operands : Instr → List ℕ) (I : Instr) (needed : List ℕ) : Option (List ℕ) :=
  match p.callOf I with
  | some call =>
    if call.out.regs.any (fun r => decide (r ∈ needed)) then
      some (call.ins.flatMap Span.regs ++ needed)
    else some needed
  | none =>
    if !(Span.mk I.dst I.outputLen).regs.any (fun r => decide (r ∈ needed)) then some needed
    else if I.code.isDiscrete then some needed
    else if I.code = .extremaRange then none
    else some (operands I ++ needed)

/-- The search for an extremum whose result reaches a live-out. -/
def neededSweep (operands : Instr → List ℕ) : Option (List ℕ) :=
  p.code.foldr (fun I needed => needed.bind (p.neededStep operands I)) (some p.outRegs)

/-! ## Control -/

/-- The program has a branch. -/
def control : Bool := p.code.any Instr.isJump

/-- What the definite-initialisation pass knows at a position: the registers written on every path
to it, whether it is reached, and what jumps bring to later positions. -/
structure InitState where
  values : List ℕ
  live : Bool := true
  pending : List (ℕ × List ℕ) := []

/-- `arrive`. -/
def InitState.arrive (pc : ℕ) (st : InitState) : InitState :=
  match st.pending.lookup pc with
  | none => st
  | some brought =>
    { values := if st.live then st.values.filter (· ∈ brought) else brought
      live := true
      pending := st.pending.filter fun e => e.1 ≠ pc }

/-- `propagate`. -/
def InitState.propagate (target : ℕ) (st : InitState) : InitState :=
  match st.pending.lookup target with
  | none => { st with pending := (target, st.values) :: st.pending }
  | some brought =>
    { st with
      pending := (target, brought.filter (· ∈ st.values)) ::
        st.pending.filter fun e => e.1 ≠ target }

/-- The live-in registers, which count as written. -/
def isLiveIn (r : ℕ) : Bool := p.ins.any fun li => decide (r ∈ li.regs)

/-- `available`. -/
def available (st : InitState) (s : Span) : Bool :=
  inRange p.nRegs s.reg s.len && s.regs.all fun r => p.isLiveIn r || decide (r ∈ st.values)

/-- The spans an instruction reads. -/
def readSpans (I : Instr) : List Span :=
  match p.callOf I with
  | some call => call.ins
  | none =>
    if I.isRangedDensity R then [⟨I.a, R.densityArity I.len⟩]
    else if I.code = .dynIndex then [⟨I.a + I.c.toNat, I.len⟩, ⟨I.b, 1⟩]
    else (List.range 3).flatMap fun k =>
      if I.reads k then [⟨I.operand k, I.inputLen k⟩] else []

/-- One instruction of the definite-initialisation pass. -/
def initStep (pc : ℕ) (I : Instr) (st : InitState) : Option InitState :=
  let st := st.arrive pc
  if !st.live then some st
  else if !(p.readSpans R I).all (p.available st) then none
  else
    let written : InitState := { st with values := p.writes I ++ st.values }
    if I.code = .reject then
      match p.messages[I.a]? with
      | none => none
      | some message =>
        if message.values.all (p.available written) then some { written with live := false }
        else none
    else if I.code = .jz then some (written.propagate I.dst)
    else if I.code = .jmp then some { written.propagate I.dst with live := false }
    else some written

/-- Under control flow every read and every live-out is written on every path to it. -/
def definitelyInitialised : Bool :=
  decide (0 < p.nRegs) &&
  match (p.code.zipIdx.foldl (fun st I => st.bind (p.initStep R I.2 I.1))
      (some { values := [] })).map (InitState.arrive p.code.length) with
  | none => false
  | some st => st.live && p.outRegs.all fun r => p.isLiveIn r || decide (r ∈ st.values)

/-- The checks of `gen_adjoint` before it emits anything. -/
def accepts : Bool :=
  (p.code.zipIdx.all fun I => p.validInstr I.2 I.1) &&
  p.code.all p.writesInRange &&
  (p.ins.all fun li => inRange p.nRegs li.reg li.len) &&
  p.code.all (p.validOperands R) &&
  (p.outRegs.all fun r => inRange p.nRegs r 1) &&
  (p.neededSweep (sweptOperands R)).isSome &&
  (!p.control || p.definitelyInitialised R)

/-- `leaders`: the positions where a basic block starts. -/
def leaders : List ℕ :=
  (List.range p.code.length).filter fun pc =>
    decide (pc = 0) || p.code.zipIdx.any fun I =>
      (I.1.isJump && (decide (I.1.dst = pc) || decide (I.2 + 1 = pc))) ||
      (decide (I.1.code = .reject) && decide (I.2 + 1 = pc))

/-- The basic block of a position. -/
def block (pc : ℕ) : ℕ := (p.leaders.filter (· ≤ pc)).length - 1

/-! ## Activity -/

/-- The registers that carry a parameter in front of each instruction grow forwards: one step. -/
def activeStep (I : Instr) (active : List ℕ) : List ℕ :=
  let isActive (s : Span) : Bool := s.regs.any fun r => decide (r ∈ active)
  match p.callOf I with
  | some call => if call.ins.any isActive then p.writes I ++ active else active
  | none =>
    if I.rule.has .noInputs then active
    else if I.code = .density then
      if (I.densityArgs R).any fun r => decide (r ∈ active) then p.writes I ++ active else active
    else if I.code = .dynIndex then
      if isActive ⟨I.a + I.c.toNat, I.len⟩ then p.writes I ++ active else active
    else
      if (List.range 3).any fun k => I.reads k && isActive ⟨I.operand k, I.inputLen k⟩ then
        p.writes I ++ active
      else active

/-- The live-in registers the carver marked active. -/
def activeIns : List ℕ := (p.ins.filter LiveIn.active).flatMap LiveIn.regs

/-- The registers that may carry a parameter in front of position `i`. -/
def activeAt (i : ℕ) : List ℕ :=
  (p.code.take i).foldl (fun active I => p.activeStep R I active) p.activeIns

/-- `dmask`: the arguments of a density that are downstream of a parameter. -/
def densityMask (i : ℕ) (I : Instr) : ℕ :=
  if I.code = .density then
    ((I.densityArgs R).zipIdx.map fun r => if r.1 ∈ p.activeAt R i then 2 ^ r.2 else 0).sum
  else 0xf

/-! ## Adjoint cells -/

/-- How many registers a copy moves. -/
def copyLen (I : Instr) : ℕ := if I.code = .mov then 1 else I.len

/-- `aliasable`: a copy whose destination only it writes and whose source is not written again. -/
def aliasable (I : Instr) (i : ℕ) : Bool :=
  decide (I.code = .mov ∨ I.code = .movr) && decide (0 < copyLen I) &&
  decide (I.dst + copyLen I ≤ p.nRegs) && decide (I.a + copyLen I ≤ p.nRegs) &&
  (List.range (copyLen I)).all fun k =>
    decide (p.firstWrite (I.dst + k) = i) && decide (p.lastWrite (I.dst + k) = i) &&
    decide (p.lastWrite (I.a + k) ≤ i) && !p.noAlias R (I.dst + k)

/-- An adjoint rule that only clears. -/
def onlyClears (I : Instr) : Bool :=
  I.rule.has .noInputs || I.code.isDiscrete || decide (I.code = .extremaRange)

/-- `produces_adjoint`. -/
def producesAdjoint (keepEveryClear : Bool) (I : Instr) (i : ℕ) : Bool :=
  if I.code = .call then true
  else if p.aliasable R I i then false
  else if I.outputLen = 0 then false
  else if !keepEveryClear && onlyClears I then
    !((List.range I.outputLen).all fun k =>
      decide (p.firstWrite (I.dst + k) = i) && !p.noAlias R (I.dst + k))
  else true

/-- The register whose adjoint cell each register uses, before the cells are numbered. -/
def adjRoot : ℕ → ℕ :=
  p.code.zipIdx.foldl (fun root I =>
    if p.aliasable R I.1 I.2 then
      (List.range (copyLen I.1)).foldl (fun root k =>
        Function.update root (I.1.dst + k) (root (I.1.a + k))) root
    else root) id

/-- `used_adj`: some register uses the cell of `r`. -/
def usedRoot (r : ℕ) : Bool := (List.range p.nRegs).any fun r' => decide (p.adjRoot R r' = r)

/-- `adj_reg`: the cell of a register, numbered densely. -/
def adjCell (r : ℕ) : ℕ := ((List.range (p.adjRoot R r)).filter (p.usedRoot R)).length

/-- The number of adjoint cells. -/
def adjCells : ℕ := ((List.range p.nRegs).filter (p.usedRoot R)).length

/-- `mapn`: the cells of a range, when they are consecutive. -/
def mapRange (r len : ℕ) : Option ℕ :=
  if len = 0 then some 0
  else if (List.range len).all fun k => decide (p.adjCell R (r + k) = p.adjCell R r + k) then
    some (p.adjCell R r)
  else none

/-! ## Emission -/

/-- The blocks that produce an adjoint, in order; a block's index among them is its segment. -/
def segmentBlocks (keep : Bool) : List ℕ :=
  (List.range p.leaders.length).filter fun b =>
    p.code.zipIdx.any fun I => decide (p.block I.2 = b) && p.producesAdjoint R keep I.1 I.2

/-- `segment_of`. -/
def segmentOf (keep : Bool) (b : ℕ) : Option ℕ := (p.segmentBlocks R keep).idxOf? b

/-- The number of segments. -/
def segmentCount (keep : Bool) : ℕ := if p.control then (p.segmentBlocks R keep).length else 0

/-- The program keeps a trail of the segments it takes. -/
def hasTrail (keep : Bool) : Bool := p.control && decide (0 < p.segmentCount R keep)

/-- A copy of `len` registers from `src` to fresh ones at `dst`. -/
structure Save where
  src : ℕ
  len : ℕ
  dst : ℕ
deriving DecidableEq, Repr

/-- The instruction of a save. -/
def Save.instr (s : Save) : Instr :=
  { code := if s.len = 1 then .mov else .movr, dst := s.dst, a := s.src, len := s.len }

/-- `checkpoint`: where a value is found, and the save that puts it there. -/
def checkpoint (nRegs r len : ℕ) (needed : Bool) : ℕ × List Save :=
  if needed then (nRegs, [⟨r, len, nRegs⟩]) else (r, [])

/-- The registers the saves take. -/
def savedCells (saves : List Save) : ℕ := (saves.map Save.len).sum

/-- Some register of the range is written after position `i`. -/
def writtenLater (r len i : ℕ) : Bool :=
  (List.range len).any fun k => decide ((i : ℤ) < p.lastWrite (r + k))

/-- `save_range`, of a value that is wanted: lost when a later instruction overwrites it. -/
def saveRange (wanted : Bool) (nRegs r len i : ℕ) : ℕ × List Save :=
  checkpoint nRegs r len (wanted && p.writtenLater r len i)

/-- `save_before`, of a value that is wanted as it stood on entry: lost when this instruction or a
later one overwrites it. -/
def saveBefore (wanted : Bool) (I : Instr) (nRegs r len i : ℕ) : ℕ × List Save :=
  checkpoint nRegs r len (wanted &&
    ((decide (r < I.dst + I.outputLen) && decide (I.dst < r + len)) || p.writtenLater r len i))

/-- What is emitted for one instruction: the saves before it, itself, the saves after it, its adjoint
instruction and its bound call. -/
structure Emitted where
  before : List Save := []
  instr : Instr
  after : List Save := []
  adj : Option AdjInstr := none
  call : Option Call := none
deriving DecidableEq, Repr

/-- The registers an instruction's saves take. -/
def Emitted.cells (e : Emitted) : ℕ := savedCells e.before + savedCells e.after

/-- Where the values of a call's inputs, from the `k`-th on, are found, and the saves of each. -/
def saveInputs (reads : PrimalReads) (i : ℕ) : List Span → ℕ → ℕ → List (ℕ × List Save)
  | [], _, _ => []
  | s :: ss, k, nRegs =>
    let ck := p.saveRange (reads.input k) nRegs s.reg s.len i
    ck :: saveInputs reads i ss (k + 1) (nRegs + savedCells ck.2)

/-- Emit a `CALL`: its payload becomes its own, with its ranges bound. -/
def emitCall (I : Instr) (i nRegs nCalls : ℕ) (call : Call) : Option Emitted := do
  let reads := R.callReads call
  let adjIn ← call.ins.mapM fun s => p.mapRange R s.reg s.len
  let saved := p.saveInputs reads i call.ins 0 nRegs
  let before := saved.flatMap Prod.snd
  let adjOut ← p.mapRange R call.out.reg call.out.len
  let out := p.saveRange reads.output (nRegs + savedCells before) call.out.reg call.out.len i
  return {
    before := before
    instr := { I with a := nCalls }
    after := out.2
    adj := some { code := .call, a := nCalls }
    call := some { call with
      bwdValueIn := saved.map Prod.fst, bwdAdjIn := adjIn, bwdValueOut := out.1,
      bwdAdjOut := adjOut } }

/-- The backward of the instruction wants the value of operand `k`: the flags say so, and for a
density its arity. -/
def wantsOperand (I : Instr) (k : ℕ) : Bool :=
  if I.code = .density then
    decide (k = 0) || (decide (R.densityArity I.len ≤ 3) && decide (k < R.densityArity I.len))
  else I.rule.has (match k with | 0 => .saveA | 1 => .saveB | _ => .saveC)

/-- How many registers of operand `k` are saved. -/
def savedLen (I : Instr) (k : ℕ) : ℕ :=
  if I.isRangedDensity R && decide (k = 0) then R.densityArity I.len else I.inputLen k

/-- Where the values of the operands are found, and the saves that put them there. -/
def operandSaves (I : Instr) (i nRegs : ℕ) : (ℕ × ℕ × ℕ) × List Save :=
  let save (nRegs k : ℕ) : ℕ × List Save :=
    p.saveBefore (wantsOperand R I k) I nRegs (I.operand k) (savedLen R I k) i
  let a := save nRegs 0
  let b := save (nRegs + savedCells a.2) 1
  let c := save (nRegs + savedCells a.2 + savedCells b.2) 2
  ((a.1, b.1, c.1), a.2 ++ b.2 ++ c.2)

/-- The adjoint cells of an instruction's operands. -/
def operandCells (I : Instr) : Option (ℕ × ℕ × ℕ) :=
  if I.code = .density then
    if 3 < R.densityArity I.len then do
      let a ← p.mapRange R I.a (R.densityArity I.len)
      return (a, I.b, I.c.toNat)
    else some (p.adjCell R I.a, p.adjCell R I.b, p.adjCell R I.c.toNat)
  else if I.code = .dynIndex then do
    let a ← p.mapRange R (I.a + I.c.toNat) I.len
    return (a, 0, 0)
  else if !I.rule.has .noInputs && decide (I.code ≠ .extremaRange) then do
    let a ← p.mapRange R I.a (I.inputLen 0)
    let b ← p.mapRange R I.b (if I.reads 1 then I.inputLen 1 else 1)
    let c ← p.mapRange R I.c.toNat (if I.reads 2 then I.inputLen 2 else 1)
    return (a, b, c)
  else some (I.a, I.b, I.c.toNat)

/-- The adjoint cell of an instruction's output. -/
def outputCell (I : Instr) : Option ℕ :=
  if 1 < I.outputLen then p.mapRange R I.dst I.outputLen else some (p.adjCell R I.dst)

/-- Emit one instruction. -/
def emit (keep : Bool) (I : Instr) (i nRegs nCalls : ℕ) : Option Emitted :=
  match p.callOf I with
  | some call => p.emitCall R I i nRegs nCalls call
  | none =>
    if p.aliasable R I i then some { instr := I }
    else
      let vals := p.operandSaves R I i nRegs
      if !p.producesAdjoint R keep I i then some { before := vals.2, instr := I }
      else do
        let out := p.saveRange (I.rule.has .saveOut) (nRegs + savedCells vals.2) I.dst I.outputLen i
        let dst ← p.outputCell R I
        let cells ← p.operandCells R I
        return {
          before := vals.2
          instr := I
          after := out.2
          adj := some {
            code := if I.code = .extremaRange then .const else I.code
            mask := if I.code = .range then I.law else p.densityMask R i I
            sub := I.sub
            bcast := I.bcast
            dst := dst
            a := cells.1
            b := cells.2.1
            c := cells.2.2
            len := I.len
            vd := out.1
            va := vals.1.1
            vb := vals.1.2.1
            vc := vals.1.2.2 } }

/-- Emit the instructions from position `i` on. -/
def emitFrom (keep : Bool) : List Instr → ℕ → ℕ → ℕ → Option (List Emitted)
  | [], _, _, _ => some []
  | I :: is, i, nRegs, nCalls => do
    let e ← p.emit R keep I i nRegs nCalls
    let es ← emitFrom keep is (i + 1) (nRegs + e.cells) (nCalls + e.call.toList.length)
    return e :: es

/-- The first free register after the trail. -/
def trailEnd (keep : Bool) : ℕ :=
  p.nRegs + p.segmentCount R keep + if p.hasTrail R keep then 1 else 0

/-- `PATH` at the start of a block that produces an adjoint. -/
def pathInstr (keep : Bool) (i : ℕ) : List Instr :=
  if p.control && decide (i ∈ p.leaders) then
    match p.segmentOf R keep (p.block i) with
    | some s => [{ code := .path, dst := p.nRegs, a := s, len := p.segmentCount R keep + 1 }]
    | none => []
  else []

/-- The instructions emitted for the one at position `i`, with the targets of jumps still those of
the original code. -/
def emittedBlock (keep : Bool) (e : Emitted) (i : ℕ) : List Instr :=
  p.pathInstr R keep i ++ e.before.map Save.instr ++ e.instr :: e.after.map Save.instr

/-- The instruction that clears the trail's count. -/
def clearTrail (keep : Bool) : List Instr :=
  if p.hasTrail R keep then [{ code := .const, dst := p.nRegs, a := p.pool.length }] else []

/-- Where a jump of the emitted code goes. -/
def retarget (pcMap : ℕ → ℕ) (I : Instr) : Instr :=
  if I.isJump then { I with dst := pcMap I.dst } else I

/-- The blocks of the emitted code, one for each instruction. -/
def emittedBlocks (keep : Bool) (es : List Emitted) : List (List Instr) :=
  es.zipIdx.map fun e => p.emittedBlock R keep e.1 e.2

/-- `pc_map`. -/
def pcMap (keep : Bool) (es : List Emitted) : ℕ → ℕ :=
  Branching.blockPos (p.clearTrail R keep).length (p.emittedBlocks R keep es)

/-- `adj_starts`: how many adjoint instructions the blocks before block `b` have. -/
def adjStart (es : List Emitted) (b : ℕ) : ℕ :=
  ((es.take (p.leaders.getD b p.code.length)).filterMap Emitted.adj).length

/-- The reversed range of the adjoint instructions of block `b`. -/
def segment (es : List Emitted) (b : ℕ) : ℕ × ℕ :=
  let total := (es.filterMap Emitted.adj).length
  if p.adjStart es b ≠ p.adjStart es (b + 1) then
    (total - p.adjStart es (b + 1), total - p.adjStart es b)
  else (0, 0)

/-- Some block has adjoint instructions and no segment. -/
def lostSegment (keep : Bool) (es : List Emitted) : Bool :=
  (List.range p.leaders.length).any fun b =>
    decide (p.adjStart es b ≠ p.adjStart es (b + 1)) && (p.segmentOf R keep b).isNone

/-- The program with the emitted code and its adjoint. -/
def assemble [Zero V] (keep : Bool) (es : List Emitted) : IslandProg V :=
  { p with
    code := (p.clearTrail R keep ++ (p.emittedBlocks R keep es).flatten).map
      (retarget (p.pcMap R keep es))
    calls := es.filterMap Emitted.call
    pool := if p.hasTrail R keep then p.pool ++ [0] else p.pool
    nRegs := p.trailEnd R keep + (es.map Emitted.cells).sum
    ins := p.ins.map fun li =>
      { li with immutable := li.regs.all fun r => decide (p.firstWrite r < 0) }
    adj := {
      code := (es.filterMap Emitted.adj).reverse
      segments := if p.hasTrail R keep then (p.segmentBlocks R keep).map (p.segment es) else []
      trail := if p.hasTrail R keep then p.nRegs else 0
      adjReg := (List.range p.nRegs).map (p.adjCell R)
      nRegs := p.adjCells R } }

/-- The differentiated program, or `none` when the program is refused. -/
def differentiate [Zero V] (keep : Bool) : Option (IslandProg V) :=
  if !p.accepts R then none
  else
    match p.emitFrom R keep p.code 0 (p.trailEnd R keep) 0 with
    | none => none
    | some es => if p.control && p.lostSegment R keep es then none else some (p.assemble R keep es)

/-- `gen_adjoint`: whether the program was differentiated, and the program as it is afterwards. -/
def genAdjoint [Zero V] (keep : Bool) : Bool × IslandProg V :=
  match p.differentiate R keep with
  | some q => (true, q)
  | none => (false, p)

end IslandProg

end Stanli
