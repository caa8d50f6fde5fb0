import Stanli.Lib.Erasure
import Stanli.Program.GenAdjoint

/-!
# Propagating copies

`Program.propagateCopies` is `propagate_program_copies` of `program.cpp`.  A forward scan keeps for
every register the register it is a copy of, intersects these facts where branches meet, and lets
operands read the original; a backward scan over the result drops the stores nobody reads.
-/

namespace Stanli

open Program

namespace Program

variable {V : Type*}

/-! ## What instructions touch -/

/-- `each_write`. -/
def eachWrite (p : Program V) (I : Instr) : List Span :=
  match I.code with
  | .call =>
    match p.calls[I.a]? with
    | some call => [call.out, call.scratch]
    | none => []
  | .transform =>
    match p.transforms[I.a]? with
    | some tr => [tr.out, ⟨tr.jac, 1⟩]
    | none => []
  | _ => if 0 < I.outputLen then [⟨I.dst, I.outputLen⟩] else []

/-- The operands of an instruction that is no `CALL`, by their number, with how many registers of each
it reads: what `each_read_operand` may rewrite. -/
def Instr.readOperands (R : Registry) (I : Instr) : List (ℕ × ℕ) :=
  if I.code = .dynIndex then [(1, 1)]
  else if I.code = .density then
    let arity := R.densityArity I.len
    if 3 < arity then [(0, arity)]
    else (0, 1) :: ((if 1 < arity then [(1, 1)] else []) ++ if 2 < arity then [(2, 1)] else [])
  else if I.rule.has .noInputs then []
  else (0, I.inputLen 0) :: ((if I.rule.has .readB then [(1, I.inputLen 1)] else []) ++
    if I.rule.has .readC then [(2, I.inputLen 2)] else [])

/-- `each_read`. -/
def eachRead (R : Registry) (p : Program V) (I : Instr) : List Span :=
  match I.code with
  | .dynIndex => [⟨I.a + I.c.toNat, I.len⟩, ⟨I.b, 1⟩]
  | .call =>
    match p.calls[I.a]? with
    | some call => call.ins
    | none => []
  | .transform =>
    match p.transforms[I.a]? with
    | some tr => tr.ins
    | none => []
  | .densityVec =>
    match p.vecDensities[I.a]? with
    | some v => v.args
    | none => []
  | .print | .reject =>
    match p.messages[I.a]? with
    | some message => message.values
    | none => []
  | _ => (I.readOperands R).map fun o => ⟨I.operand o.1, o.2⟩

/-- `copy_eligible_op`. -/
def copyEligible (p : Program V) (I : Instr) : Bool :=
  I.isJump || (!I.rule.has .noAdjoint && (decide (I.code ≠ .call) || decide (I.a < p.calls.length)))

/-- `in_file`. -/
def inFile (p : Program V) (s : Span) : Bool := decide (s.reg + s.len ≤ p.nRegs)

/-- Every register an instruction writes or reads is in the file; an operand `c` may be a negative
immediate. -/
def spansInFile (R : Registry) (p : Program V) (I : Instr) : Bool :=
  (p.eachWrite I).all p.inFile && (p.eachRead R I).all p.inFile &&
    ((I.readOperands R).all fun o => decide (o.1 < 2) || decide (0 ≤ I.c))

/-- `MOV` and `MOVR`. -/
def Instr.isMove (I : Instr) : Bool := decide (I.code = .mov ∨ I.code = .movr)

/-- A branch goes to a position. -/
def isTarget (p : Program V) (pc : ℕ) : Bool :=
  p.code.any fun I => I.isJump && decide (I.dst = pc)

/-- How many instructions use a payload. -/
def callUses (p : Program V) (call : ℕ) : ℕ :=
  p.code.countP fun I => decide (I.code = .call) && decide (I.a = call)

/-- The checks in front of the scans. -/
def copiesEligible (R : Registry) (p : Program V) (seeded : List Span) : Bool :=
  decide (p.code ≠ []) && decide (0 < p.nRegs) &&
  p.code.all p.copyEligible &&
  (p.code.zipIdx.all fun e =>
    !e.1.isJump || (decide (e.2 < e.1.dst) && decide (e.1.dst ≤ p.code.length))) &&
  p.code.any Instr.isMove &&
  decide (p.nRegs * ((List.range (p.code.length + 1)).countP p.isTarget + 1) ≤ 2 ^ 25) &&
  p.code.all (p.spansInFile R) &&
  p.outRegs.all (fun r => p.inFile ⟨r, 1⟩) &&
  seeded.all fun s => decide (s.len = 0) || p.inFile s

/-! ## The forward scan -/

/-- What the forward scan knows in front of a position: `copy_of` with its inverse `dependents`, what
branches have brought to the positions ahead, the code and the payloads rewritten so far. -/
structure CopyScan where
  copyOf : ℕ → Option ℕ := fun _ => none
  dependents : ℕ → List ℕ := fun _ => []
  arrived : ℕ → Option (ℕ → Option ℕ) := fun _ => none
  reachable : Bool := true
  code : List Instr := []
  calls : List Call
  noOp : List Bool := []
  changed : Bool := false

namespace CopyScan

/-- `reload`. -/
def reload (n : ℕ) (state : ℕ → Option ℕ) (st : CopyScan) : CopyScan :=
  { st with
    copyOf := state
    dependents := fun b => (List.range n).filter fun r => decide (state r = some b) }

/-- `kill`. -/
def kill (st : CopyScan) (reg : ℕ) : CopyScan :=
  { st with
    copyOf := Function.update ((st.dependents reg).foldl
      (fun f dep => if f dep = some reg then Function.update f dep none else f) st.copyOf) reg none
    dependents := Function.update st.dependents reg [] }

/-- `kill` of every register of some spans. -/
def killAll (st : CopyScan) (writes : List Span) : CopyScan :=
  (writes.flatMap Span.regs).foldl kill st

/-- One register is a copy of another from here on. -/
def record (st : CopyScan) (reg root : ℕ) : CopyScan :=
  { st with
    copyOf := Function.update st.copyOf reg (some root)
    dependents := Function.update st.dependents root (st.dependents root ++ [reg]) }

/-- The facts that two branches share. -/
def meet (f g : ℕ → Option ℕ) (reg : ℕ) : Option ℕ := if f reg = g reg then f reg else none

/-- Control arrives at a position: falling through, by the branches that go there, or both.  Where
nothing arrives nothing is known. -/
def arrive (n : ℕ) (target : Bool) (pc : ℕ) (st : CopyScan) : CopyScan :=
  if target then
    match st.arrived pc with
    | some incoming =>
      let st' := if st.reachable then { st with copyOf := meet st.copyOf incoming }
        else st.reload n incoming
      { st' with reachable := true, arrived := Function.update st'.arrived pc none }
    | none => if st.reachable then st else { st.reload n fun _ => none with reachable := true }
  else if st.reachable then st else { st.reload n fun _ => none with reachable := true }

/-- What a branch leaves at its target. -/
def brought (st : CopyScan) (dst : ℕ) : ℕ → Option ℕ :=
  match st.arrived dst with
  | none => st.copyOf
  | some slot => meet slot st.copyOf

/-- A branch brings what is known to its target. -/
def bring (st : CopyScan) (dst : ℕ) : CopyScan :=
  { st with arrived := Function.update st.arrived dst (some (st.brought dst)) }

end CopyScan

/-- Where an operand of `len` registers from `reg` on can read instead: every register is a copy of
the corresponding one of a run, and the instruction writes none of the registers unless it writes
exactly them. -/
def rewriteTo (copyOf : ℕ → Option ℕ) (writes : List Span) (reg len : ℕ) : Option ℕ :=
  match copyOf reg with
  | none => none
  | some base =>
    if 0 < len ∧ base ≠ reg ∧ (∀ k < len, copyOf (reg + k) = some (base + k)) ∧
        ∀ w ∈ writes, ¬(reg < w.reg + w.len ∧ w.reg < reg + len ∧ ¬(reg = w.reg ∧ len = w.len)) then
      some base
    else none

/-- Replace operand `k`. -/
def Instr.setOperand (I : Instr) (k reg : ℕ) : Instr :=
  match k with
  | 0 => { I with a := reg }
  | 1 => { I with b := reg }
  | _ => { I with c := reg }

/-- The rewriting of one operand. -/
def rewriteOperand (copyOf : ℕ → Option ℕ) (writes : List Span) (I : Instr) (o : ℕ × ℕ) : Instr :=
  match rewriteTo copyOf writes (I.operand o.1) o.2 with
  | some base => I.setOperand o.1 base
  | none => I

/-- The rewriting of the operands of an instruction that is no `CALL`. -/
def rewriteOperands (R : Registry) (copyOf : ℕ → Option ℕ) (writes : List Span) (I : Instr) : Instr :=
  (I.readOperands R).foldl (rewriteOperand copyOf writes) I

/-- The rewriting of the inputs of a payload. -/
def Call.rewriteInputs (copyOf : ℕ → Option ℕ) (writes : List Span) (call : Call) : Call :=
  { call with ins := call.ins.map fun i => ⟨(rewriteTo copyOf writes i.reg i.len).getD i.reg, i.len⟩ }

/-- The copies a move makes: the original of each source register, unless it is overwritten. -/
def moveRoots (copyOf : ℕ → Option ℕ) (a dst len : ℕ) : List (Option ℕ) :=
  (List.range len).map fun k =>
    let root := (copyOf (a + k)).getD (a + k)
    if (a + len ≤ dst ∨ dst + len ≤ a) ∧ (root < dst ∨ dst + len ≤ root) then some root else none

/-- The registers a move copies. -/
def Instr.moveLen (I : Instr) : ℕ := if I.code = .mov then 1 else I.len

/-- Record the copy of one register of a move. -/
def CopyScan.recordRoot (dst : ℕ) (st : CopyScan) (e : Option ℕ × ℕ) : CopyScan :=
  match e.1 with
  | none => st
  | some root => st.record (dst + e.2) root

/-- Record the copies of a move. -/
def CopyScan.recordRoots (st : CopyScan) (dst : ℕ) (roots : List (Option ℕ)) : CopyScan :=
  roots.zipIdx.foldl (CopyScan.recordRoot dst) st

/-- An instruction, rewritten, with the payloads. -/
def rewriteInstr (R : Registry) (p : Program V) (st : CopyScan) (I : Instr) : Instr × List Call :=
  let writes := (p.eachWrite I).filter fun s => decide (0 < s.len)
  if I.code = .call then
    if p.callUses I.a = 1 then
      (I, st.calls.modify I.a (Call.rewriteInputs st.copyOf writes))
    else (I, st.calls)
  else (rewriteOperands R st.copyOf writes I, st.calls)

/-- A move onto itself. -/
def Instr.isNoOp (I : Instr) : Bool :=
  I.isMove && decide (0 < I.moveLen) && decide (I.a = I.dst)

/-- What an instruction does to the facts. -/
def CopyScan.transfer (p : Program V) (st : CopyScan) (I : Instr) : CopyScan :=
  let writes := (p.eachWrite I).filter fun s => decide (0 < s.len)
  if I.isNoOp then st
  else if I.isMove then
    (st.killAll writes).recordRoots I.dst (moveRoots st.copyOf I.a I.dst I.moveLen)
  else st.killAll writes

/-- One instruction of the forward scan. -/
def copyStep (R : Registry) (p : Program V) (pc : ℕ) (I : Instr) (st : CopyScan) : CopyScan :=
  let st := st.arrive p.nRegs (p.isTarget pc) pc
  let J := p.rewriteInstr R st I
  let st' := st.transfer p J.1
  let st' := if J.1.isJump then st'.bring J.1.dst else st'
  { st' with
    reachable := st'.reachable && decide (J.1.code ≠ .jmp)
    code := st.code ++ [J.1]
    calls := J.2
    noOp := st.noOp ++ [J.1.isNoOp]
    changed := st.changed || decide (J ≠ (I, st.calls)) || J.1.isNoOp }

/-- The forward scan in front of position `pc`. -/
def copyScanAt (R : Registry) (p : Program V) (pc : ℕ) : CopyScan :=
  (p.code.zipIdx.take pc).foldl (fun st e => p.copyStep R e.2 e.1 st) { calls := p.calls }

/-- The forward scan. -/
def copyScan (R : Registry) (p : Program V) : CopyScan := p.copyScanAt R p.code.length

/-! ## The backward scan -/

/-- What the backward scan knows behind a position: the live registers, those in front of the branch
targets behind it, and which of the instructions behind it are dropped. -/
structure LiveScan where
  live : ℕ → Bool
  snapshot : ℕ → ℕ → Bool := fun _ _ => false
  remove : List Bool := []

/-- The stores that can be dropped. -/
def Instr.droppable (I : Instr) : Bool :=
  decide (I.code = .mov ∨ I.code = .movr ∨ I.code = .const ∨ I.code = .constr ∨ I.code = .fill)

/-- The live registers behind an instruction, with those at the target of a branch. -/
def LiveScan.behind (st : LiveScan) (I : Instr) (r : ℕ) : Bool :=
  if I.code = .jmp then st.snapshot I.dst r
  else if I.code = .jz then st.live r || st.snapshot I.dst r
  else st.live r

/-- Whether an instruction is dropped. -/
def LiveScan.removable (p : Program V) (pinned : ℕ → Bool) (noOp : Bool) (st : LiveScan) (I : Instr) :
    Bool :=
  noOp || (I.droppable &&
    (p.eachWrite I).all fun s => s.regs.all fun r => !st.behind I r && !pinned r)

/-- One instruction of the backward scan. -/
def liveStep (R : Registry) (p : Program V) (pinned : ℕ → Bool) (target noOp : Bool) (pc : ℕ)
    (I : Instr) (st : LiveScan) : LiveScan :=
  let gone := st.removable p pinned noOp I
  let live := if gone then st.behind I else fun r =>
    ((p.eachRead R I).any fun s => decide (r ∈ s.regs)) ||
      (st.behind I r && !(p.eachWrite I).any fun s => decide (r ∈ s.regs))
  { live := live
    snapshot := if target then Function.update st.snapshot pc live else st.snapshot
    remove := gone :: st.remove }

/-- The backward scan of a program from its end down to position `pc`. -/
def liveScanAt (R : Registry) (p : Program V) (pinned : ℕ → Bool) (noOp : List Bool) (pc : ℕ) :
    LiveScan :=
  let outs : ℕ → Bool := fun r => decide (r ∈ p.outRegs)
  let n := p.code.length
  (p.code.zipIdx.drop pc).foldr
    (fun e st => p.liveStep R pinned (p.isTarget e.2) (noOp.getD e.2 false) e.2 e.1 st)
    { live := outs
      snapshot := if p.isTarget n then Function.update (fun _ _ => false) n outs
        else fun _ _ => false }

/-! ## The pass -/

/-- The program behind the forward scan. -/
def forwarded (R : Registry) (p : Program V) : Program V :=
  { p with code := (p.copyScan R).code, calls := (p.copyScan R).calls }

/-- The registers that the caller has seeded. -/
def pinnedBy (seeded : List Span) (r : ℕ) : Bool := seeded.any fun s => decide (r ∈ s.regs)

/-- The instructions that are dropped. -/
def removed (R : Registry) (p : Program V) (seeded : List Span) : List Bool :=
  ((p.forwarded R).liveScanAt R (pinnedBy seeded) (p.copyScan R).noOp 0).remove

/-- `propagate_program_copies`: whether the program changed, and the program.  `disabled` is the
environment's `STANLI_NO_COPY_PROP`. -/
def propagateCopies (R : Registry) (disabled : Bool) (p : Program V) (seeded : List Span) :
    Bool × Program V :=
  if disabled || !p.copiesEligible R seeded then (false, p)
  else
    let q := p.forwarded R
    let gone := p.removed R seeded
    if gone.all (!·) then ((p.copyScan R).changed, q)
    else (true, { q with code := (erase gone q.code).map (IslandProg.retarget (erasedPos gone)) })

end Program

end Stanli
