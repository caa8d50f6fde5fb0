import Mathlib.Tactic.Ring
import Stanli.Lib.Accumulate
import Stanli.Program.Run

/-!
# Running a generated adjoint

`AdjProgram.runAdjoint` is `run_adjoint` of `adjoint.cpp`: every instruction consumes the adjoint of
its output, clears it, and adds to the adjoints of its operands, with the values it needs read from
the register file the forward run left.

`Program.pullback` is what one instruction of the executed path means in reverse mode: the transpose
of its partial derivatives, taken at the file it found, applied to the adjoints behind it.
-/

namespace Stanli

open Program

variable {V E S : Type*} [Field V]

/-! ## The rules -/

/-- The unary functions whose pullback reads the value instead of the argument (`from_out`). -/
def Program.Code.fromOut (code : Code) : Bool :=
  decide (code ∈ [Code.exp, .sqrt, .invLogit])

/-- `kDivSafeGrouping`. -/
def divSafeGrouping : ℕ := 1

/-- The pullback of a unary function in `STANLI_PROGRAM_UNARY_LIST`. -/
def StanMath.unaryPull (M : StanMath V E S) (code : Code) (t va vd : V) : V :=
  let z := if code.fromOut then vd else va
  match code with
  | .exp => t * z
  | .log => t / z
  | .square => t * 2 * z
  | .invLogit => t * z * (1 - z)
  | .log1m => t / (z - 1)
  | code => t * M.unaryPartial code z

/-- What a scalar rule adds to the adjoints of its operands (`0` for `a`, `1` for `b`, `2` for `c`)
when it consumes `t`, from the values at `va`, `vb`, `vc`, `vd`. -/
def StanMath.pull (M : StanMath V E S) (code : Code) (law : ℕ) (t va vb vc vd : V) :
    List (ℕ × V) :=
  match code with
  | .add => [(0, t), (1, t)]
  | .sub => [(0, t), (1, -t)]
  | .mul => [(0, vb * t), (1, va * t)]
  | .fma => [(0, vb * t), (1, va * t), (2, t)]
  | .div =>
    if law = divSafeGrouping then [(0, t / vb), (1, -vd * (t / vb))]
    else [(0, t / vb), (1, -(t * va) / (vb * vb))]
  | .pow =>
    let d := M.powPartial law va vb vd
    [(0, t * d.1), (1, t * d.2)]
  | .fmax | .fmin =>
    let d := M.binaryPartial code law va vb
    [(0, t * d.1), (1, t * d.2)]
  | .neg => [(0, -t)]
  | .lse2 | .logDiffExp | .lmultiply =>
    let d := M.binaryPartial code 0 va vb
    [(0, t * d.1), (1, t * d.2)]
  | .logMix =>
    let d := M.logMixPartial va vb vc
    [(2, t * d.2.2), (1, t * d.2.1), (0, t * d.1)]
  | code => [(0, M.unaryPull code t va vd)]

namespace Program

/-- Operand `k` (`a`, `b`, `c`) as an adjoint cell. -/
def AdjInstr.operand (I : AdjInstr) : ℕ → ℕ
  | 0 => I.a
  | 1 => I.b
  | _ => I.c

/-- Where the value of operand `k` is found. -/
def AdjInstr.value (I : AdjInstr) : ℕ → ℕ
  | 0 => I.va
  | 1 => I.vb
  | _ => I.vc

/-- The stride of operand `k` in `ranged_step`. -/
def AdjInstr.stride (I : AdjInstr) (k : ℕ) : ℕ :=
  if (k = 0 ∨ I.sub.has (if k = 1 then .readB else .readC)) ∧ !I.bcast.testBit k then 1 else 0

/-- `ranged_step`: the scalar rule over every element, ascending. -/
def rangedStep (M : StanMath V E S) (I : AdjInstr) (val adj : ℕ → V) : ℕ → V :=
  takeLoop (fun k u =>
    (M.pull I.sub I.mask u (val (I.va + I.stride 0 * k)) (val (I.vb + I.stride 1 * k))
      (val (I.vc + I.stride 2 * k)) (val (I.vd + k))).map fun e =>
        (I.operand e.1 + I.stride e.1 * k, e.2)) I.dst I.len adj

/-- The partials of a density, for the arguments the mask names, in descending order. -/
def AdjInstr.densityPulls (M : StanMath V E S) (I : AdjInstr) (t : V) (args : List V)
    (cell : ℕ → ℕ) : List (ℕ × V) :=
  (((List.range args.length).filter fun k => I.mask.testBit k).map fun k =>
    (cell k, t * M.densityPartial I.len args k)).reverse

/-- What the backward of a kernel adds, for the inputs that receive adjoints. -/
def Call.pulls (call : Call) (adjIn : List ℕ) (amounts : List (List V)) : List (ℕ × V) :=
  (List.range call.ins.length).flatMap fun k =>
    if call.inputAdjointMask.testBit k then
      (List.range ((call.ins.map Span.len).getD k 0)).map fun j =>
        (adjIn.getD k 0 + j, (amounts.getD k []).getD j 0)
    else []

/-- One case of the switch in `run_adjoint`. -/
def adjStep (M : StanMath V E S) (p : Program V) (val : ℕ → V) (I : AdjInstr) (adj : ℕ → V) :
    ℕ → V :=
  let t := adj I.dst
  let cleared := Function.update adj I.dst 0
  match I.code with
  | .call =>
    match p.calls[I.a]? with
    | none => adj
    | some call =>
      let ins := (call.bwdValueIn.zip (call.ins.map Span.len)).map fun i => (Span.mk i.1 i.2).read val
      let out := (Span.mk call.bwdValueOut call.out.len).read val
      let outAdj := (Span.mk call.bwdAdjOut call.out.len).read adj
      let amounts := match call.backward with
        | some f => M.backward f call.shape ins out (call.scratch.read val) outAdj
        | none => []
      clearRun (addAll adj (call.pulls call.bwdAdjIn amounts)) call.bwdAdjOut call.out.len
  | .const => cleared
  | .fill | .constr => clearRun adj I.dst I.len
  | .mov => addAll cleared [(I.a, t)]
  | .movr =>
    if I.a = I.dst then takeLoop (fun k u => [(I.a + k, u)]) I.dst I.len adj
    else clearRun (addAll adj ((List.range I.len).map fun k => (I.a + k, adj (I.dst + k)))) I.dst I.len
  | .gt | .ge | .lt | .le | .eq | .ne => cleared
  | .imod | .idiv | .iadd | .isub | .imul | .ineg | .iabs => cleared
  | .logRange =>
    if I.a = I.dst then takeLoop (fun k u => [(I.a + k, u / val (I.va + k))]) I.dst I.len adj
    else clearRun (addAll adj ((List.range I.len).map fun k =>
      (I.a + k, adj (I.dst + k) / val (I.va + k)))) I.dst I.len
  | .expRange =>
    if I.a = I.dst then takeLoop (fun k u => [(I.a + k, u * val (I.vd + k))]) I.dst I.len adj
    else clearRun (addAll adj ((List.range I.len).map fun k =>
      (I.a + k, adj (I.dst + k) * val (I.vd + k)))) I.dst I.len
  | .dot =>
    addAll cleared ((List.range I.len).flatMap fun k =>
      [(I.a + k, t * val (I.vb + k)), (I.b + k, t * val (I.va + k))])
  | .lseRange =>
    addAll cleared ((List.range I.len).map fun k =>
      (I.a + k, t * M.expPartial (val (I.va + k) - val I.vd)))
  | .softmax =>
    let d := ((List.range I.len).map fun k => val (I.vd + k) * adj (I.dst + k)).sum
    takeLoop (fun k u => [(I.a + k, val (I.vd + k) * (u - d))]) I.dst I.len adj
  | .density =>
    if I.mask = 0 then cleared
    else
      let arity := M.densityArity I.len
      if 3 < arity then
        addAll cleared (I.densityPulls M t ((Span.mk I.va arity).read val) fun k => I.a + k)
      else
        addAll cleared (I.densityPulls M t ((List.range arity).map fun k => val (I.value k))
          I.operand)
  | .range => rangedStep M I val adj
  | .dynIndex => addAll cleared [(I.a + (M.toInt (val I.vb) - 1).toNat, t)]
  | .dynSet | .dynLseRange | .extremaRange | .jz | .jmp | .diagPreMultiply | .diagPostMultiply
  | .mdivideLeft | .mdivideRightSpd | .transform | .print | .reject | .densityVec | .path => adj
  | code =>
    addAll cleared ((M.pull code I.len t (val I.va) (val I.vb) (val I.vc) (val I.vd)).map fun e =>
      (I.operand e.1, e.2))

/-- `run_segment`. -/
def runSegment (M : StanMath V E S) (p : Program V) (ap : AdjProgram) (val : ℕ → V)
    (seg : ℕ × ℕ) (adj : ℕ → V) : ℕ → V :=
  ((ap.code.drop seg.1).take (seg.2 - seg.1)).foldl (fun adj I => adjStep M p val I adj) adj

/-- `run_adjoint`: the whole code, or the segments the trail names, the last one first. -/
def runAdjoint (M : StanMath V E S) (p : Program V) (ap : AdjProgram) (val adj : ℕ → V) : ℕ → V :=
  if ap.segments = [] then runSegment M p ap val (0, ap.code.length) adj
  else
    (List.range (M.toInt (val ap.trail)).toNat).foldr (fun k adj =>
      runSegment M p ap val (ap.segments.getD (M.toInt (val (ap.trail + 1 + k))).toNat (0, 0)) adj) adj

end Program

/-! ## Reverse mode -/

/-- The partials of a scalar rule with respect to its operands, at the operands' values `x`, `y`, `z`
and the rule's value `out`. -/
def StanMath.partials (M : StanMath V E S) (code : Code) (law : ℕ) (x y z out : V) :
    List (ℕ × V) :=
  match code with
  | .add => [(0, 1), (1, 1)]
  | .sub => [(0, 1), (1, -1)]
  | .mul => [(0, y), (1, x)]
  | .fma => [(0, y), (1, x), (2, 1)]
  | .div => [(0, 1 / y), (1, -x / (y * y))]
  | .pow =>
    let d := M.powPartial law x y out
    [(0, d.1), (1, d.2)]
  | .fmax | .fmin =>
    let d := M.binaryPartial code law x y
    [(0, d.1), (1, d.2)]
  | .neg => [(0, -1)]
  | .lse2 | .logDiffExp | .lmultiply =>
    let d := M.binaryPartial code 0 x y
    [(0, d.1), (1, d.2)]
  | .logMix =>
    let d := M.logMixPartial x y z
    [(0, d.1), (1, d.2.1), (2, d.2.2)]
  | .exp => [(0, out)]
  | .log => [(0, 1 / x)]
  | .square => [(0, 2 * x)]
  | .invLogit => [(0, out * (1 - out))]
  | .log1m => [(0, 1 / (x - 1))]
  | code => [(0, M.unaryPartial code (if code.fromOut then out else x))]

namespace Program

/-- The comparisons and the integer operations, which have no derivative. -/
def Code.isDiscrete (code : Code) : Bool :=
  decide (code ∈ [Code.gt, .ge, .lt, .le, .eq, .ne, .imod, .idiv, .iadd, .isub, .imul, .ineg, .iabs])

/-- The partial derivatives of an instruction that found the registers `x` and left `y`: which
output element, which register, and the partial.  A `CALL` has its kernel's pullback instead. -/
def Instr.jacobian (M : StanMath V E S) (I : Instr) (x y : ℕ → V) : List (ℕ × ℕ × V) :=
  match I.code with
  | .mov => [(0, I.a, 1)]
  | .movr => (List.range I.len).map fun k => (k, I.a + k, 1)
  | .dynIndex => [(0, I.a + I.c.toNat + (M.toInt (x I.b) - 1).toNat, 1)]
  | .extremaRange =>
    (List.range I.len).map fun k =>
      (0, I.a + k, M.extremaPartial (decide (I.b ≠ 0)) I.c ((Span.mk I.a I.len).read x) k)
  | .logRange => (List.range I.len).map fun k => (k, I.a + k, 1 / x (I.a + k))
  | .expRange => (List.range I.len).map fun k => (k, I.a + k, y (I.dst + k))
  | .dot => (List.range I.len).flatMap fun k =>
      [(0, I.a + k, x (I.b + k)), (0, I.b + k, x (I.a + k))]
  | .lseRange => (List.range I.len).map fun k => (0, I.a + k, M.expPartial (x (I.a + k) - y I.dst))
  | .softmax => (List.range I.len).flatMap fun j => (List.range I.len).map fun k =>
      (k, I.a + j, y (I.dst + k) * ((if j = k then 1 else 0) - y (I.dst + j)))
  | .density =>
    let args := I.densityArgs M.toRegistry
    (List.range args.length).map fun k =>
      (0, args.getD k 0, M.densityPartial I.len (args.map x) k)
  | .range => (List.range I.len).flatMap fun k =>
      (M.partials I.sub I.law (x (I.a + I.stride 0 * k)) (x (I.b + I.stride 1 * k))
        (x (I.c.toNat + I.stride 2 * k)) (y (I.dst + k))).map fun e =>
          (k, I.operand e.1 + I.stride e.1 * k, e.2)
  | code =>
    if code.elementwise then
      (M.partials code I.len (x I.a) (x I.b) (x I.c.toNat) (y I.dst)).map fun e =>
        (0, I.operand e.1, e.2)
    else []

/-- The registers an instruction writes. -/
def writes (p : Program V) (I : Instr) : List ℕ :=
  if I.code = .call then
    match p.calls[I.a]? with
    | some call => call.out.regs ++ call.scratch.regs
    | none => []
  else (Span.mk I.dst I.outputLen).regs

/-- What an instruction contributes to the adjoints of the registers it read, when the adjoints
behind it are `seed`. -/
def pulled (M : StanMath V E S) (p : Program V) (I : Instr) (x y : ℕ → V) (seed : ℕ → V) :
    List (ℕ × V) :=
  if I.code = .call then
    match p.calls[I.a]? with
    | some call =>
      match call.backward with
      | some f => call.pulls (call.ins.map Span.reg) (M.backward f call.shape
          (call.ins.map fun i => i.read x) (call.out.read y) (call.scratch.read y)
          (call.out.read seed))
      | none => []
    | none => []
  else (I.jacobian M x y).map fun e => (e.2.1, seed (I.dst + e.1) * e.2.2)

/-- The adjoints in front of an instruction, from those behind it: what the instruction overwrote
has none left, and every register it read receives its contributions. -/
def pullback (M : StanMath V E S) (p : Program V) (I : Instr) (x y : ℕ → V) (seed : ℕ → V) :
    ℕ → V := fun r =>
  (if r ∈ p.writes I then 0 else seed r) + gather (p.pulled M I x y seed) r

/-- Reverse mode along an executed path: the adjoints at its start, from those at its end. -/
def pathAdjoint (M : StanMath V E S) (p : Program V) (vs : List (ℕ × File V S)) (seed : ℕ → V) :
    ℕ → V :=
  vs.foldr (fun v seed =>
    match p.code[v.1]? with
    | none => seed
    | some I =>
      match p.exec M I v.2 with
      | .ok s' => p.pullback M I v.2.reg s'.reg seed
      | .error _ => seed) seed

end Program

end Stanli
