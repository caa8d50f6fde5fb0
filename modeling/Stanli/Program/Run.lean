import Mathlib.Algebra.Field.Defs
import Mathlib.Algebra.BigOperators.Group.List.Defs
import Stanli.Lib.Branching
import Stanli.Program.Code

/-!
# Running a register program

`Program.exec` is one case of the switch in `run_program_impl`, `Instr.next` what the case does to
the program counter, and `Program.machine` both together.  The functions of Stan Math and the graph
kernels that the machine calls are a parameter (`StanMath`); values are exact.
-/

namespace Stanli

open Program

/-! ## What the machine calls -/

/-- `BackwardPrimalReads`: which values the backward of a kernel may read. -/
structure PrimalReads where
  inputMask : ℕ := 0x3f
  outputMask : ℕ := 0x03
deriving DecidableEq, Repr

/-- `BackwardPrimalReads::input`. -/
def PrimalReads.input (r : PrimalReads) (k : ℕ) : Bool := decide (6 ≤ k) || r.inputMask.testBit k

/-- `BackwardPrimalReads::output` of the first output. -/
def PrimalReads.output (r : PrimalReads) : Bool := r.outputMask.testBit 0

/-- The registered implementation of an opcode: its backward, and what it declares of it. -/
structure RegisteredKernel where
  backward : Option ℕ
  primalReads : Option (ℕ → PrimalReads)

/-- The tables a program is compiled against: `program_density_arity` and `find_kernel`. -/
structure Registry where
  densityArity : ℕ → ℕ
  findKernel : ℕ → Option RegisteredKernel

/-- What a kernel sees of a call besides values. -/
structure CallShape where
  variant : ℕ
  idata : List ℤ
  udata : Option ℕ
  outLen : ℕ
  scratchLen : ℕ
deriving DecidableEq, Repr

/-- The shape of a call. -/
def Program.Call.shape (call : Call) : CallShape :=
  ⟨call.variant, call.idata, call.udata, call.out.len, call.scratch.len⟩

/-- The functions of Stan Math and the kernels that a program calls, and their partials.  `V` are the
values, `E` what is thrown, `S` the state of the effects (the draw stream, what is printed). -/
structure StanMath (V E S : Type*) extends Registry where
  /-- `static_cast<int>`. -/
  toInt : V → ℤ
  ofInt : ℤ → V
  /-- `std::isfinite(x) && std::trunc(x) == x`. -/
  isWhole : V → Bool
  lt : V → V → Bool
  le : V → V → Bool
  eq : V → V → Bool
  modulus : ℤ → ℤ → Except E ℤ
  divide : ℤ → ℤ → Except E ℤ
  unary : Code → V → Except E V
  binary : Code → ℕ → V → V → Except E V
  logMix : V → V → V → Except E V
  logSumExp : List V → Except E V
  softmax : List V → List V
  /-- The grouped and the empty forms of `EXTREMA_RANGE`, by its `b` and `c`. -/
  extrema : Bool → ℤ → List V → Except E V
  mdivide : Code → ℤ → List V → List V → Except E (List V)
  density : ℕ → List V → Except E V
  densityVec : ℕ → ℕ → List (List V) → Except E V
  negInf : V
  /-- A kernel's forward: its output, its scratch. -/
  forward : ℕ → CallShape → List (List V) → S → Except E ((List V × List V) × S)
  transform : ℕ → List (List V) → Except E (List V × V)
  print : ℕ → List (List V) → S → S
  reject : ℕ → List (List V) → E
  outOfRange : String → E
  logicError : String → E
  /-- The partial of a unary function, from its argument or its value. -/
  unaryPartial : Code → V → V
  binaryPartial : Code → ℕ → V → V → V × V
  powPartial : ℕ → V → V → V → V × V
  logMixPartial : V → V → V → V × V × V
  expPartial : V → V
  densityPartial : ℕ → List V → ℕ → V
  extremaPartial : Bool → ℤ → List V → ℕ → V
  /-- A kernel's backward: from the values of the inputs and the output, the scratch and the
  adjoints of the output, the amount it adds to each element of each input's adjoint. -/
  backward : ℕ → CallShape → List (List V) → List V → List V → List V → List (List V)

/-- The primal reads `gen_adjoint` may rely on: those the registered kernel declares, when the call
runs that kernel. -/
def Registry.callReads (R : Registry) (call : Call) : PrimalReads :=
  match R.findKernel call.opcode with
  | some k =>
    match k.primalReads with
    | some reads =>
      if k.backward.isSome && decide (call.backward = k.backward) then reads call.variant else {}
    | none => {}
  | none => {}

namespace Program

/-! ## Registers -/

/-- The register file and the state of the effects. -/
structure File (V S : Type*) where
  reg : ℕ → V
  eff : S

variable {V E S : Type*}

/-- The values of a span. -/
def Span.read (s : Span) (reg : ℕ → V) : List V := s.regs.map reg

/-- Store consecutive values from register `dst` on. -/
def writeRun (reg : ℕ → V) (dst : ℕ) (vs : List V) : ℕ → V := fun r =>
  if dst ≤ r then (vs[r - dst]?).getD (reg r) else reg r

/-- `for k < n: reg[dst + k] = f(k, reg)`, each element judged in the file as it stands then. -/
def writeLoop (f : ℕ → (ℕ → V) → Except E V) (dst n : ℕ) (reg : ℕ → V) : Except E (ℕ → V) :=
  (List.range n).foldlM (fun reg k => (f k reg).map (Function.update reg (dst + k))) reg

/-- `for k < n: reg[dst + k] = f(k, reg)` with the elements in descending order. -/
def writeLoopDown (f : ℕ → (ℕ → V) → V) (dst n : ℕ) (reg : ℕ → V) : ℕ → V :=
  (List.range n).foldr (fun k reg => Function.update reg (dst + k) (f k reg)) reg

/-! ## One instruction -/

/-- The rules `run_range` and `ranged_step` know. -/
def Code.elementwise (code : Code) : Bool :=
  decide (code ∈ [Code.add, .sub, .mul, .div, .pow, .fmax, .fmin, .neg, .exp, .log, .sqrt, .square,
    .inv, .fabs, .invLogit, .log1m, .log1pExp, .tanh, .erfc, .log1p, .log1mExp, .invSquare, .lse2,
    .logDiffExp, .lmultiply, .logMix, .fma])

end Program

section Scalar

variable {V E S : Type*} [Field V]

/-- The instructions that compute one value from the values of their operands `a`, `b`, `c`. -/
def StanMath.scalar (M : StanMath V E S) (code : Code) (law : ℕ) (x y z : V) : Except E V :=
  match code with
  | .add => .ok (x + y)
  | .sub => .ok (x - y)
  | .mul => .ok (x * y)
  | .div => .ok (x / y)
  | .iadd => .ok (M.ofInt (M.toInt x + M.toInt y))
  | .isub => .ok (M.ofInt (M.toInt x - M.toInt y))
  | .imul => .ok (M.ofInt (M.toInt x * M.toInt y))
  | .ineg => .ok (M.ofInt (-M.toInt x))
  | .iabs => .ok (M.ofInt (if M.toInt x < 0 then -M.toInt x else M.toInt x))
  | .imod => (M.modulus (M.toInt x) (M.toInt y)).map M.ofInt
  | .idiv => (M.divide (M.toInt x) (M.toInt y)).map M.ofInt
  | .pow | .fmax | .fmin => M.binary code law x y
  | .lse2 | .logDiffExp | .lmultiply => M.binary code 0 x y
  | .neg => .ok (-x)
  | .gt => .ok (if M.lt y x then 1 else 0)
  | .ge => .ok (if M.le y x then 1 else 0)
  | .lt => .ok (if M.lt x y then 1 else 0)
  | .le => .ok (if M.le x y then 1 else 0)
  | .eq => .ok (if M.eq x y then 1 else 0)
  | .ne => .ok (if M.eq x y then 0 else 1)
  | .logMix => M.logMix x y z
  | .fma => .ok (x * y + z)
  | code => M.unary code x

/-- `raw` as an index into `len` elements, from zero. -/
def StanMath.index (M : StanMath V E S) (message : String) (raw : V) (len : ℕ) : Except E ℕ :=
  if M.isWhole raw && decide (1 ≤ M.toInt raw) && decide (M.toInt raw ≤ len) then
    .ok (M.toInt raw - 1).toNat
  else .error (M.outOfRange message)

/-- `EXTREMA_RANGE`: the scalar form keeps the first of equal elements; the grouped forms and the
empty range are Stan Math's. -/
def StanMath.extremum (M : StanMath V E S) (maximum : Bool) (c : ℤ) (xs : List V) : Except E V :=
  match xs with
  | [] => M.extrema maximum c []
  | x :: xs =>
    if c.toNat.testBit 1 then
      .ok (xs.foldl (fun selected candidate =>
        if maximum then if M.lt selected candidate then candidate else selected
        else if M.lt candidate selected then candidate else selected) x)
    else M.extrema maximum c (x :: xs)

end Scalar

namespace Program

variable {V E S : Type*} [Field V]

/-- The registers of a `DENSITY`'s arguments: operands, or one run when it takes more than three. -/
def Instr.densityArgs (R : Registry) (I : Instr) : List ℕ :=
  if 3 < R.densityArity I.len then (Span.mk I.a (R.densityArity I.len)).regs
  else (List.range (R.densityArity I.len)).map I.operand

/-- The stride of operand `k` of a `RANGE`. -/
def Instr.stride (I : Instr) (k : ℕ) : ℕ :=
  if (k = 0 ∨ I.reads k) ∧ 1 < I.inputLen k then 1 else 0

/-- Keep the effects. -/
def File.withReg {V S : Type*} (s : File V S) (r : Except E (ℕ → V)) : Except E (File V S) :=
  r.map fun reg => { s with reg := reg }

/-- Store one register. -/
def File.set {V S : Type*} (s : File V S) (dst : ℕ) (v : V) : File V S :=
  { s with reg := Function.update s.reg dst v }

/-- One case of the switch in `run_program_impl`, without the jump. -/
def exec (M : StanMath V E S) (p : Program V) (I : Instr) (s : File V S) : Except E (File V S) :=
  let reg := s.reg
  let put (v : Except E V) : Except E (File V S) := v.map (s.set I.dst)
  match I.code with
  | .const => put (.ok (p.pool.getD I.a 0))
  | .fill => s.withReg (.ok (writeRun reg I.dst (List.replicate I.len (p.pool.getD I.a 0))))
  | .constr => s.withReg (writeLoop (fun k _ => .ok (p.pool.getD (I.a + k) 0)) I.dst I.len reg)
  | .path =>
    let taken := M.toInt (reg I.dst)
    .ok ((s.set (I.dst + 1 + taken.toNat) (M.ofInt I.a)).set I.dst (M.ofInt (taken + 1)))
  | .mov => put (.ok (reg I.a))
  | .movr => s.withReg (writeLoop (fun k reg => .ok (reg (I.a + k))) I.dst I.len reg)
  | .dynSet =>
    (M.index "register-program assignment index out of range" (reg I.c.toNat) I.len).map fun n =>
      let copied := if I.a < I.dst ∧ I.dst < I.a + I.len then
          writeLoopDown (fun k reg => reg (I.a + k)) I.dst I.len reg
        else if I.dst ≠ I.a then writeRun reg I.dst ((Span.mk I.a I.len).read reg)
        else reg
      (File.mk copied s.eff).set (I.dst + n) (reg I.b)
  | .dynIndex =>
    put ((M.index "register-program index out of range" (reg I.b) I.len).map fun n =>
      reg (I.a + I.c.toNat + n))
  | .extremaRange => put (M.extremum (decide (I.b ≠ 0)) I.c ((Span.mk I.a I.len).read reg))
  | .jz | .jmp => .ok s
  | .logRange => s.withReg (writeLoop (fun k reg => M.unary .log (reg (I.a + k))) I.dst I.len reg)
  | .expRange => s.withReg (writeLoop (fun k reg => M.unary .exp (reg (I.a + k))) I.dst I.len reg)
  | .dot => put (.ok ((List.range I.len).map fun k => reg (I.a + k) * reg (I.b + k)).sum)
  | .dynLseRange =>
    let lo := M.toInt (reg I.b)
    let hi := M.toInt (reg I.c.toNat)
    if !(M.isWhole (reg I.b) && M.isWhole (reg I.c.toNat)) then
      .error (M.outOfRange "register-program slice bounds invalid")
    else if hi < lo then put (.ok M.negInf)
    else if lo < 1 ∨ (I.len : ℤ) < hi then
      .error (M.outOfRange "register-program slice out of range")
    else put (M.logSumExp ((Span.mk (I.a + (lo - 1).toNat) (hi - lo + 1).toNat).read reg))
  | .lseRange => put (M.logSumExp ((Span.mk I.a I.len).read reg))
  | .softmax =>
    let soft := M.softmax ((Span.mk I.a I.len).read reg)
    s.withReg (writeLoop (fun k _ => .ok (soft.getD k 0)) I.dst I.len reg)
  | .diagPreMultiply =>
    let rows := I.c.toNat
    s.withReg (.ok (writeRun reg I.dst ((List.range (rows * I.len)).map fun k =>
      reg (I.a + k % rows) * reg (I.b + k))))
  | .diagPostMultiply =>
    let rows := I.c.toNat
    s.withReg (.ok (writeRun reg I.dst ((List.range (rows * I.len)).map fun k =>
      reg (I.b + k) * reg (I.a + k / rows))))
  | .mdivideLeft | .mdivideRightSpd =>
    let n := I.c.natAbs
    if n = 0 ∨ I.len = 0 then .ok s
    else
      let m := if I.c < 0 then n else n * (I.len / n)
      s.withReg ((M.mdivide I.code I.c ((Span.mk I.a (n * n)).read reg)
        ((Span.mk I.b m).read reg)).map fun vs => writeRun reg I.dst (vs.take m))
  | .density => put (M.density I.len ((I.densityArgs M.toRegistry).map reg))
  | .call =>
    match p.calls[I.a]? with
    | none => .error (M.logicError "CALL payload")
    | some call =>
      match call.forward with
      | none => .error (M.logicError "unbound Program::CALL forward")
      | some f =>
        (M.forward f call.shape (call.ins.map fun i => i.read reg) s.eff).map fun r =>
          ⟨writeRun (writeRun reg call.out.reg (r.1.1.take call.out.len)) call.scratch.reg
            (r.1.2.take call.scratch.len), r.2⟩
  | .transform =>
    match p.transforms[I.a]? with
    | none => .error (M.logicError "TRANSFORM payload")
    | some tr =>
      (M.transform tr.rule (tr.ins.map fun i => i.read reg)).map fun r =>
        (File.mk (writeRun reg tr.out.reg (r.1.take tr.out.len)) s.eff).set tr.jac r.2
  | .print =>
    match p.messages[I.a]? with
    | none => .error (M.logicError "PRINT payload")
    | some message =>
      .ok { s with eff := M.print message.spec (message.values.map fun i => i.read reg) s.eff }
  | .reject =>
    match p.messages[I.a]? with
    | none => .error (M.logicError "REJECT payload")
    | some message => .error (M.reject message.spec (message.values.map fun i => i.read reg))
  | .densityVec =>
    match p.vecDensities[I.a]? with
    | none => .error (M.logicError "DENSITY_VEC payload")
    | some v => put (M.densityVec v.densityId v.containerMask (v.args.map fun i => i.read reg))
  | .range =>
    if I.sub.elementwise then
      s.withReg (writeLoop (fun k reg => M.scalar I.sub I.law (reg (I.a + I.stride 0 * k))
        (reg (I.b + I.stride 1 * k)) (reg (I.c.toNat + I.stride 2 * k))) I.dst I.len reg)
    else .error (M.logicError "run_range: unknown sub-opcode")
  | code => put (M.scalar code I.len (reg I.a) (reg I.b) (reg I.c.toNat))

/-- Where control goes from an instruction at position `pc`. -/
def Instr.next (M : StanMath V E S) (I : Instr) (pc : ℕ) (s : File V S) : ℕ :=
  match I.code with
  | .jz => if M.eq (s.reg I.a) 0 then I.dst else pc + 1
  | .jmp => I.dst
  | _ => pc + 1

/-- `run_program_impl` as a machine with branches. -/
def machine (M : StanMath V E S) (p : Program V) : Branching Instr (File V S) E where
  exec := p.exec M
  next := Instr.next M

/-- The positions a run visits with the file it finds there, and how it ends. -/
def Runs (M : StanMath V E S) (p : Program V) (s : File V S) (vs : List (ℕ × File V S))
    (r : Except E (File V S)) : Prop :=
  ∃ fuel, (p.machine M).run p.code fuel 0 s = some (vs, r)

/-- The branches a run takes: for each `JZ` on its way, whether it jumps. -/
def branches (M : StanMath V E S) (p : Program V) (vs : List (ℕ × File V S)) : List Bool :=
  vs.filterMap fun v => (p.code[v.1]?).bind fun I =>
    if I.code = .jz then some (M.eq (v.2.reg I.a) 0) else none

end Program

end Stanli
