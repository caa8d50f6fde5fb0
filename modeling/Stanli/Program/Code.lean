import Mathlib.Data.Int.Notation
import Mathlib.Data.Nat.Notation
import Mathlib.Tactic.Common

/-!
# Register programs

The data model of `program.hpp`: a flat instruction list over a register file, with one row of
structural facts for each instruction code, and the island program of `island.hpp` and `adjoint.hpp`
that adds the seeded ranges and the generated backward.

A register is its index.  `c` is the one field of an instruction that is also used for signed
immediates (the shape marker of `MDIVIDE_*`, the grouping of `EXTREMA_RANGE`).
-/

namespace Stanli

namespace Program

/-- `STANLI_PROGRAM_CODE_LIST`. -/
inductive Code
  | const | fill | constr | mov | movr
  | add | sub | mul | div
  | imod | idiv | iadd | isub | imul | ineg | iabs
  | pow | fmax | fmin | neg
  | exp | log | sqrt | square | inv | fabs | invLogit | log1m | log1pExp | tanh
  | gt | ge | lt | le | eq | ne
  | dynSet | dynIndex | extremaRange | jz | jmp
  | logRange | expRange | dot | dynLseRange | lseRange | softmax
  | lse2 | logDiffExp | lmultiply | logMix | fma
  | diagPreMultiply | diagPostMultiply | mdivideLeft | mdivideRightSpd
  | density | call | transform | print | reject | densityVec | range
  | erfc | log1p | log1mExp | invSquare
  | path
deriving DecidableEq, Repr

/-- `ProgramOpFlag`. -/
inductive Flag
  | noInputs | noAdjoint | rangeA | rangeB | saveA | saveB | saveC | saveOut | noOutput
  | rangeOutput | readB | readC
deriving DecidableEq, Repr

open Stanli.Program.Flag in
/-- `kProgramOpSpecs`. -/
def Code.flags : Code → List Flag
  | .const => [noInputs]
  | .fill => [noInputs, rangeOutput]
  | .constr => [noInputs, rangeOutput]
  | .mov => []
  | .movr => [rangeA, rangeOutput]
  | .add => [readB]
  | .sub => [readB]
  | .mul => [readB, saveA, saveB]
  | .div => [readB, saveA, saveB, saveOut]
  | .imod => [readB]
  | .idiv => [readB]
  | .iadd => [readB]
  | .isub => [readB]
  | .imul => [readB]
  | .ineg => []
  | .iabs => []
  | .pow => [readB, saveA, saveB, saveOut]
  | .fmax => [readB, saveA, saveB]
  | .fmin => [readB, saveA, saveB]
  | .neg => []
  | .exp => [saveOut]
  | .log => [saveA]
  | .sqrt => [saveOut]
  | .square => [saveA]
  | .inv => [saveA]
  | .fabs => [saveA]
  | .invLogit => [saveOut]
  | .log1m => [saveA]
  | .log1pExp => [saveA]
  | .tanh => [saveA]
  | .gt => [readB]
  | .ge => [readB]
  | .lt => [readB]
  | .le => [readB]
  | .eq => [readB]
  | .ne => [readB]
  | .dynSet => [rangeA, readB, readC, rangeOutput, noAdjoint]
  | .dynIndex => [readB, saveB]
  | .extremaRange => [rangeA, noAdjoint]
  | .jz => [noAdjoint, noOutput]
  | .jmp => [noInputs, noAdjoint, noOutput]
  | .logRange => [rangeA, saveA, rangeOutput]
  | .expRange => [rangeA, saveOut, rangeOutput]
  | .dot => [rangeA, rangeB, readB, saveA, saveB]
  | .dynLseRange => [rangeA, readB, readC, noAdjoint]
  | .lseRange => [rangeA, saveA, saveOut]
  | .softmax => [rangeA, saveOut, rangeOutput]
  | .lse2 => [readB, saveA, saveB]
  | .logDiffExp => [readB, saveA, saveB]
  | .lmultiply => [readB, saveA, saveB]
  | .logMix => [readB, readC, saveA, saveB, saveC]
  | .fma => [readB, readC, saveA, saveB]
  | .diagPreMultiply => [readB, noAdjoint]
  | .diagPostMultiply => [readB, noAdjoint]
  | .mdivideLeft => [rangeA, rangeB, readB, rangeOutput, noAdjoint]
  | .mdivideRightSpd => [rangeA, rangeB, readB, rangeOutput, noAdjoint]
  | .density => []
  | .call => []
  | .transform => [noInputs, noAdjoint, noOutput]
  | .print => [noInputs, noAdjoint, noOutput]
  | .reject => [noInputs, noAdjoint, noOutput]
  | .densityVec => [noAdjoint]
  | .range => []
  | .erfc => [saveA]
  | .log1p => [saveA]
  | .log1mExp => [saveA]
  | .invSquare => [saveA]
  | .path => [noInputs, rangeOutput, noAdjoint]

/-- `ProgramOpSpec::has`. -/
def Code.has (code : Code) (flag : Flag) : Bool := decide (flag ∈ code.flags)

/-- One instruction.  `sub`, `bcast` and `law` belong to `RANGE`: the elementwise rule, which
operands stay at one register (bit `k`), and the rule's law. -/
structure Instr where
  code : Code
  sub : Code := .const
  bcast : ℕ := 0
  law : ℕ := 0
  dst : ℕ := 0
  a : ℕ := 0
  b : ℕ := 0
  c : ℤ := 0
  len : ℕ := 0
deriving DecidableEq, Repr

namespace Instr

/-- Operand `k` (`a`, `b`, `c`) as a register. -/
def operand (I : Instr) : ℕ → ℕ
  | 0 => I.a
  | 1 => I.b
  | _ => I.c.toNat

/-- `program_rule`: the rule an instruction applies, itself or a `RANGE`'s per-element one. -/
def rule (I : Instr) : Code := if I.code = .range then I.sub else I.code

/-- `program_output_len`. -/
def outputLen (I : Instr) : ℕ :=
  if I.code = .range then I.len
  else if I.code = .diagPreMultiply ∨ I.code = .diagPostMultiply then I.c.toNat * I.len
  else if I.code.has .noOutput then 0
  else if I.code.has .rangeOutput then I.len
  else 1

/-- `program_reads`: whether operand `k` is read. -/
def reads (I : Instr) : ℕ → Bool
  | 0 => !I.rule.has .noInputs
  | 1 => I.rule.has .readB
  | _ => I.rule.has .readC

/-- `program_input_len`. -/
def inputLen (I : Instr) (k : ℕ) : ℕ :=
  if I.code = .range then if I.bcast.testBit k then 1 else I.len
  else if k = 0 then if I.code.has .rangeA then I.len else 1
  else if k = 1 then if I.code.has .rangeB then I.len else 1
  else 1

end Instr

/-- Consecutive registers. -/
structure Span where
  reg : ℕ
  len : ℕ
deriving DecidableEq, Repr

/-- The registers of a span. -/
def Span.regs (s : Span) : List ℕ := (List.range s.len).map (s.reg + ·)

/-- A `CALL`'s payload: which kernel, and which register ranges stand in for its slots.  A kernel's
functions are named by their identity.  The `bwd` fields are bound by `gen_adjoint`. -/
structure Call where
  opcode : ℕ
  variant : ℕ := 0
  inputAdjointMask : ℕ := 0x3f
  forward : Option ℕ := none
  backward : Option ℕ := none
  ins : List Span
  out : Span
  scratch : Span := ⟨0, 0⟩
  idata : List ℤ := []
  udata : Option ℕ := none
  bwdValueIn : List ℕ := []
  bwdAdjIn : List ℕ := []
  bwdValueOut : ℕ := 0
  bwdAdjOut : ℕ := 0
deriving DecidableEq, Repr

/-- A `PRINT` or `REJECT` payload: the literal template, named by its identity, and the registers
of the runtime values. -/
structure Message where
  spec : ℕ
  values : List Span
deriving DecidableEq, Repr

/-- A callable constraint transform.  `rule` stands for its kind, direction and shapes. -/
structure Transform where
  rule : ℕ
  ins : List Span
  out : Span
  jac : ℕ
deriving DecidableEq, Repr

/-- A `DENSITY_VEC`'s payload: argument `k` is one register or a container of `len` of them. -/
structure VecDensity where
  densityId : ℕ
  containerMask : ℕ
  len : ℕ
  argReg : List ℕ
deriving DecidableEq, Repr

/-- The argument spans of a `DENSITY_VEC`. -/
def VecDensity.args (v : VecDensity) : List Span :=
  v.argReg.zipIdx.map fun r => ⟨r.1, if v.containerMask.testBit r.2 then v.len else 1⟩

end Program

/-- A compiled register program.  The payload tables are indexed by the `a` of their instructions. -/
structure Program (V : Type*) where
  code : List Program.Instr
  calls : List Program.Call := []
  transforms : List Program.Transform := []
  messages : List Program.Message := []
  pool : List V := []
  vecDensities : List Program.VecDensity := []
  nRegs : ℕ
  outRegs : List ℕ
deriving DecidableEq, Repr

namespace Program

/-- One forward instruction, differentiated.  `dst`, `a`, `b`, `c` index the adjoint file and `vd`,
`va`, `vb`, `vc` the value file. -/
structure AdjInstr where
  code : Code
  mask : ℕ := 0xf
  sub : Code := .const
  bcast : ℕ := 0
  dst : ℕ := 0
  a : ℕ := 0
  b : ℕ := 0
  c : ℕ := 0
  len : ℕ := 0
  vd : ℕ := 0
  va : ℕ := 0
  vb : ℕ := 0
  vc : ℕ := 0
deriving DecidableEq, Repr

/-- The generated backward, in reverse execution order.  Under control flow `segments` holds the
`[begin, end)` of each block that produces an adjoint, and `trail` the register that counts the
segments taken. -/
structure AdjProgram where
  code : List AdjInstr := []
  segments : List (ℕ × ℕ) := []
  trail : ℕ := 0
  adjReg : List ℕ := []
  nRegs : ℕ := 0
deriving DecidableEq, Repr

/-- Live-in `k` seeds the registers `[reg, reg + len)` from `[offset, offset + len)` of an input. -/
structure LiveIn where
  reg : ℕ
  len : ℕ
  input : Option ℕ := none
  offset : ℕ := 0
  active : Bool := true
  immutable : Bool := false
deriving DecidableEq, Repr

/-- The registers a live-in seeds. -/
def LiveIn.regs (li : LiveIn) : List ℕ := (Span.mk li.reg li.len).regs

end Program

/-- An island program: a register program with its live-ins and its generated adjoint. -/
structure IslandProg (V : Type*) extends Program V where
  ins : List Program.LiveIn
  adj : Program.AdjProgram := {}
deriving DecidableEq, Repr

end Stanli
