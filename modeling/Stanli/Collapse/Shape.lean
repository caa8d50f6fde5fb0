import Stanli.Graph.Sweep
import Stanli.Passes.Cse

/-!
# How an op's output follows from its inputs

`classify` of `collapse.cpp`: the ops the observation collapse models, each a pure, whole write of its
output, and what each of them computes.  The elementwise ops and the scalar ones are arbitrary functions
of their opcode, variant, operands and immediates; a matrix-vector product is an arbitrary function of
each row and the whole vector; an op of no other shape may leave anything in its outputs.
-/

namespace Stanli.Collapse

variable {U V : Type*}

/-! ## Shapes -/

inductive Shape
  /-- Not modelled: every output element is its own value. -/
  | fresh
  /-- `out[i] = f(in0[i or 0], in1[i or 0], ...)`. -/
  | elementwise
  /-- `out[k] = in[idata[k]]`. -/
  | gather
  /-- `out[0] = in[idata[0]]`. -/
  | index
  /-- `out = in0` with `out[idata[0]] = in1[0]`. -/
  | store
  /-- `out[i] = in[start + i * stride]`. -/
  | sliceRead
  /-- `out = in0` with `out[start + i * stride] = in1[i]`. -/
  | sliceWrite
  /-- `out = X * beta`, `X` column-major. -/
  | matvec
  /-- One value, a function of its inputs and immediates. -/
  | pureScalar
deriving DecidableEq, Repr

def kMaxKeyedIdata : ℕ := 64

def sliceStride (op : Op U) : ℤ :=
  if op.opcode ∈ [Opcode.slice, .setSlice, .setSliceInplace] then
    if op.idata.length = 1 then 1 else 0
  else if op.opcode ∈ [Opcode.sliceStrided, .setSliceStrided, .setSliceStridedInplace] then
    if op.idata.length = 2 then op.imm 1 else 0
  else 0

/-- The elementwise ops, over inputs as long as the output or of length one. -/
def isElementwise (g : Graph U) (op : Op U) : Bool :=
  (op.opcode.hasTrait .rerollWidenable || decide (op.opcode = .bcastFma)) &&
    decide (1 ≤ op.ins.length ∧ op.ins.length ≤ 3 ∧ op.idata = []) &&
    op.ins.all fun s => decide (g.len s = 1 ∨ g.len s = g.len op.out)

/-- `classify`.  `find_kernel` answers for the `registered` opcodes. -/
def classify (registered makesState : Opcode → Bool) (g : Graph U) (op : Op U) : Shape :=
  let len : ℤ := g.len op.out
  let inLen (j : ℕ) : ℤ := g.len (op.input j)
  if op.out2.isSome || op.udata.isSome || decide (op.dynLengths ≠ 0) then .fresh
  else if isElementwise g op then .elementwise
  else if op.opcode = .gather then
    if op.ins.length = 1 ∧ (op.idata.length : ℤ) = len ∧ ∀ k ∈ op.idata, 0 ≤ k ∧ k < inLen 0 then
      .gather
    else .fresh
  else if op.opcode = .index then
    if op.ins.length = 1 ∧ op.idata.length = 1 ∧ len = 1 ∧ 0 ≤ op.imm 0 ∧ op.imm 0 < inLen 0 then
      .index
    else .fresh
  else if op.opcode ∈ [Opcode.setIndex, .setIndexInplace] then
    if op.ins.length = 2 ∧ op.idata.length = 1 ∧ inLen 0 = len ∧ inLen 1 = 1 ∧ 0 ≤ op.imm 0 ∧
        op.imm 0 < len then .store
    else .fresh
  else if op.opcode ∈ [Opcode.slice, .sliceStrided] then
    if op.ins.length = 1 ∧ 0 < sliceStride op ∧ 0 ≤ op.imm 0 ∧
        (len = 0 ∨ op.imm 0 + (len - 1) * sliceStride op < inLen 0) then .sliceRead
    else .fresh
  else if op.opcode ∈ [Opcode.setSlice, .setSliceInplace, .setSliceStrided, .setSliceStridedInplace]
  then
    if op.ins.length = 2 ∧ 0 < sliceStride op ∧ inLen 0 = len ∧ 0 ≤ op.imm 0 ∧
        (inLen 1 = 0 ∨ op.imm 0 + (inLen 1 - 1) * sliceStride op < len) then .sliceWrite
    else .fresh
  else if op.opcode = .matvec then
    if op.ins.length = 2 ∧ op.idata.length = 2 ∧ op.imm 0 = len ∧ op.imm 1 = inLen 1 ∧
        inLen 0 = op.imm 0 * op.imm 1 then .matvec
    else .fresh
  else if len = 1 ∧ op.idata.length ≤ kMaxKeyedIdata ∧ op.opcode.neverMerge = false ∧
      registered op.opcode = true ∧ makesState op.opcode = false then .pureScalar
  else .fresh

/-- What `classify` has checked. -/
inductive Classified (g : Graph U) (op : Op U) : Shape → Prop
  | fresh : Classified g op .fresh
  | elementwise (hlen : ∀ s ∈ op.ins, g.len s = 1 ∨ g.len s = g.len op.out) :
      Classified g op .elementwise
  | gather (hk : ∀ k < g.len op.out, (op.imm k).toNat < g.len (op.input 0)) :
      Classified g op .gather
  | index (hlen : g.len op.out = 1) (hk : (op.imm 0).toNat < g.len (op.input 0)) :
      Classified g op .index
  | store (hlen : g.len (op.input 0) = g.len op.out) (hone : g.len (op.input 1) = 1) :
      Classified g op .store
  | sliceRead (hk : ∀ k < g.len op.out,
      (op.imm 0).toNat + k * (sliceStride op).toNat < g.len (op.input 0)) :
      Classified g op .sliceRead
  | sliceWrite (hlen : g.len (op.input 0) = g.len op.out) : Classified g op .sliceWrite
  | matvec (hlen : g.len (op.input 0) = g.len op.out * g.len (op.input 1)) :
      Classified g op .matvec
  | pureScalar (hlen : g.len op.out = 1) : Classified g op .pureScalar

theorem classified (registered makesState : Opcode → Bool) (g : Graph U) (op : Op U) :
    Classified g op (classify registered makesState g op) := by
  rw [classify]
  dsimp only
  split
  · exact .fresh
  split
  · rename_i _ helem
    apply Classified.elementwise
    intro s hs
    rw [isElementwise, Bool.and_eq_true] at helem
    exact of_decide_eq_true (List.all_eq_true.1 helem.2 s hs)
  split
  · split
    · rename_i _ _ _ hchecks
      obtain ⟨-, hlen, hk⟩ := hchecks
      apply Classified.gather
      intro k hlt
      have hmem : op.imm k ∈ op.idata := by
        rw [Op.imm, List.getD_eq_getElem _ _ (by omega)]
        exact List.getElem_mem _
      obtain ⟨h0, h1⟩ := hk _ hmem
      omega
    · exact .fresh
  split
  · split
    · rename_i hchecks
      obtain ⟨-, -, hlen, h0, h1⟩ := hchecks
      exact .index (by omega) (by omega)
    · exact .fresh
  split
  · split
    · rename_i hchecks
      obtain ⟨-, -, hlen, hone, -, -⟩ := hchecks
      exact .store (by omega) (by omega)
    · exact .fresh
  split
  · split
    · rename_i hchecks
      obtain ⟨-, hstride, h0, hlast⟩ := hchecks
      apply Classified.sliceRead
      intro k hlt
      have hlast := hlast.resolve_left (by omega)
      have hmul : (k : ℤ) * sliceStride op ≤ (g.len op.out - 1) * sliceStride op :=
        Int.mul_le_mul_of_nonneg_right (by omega) hstride.le
      have hcast : (((op.imm 0).toNat + k * (sliceStride op).toNat : ℕ) : ℤ) =
          op.imm 0 + k * sliceStride op := by
        push_cast
        rw [Int.toNat_of_nonneg h0, Int.toNat_of_nonneg hstride.le]
      omega
    · exact .fresh
  split
  · split
    · rename_i hchecks
      obtain ⟨-, -, hlen, -, -⟩ := hchecks
      exact .sliceWrite (by omega)
    · exact .fresh
  split
  · split
    · rename_i hchecks
      obtain ⟨-, -, hrows, hcols, hlen⟩ := hchecks
      apply Classified.matvec
      rw [hrows, hcols] at hlen
      exact_mod_cast hlen
    · exact .fresh
  split
  · rename_i hchecks
    exact .pureScalar (by omega)
  · exact .fresh

theorem classify_out2 {registered makesState : Opcode → Bool} {g : Graph U} {op : Op U}
    (h : classify registered makesState g op ≠ .fresh) : op.out2 = none := by
  by_contra hne
  apply h
  rw [classify, if_pos]
  simp [Option.isSome_iff_ne_none, hne]

/-! ## What the shapes compute -/

/-- The element a slot gives for position `i`; a slot of length one broadcasts. -/
def element (g : Graph U) (s i : ℕ) : ℕ := if g.len s = 1 then 0 else i

/-- The value of a slot. -/
def contents (g : Graph U) (m : Arena V) (s : ℕ) : List V := (List.range (g.len s)).map (m s)

/-- An argument: one value, or a whole slot. -/
inductive Operand (V : Type*)
  | scalar (x : V)
  | whole (xs : List V)
deriving DecidableEq, Repr

/-- The operand a scalar op makes of a slot. -/
def operand (g : Graph U) (m : Arena V) (s : ℕ) : Operand V :=
  if g.len s = 1 then .scalar (m s 0) else .whole (contents g m s)

/-- The functions of the modelled ops: of elementwise and scalar ops, and of a row of a matrix and a
vector. -/
structure Functions (V : Type*) where
  apply : Opcode → ℕ → List (Operand V) → List ℤ → V
  row : List V → List V → V

/-- Where a strided slice starts, and its stride. -/
def sliceStart (op : Op U) : ℕ := (op.imm 0).toNat

/-- A row of a column-major matrix. -/
def matrixRow (buf : ℕ → V) (rows cols r : ℕ) : List V :=
  (List.range cols).map fun c => buf (c * rows + r)

/-- What an op of this shape leaves in its output. -/
def Shape.Leaves (shape : Shape) (F : Functions V) (g : Graph U) (op : Op U) (m : Arena V)
    (out : ℕ → V) : Prop :=
  let in0 := op.input 0
  let in1 := op.input 1
  match shape with
  | .fresh => True
  | .elementwise => ∀ k < g.len op.out, out k =
      F.apply op.opcode op.variant (op.ins.map fun s => .scalar (m s (element g s k))) []
  | .gather => ∀ k < g.len op.out, out k = m in0 (element g in0 (op.imm k).toNat)
  | .index => out 0 = m in0 (element g in0 (op.imm 0).toNat)
  | .store => ∀ k < g.len op.out, out k =
      if k = (op.imm 0).toNat then m in1 0 else m in0 (element g in0 k)
  | .sliceRead => ∀ k < g.len op.out, out k =
      m in0 (element g in0 (sliceStart op + k * (sliceStride op).toNat))
  | .sliceWrite => ∀ k < g.len op.out, out k =
      writeComb (sliceStart op) (sliceStride op).toNat (g.len in1)
        (fun j => m in1 (element g in1 j)) (fun j => m in0 (element g in0 j)) k
  | .matvec => ∀ r < g.len op.out, out r =
      F.row (matrixRow (m in0) (g.len op.out) (g.len in1) r) (contents g m in1)
  | .pureScalar => out 0 = F.apply op.opcode op.variant (op.ins.map (operand g m)) op.idata

/-- One op of a forward pass: what its shape computes goes to its output, and no other slot changes. -/
structure Computes (shape : Shape) (F : Functions V) (g : Graph U) (op : Op U) (m m' : Arena V) :
    Prop where
  frame : ∀ s, s ∉ op.outs → m' s = m s
  leaves : shape.Leaves F g op m (m' op.out)

end Stanli.Collapse
