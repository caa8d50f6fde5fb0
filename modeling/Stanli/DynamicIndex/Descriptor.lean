import Mathlib.Data.Int.Notation
import Mathlib.Data.Nat.Notation
import Mathlib.Logic.Function.Basic
import Mathlib.Tactic.Common
import Stanli.Lib.Machine

/-!
# Dynamic indexing

The index descriptors of `structured_loop.hpp` and the code that reads them in `structured_loop.cpp`:
`validateIndex` checks a descriptor against the buffers and the selector values of a call,
`selectedPosition` is where one entry of the selection stands in the base, and `indexPositions` hands
all of them to its caller, one after the other.  `fixedScalarIndex`, `preparedPosition` and
`preparedPositions` are the short ways there.

A buffer is the list of its values.  A selector is a real number; all the code asks of one is whether
it is an integer, and which (`Integral`).  Numbers are compared as integers, which is what the code's
comparisons of doubles come to below `2 ^ 53`.
-/

namespace Stanli

namespace DynamicIndex

/-! ## Descriptors -/

/-- `DynamicIndexSpec::Axis::Kind`. -/
inductive AxisKind
  | single | all | multi | range
deriving DecidableEq, Repr

/-- `DynamicIndexSpec::Axis`.  An offset of `-1` says that the field is not read at run time. -/
structure Axis where
  kind : AxisKind := .single
  extent : ℤ := 0
  stride : ℤ := 0
  count : ℤ := 0
  inputOffset : ℤ := 0
  extentInputOffset : ℤ := -1
  countInputOffset : ℤ := -1
  selectorInput : ℤ := 1
  extentInput : ℤ := 1
  countInput : ℤ := 1
deriving DecidableEq, Repr

end DynamicIndex

open DynamicIndex in
/-- `DynamicIndexSpec`. -/
structure DynamicIndexSpec where
  axes : List Axis
  matrixLeaf : Bool := false
  selectedSize : ℤ := 0
  inputCount : ℤ := 0
  rhsInput : ℤ := -1
deriving DecidableEq, Repr

namespace DynamicIndex

variable {V : Type}

/-- The reals an index may be: the integer a finite, integral value is. -/
class Integral (V : Type) where
  asInt : V → Option ℤ

/-- The part of `KernelCtx` the checks look at: the input buffers and the length of the output. -/
structure Ctx (V : Type) where
  ins : List (List V)
  outLen : ℕ
deriving DecidableEq, Repr

/-- `c.in[k]`. -/
def Ctx.input (c : Ctx V) (k : ℤ) : List V := c.ins.getD k.toNat []

/-! ## Exceptions -/

/-- The exception types the code throws. -/
inductive ExcKind
  | logicError | outOfRange | domainError | lengthError
deriving DecidableEq, Repr

/-- An exception and its text. -/
structure Exc where
  kind : ExcKind
  what : String
deriving DecidableEq, Repr

/-- `index_fault`, with a whole message. -/
def indexFault (message : String) : Exc := ⟨.logicError, message⟩

/-- `index_fault`, with what is invalid and which part of it. -/
def indexFaultOf (what suffix : String) : Exc := ⟨.logicError, "invalid " ++ what ++ suffix⟩

/-- `index_over_capacity`. -/
def indexOverCapacity (what : String) : Exc := ⟨.outOfRange, what ++ " exceeds capacity"⟩

/-- `index_out_of_range`. -/
def indexOutOfRange : Exc := ⟨.outOfRange, "structured index out of range"⟩

/-- `if (p) throw e;`. -/
def throwIf (p : Prop) [Decidable p] (e : Exc) : Except Exc Unit := if p then .error e else .ok ()

/-- `exact_limit`. -/
def exactLimit : ℤ := 4503599627370496

/-- `mul`. -/
def mul (a b : ℤ) : Except Exc ℤ :=
  if a < 0 ∨ b < 0 ∨ (b ≠ 0 ∧ exactLimit / b < a) then
    .error ⟨.lengthError, "structured loop storage overflow"⟩
  else .ok (a * b)

/-! ## The inputs of a call -/

/-- `IndexInputLayout`. -/
structure InputLayout where
  expected : ℤ
  selectorEnd : ℤ
  rhs : ℤ
deriving DecidableEq, Repr

/-- `index_input_layout`. -/
def indexInputLayout (p : DynamicIndexSpec) (update : Bool) : Option InputLayout :=
  if p.inputCount < 0 ∨ 6 < p.inputCount then none
  else if update = false then
    if p.rhsInput ≠ -1 then none
    else if p.inputCount = 0 then some ⟨2, 2, -1⟩
    else if p.inputCount < 2 then none
    else some ⟨p.inputCount, p.inputCount, -1⟩
  else if p.inputCount = 0 then if p.rhsInput ≠ -1 then none else some ⟨3, 2, 2⟩
  else if p.inputCount < 3 ∨ p.rhsInput ≠ p.inputCount - 1 then none
  else some ⟨p.inputCount, p.rhsInput, p.rhsInput⟩

/-- `require_index_input_layout`. -/
def requireIndexInputLayout (p : DynamicIndexSpec) (update : Bool) : Except Exc InputLayout :=
  (indexInputLayout p update).elim (.error (indexFault "invalid structured index input count")) .ok

/-- `index_selection_is_ordered_unique`. -/
def selectionIsOrderedUnique (p : DynamicIndexSpec) : Bool :=
  p.axes.all fun a => decide (a.kind ≠ .multi) || decide (a.count ≤ 1)

/-- `index_input`. -/
def indexInput (c : Ctx V) (input : ℤ) (what : String) : Except Exc (List V) :=
  if input < 0 ∨ (c.ins.length : ℤ) ≤ input then .error (indexFaultOf what " input")
  else .ok (c.input input)

section Selectors

variable [Integral V]

/-- The integer at an offset of a buffer. -/
def entry (values : List V) (offset : ℤ) : Option ℤ :=
  (values[offset.toNat]?).bind Integral.asInt

/-- An integer between two bounds. -/
def readInt (values : List V) (offset low high : ℤ) (e : Exc) : Except Exc ℤ :=
  match entry values offset with
  | some z => if z < low ∨ high < z then .error e else .ok z
  | none => .error e

/-- `index_integer`. -/
def indexInteger (c : Ctx V) (input offset upper : ℤ) (what : String) : Except Exc ℤ := do
  let values ← indexInput c input what
  throwIf (offset < 0 ∨ (values.length : ℤ) ≤ offset) (indexFaultOf what " offset")
  readInt values offset 0 upper (indexOverCapacity what)

/-- `logical_axis_extent`. -/
def logicalAxisExtent (a : Axis) (c : Ctx V) : Except Exc ℤ :=
  if a.extentInputOffset < 0 then .ok a.extent
  else indexInteger c a.extentInput a.extentInputOffset a.extent "dynamic index logical extent"

/-- The largest `int32_t`. -/
def int32Max : ℤ := 2147483647

/-- The count of a range, from its inclusive end. -/
def rangeCount (a : Axis) (c : Ctx V) (last : ℤ) : Except Exc ℤ := do
  let selector ← indexInput c a.selectorInput "dynamic range start"
  throwIf (a.inputOffset < 0 ∨ (selector.length : ℤ) ≤ a.inputOffset)
    (indexFault "invalid dynamic range start offset")
  let first ← readInt selector a.inputOffset 1 int32Max
    ⟨.domainError, "dynamic range start is not an integer"⟩
  return max 0 (last - first + 1)

/-- The count an axis reads at run time. -/
def runtimeCount (a : Axis) (c : Ctx V) : Except Exc ℤ := do
  let value ← indexInteger c a.countInput a.countInputOffset
    (if a.kind = .range then int32Max else a.count) "dynamic index count"
  let count ← if a.kind = .range then rangeCount a c value else .ok value
  throwIf (count < 0 ∨ a.count < count) ⟨.outOfRange,
    "dynamic index count " ++ toString count ++ " exceeds capacity " ++ toString a.count⟩
  return count

/-- `dynamic_axis_count`. -/
def dynamicAxisCount (a : Axis) (c : Ctx V) : Except Exc ℤ :=
  if a.countInputOffset < 0 then .ok a.count else runtimeCount a c

/-! ## Validation -/

/-- `IndexRuntime::Axis`. -/
structure RuntimeAxis (V : Type) where
  extent : ℕ
  count : ℕ
  stride : ℕ
  selector : List V
deriving DecidableEq, Repr

/-- `IndexRuntime`. -/
structure Runtime (V : Type) where
  axes : List (RuntimeAxis V)
  selected : ℕ
deriving DecidableEq, Repr

/-- What the loop over the axes carries: the axes so far and three products. -/
structure Progress (V : Type) where
  axes : List (RuntimeAxis V)
  selected : ℤ
  capacity : ℤ
  logicalSize : ℤ
deriving DecidableEq, Repr

/-- The selector values of one axis take this much room. -/
def selectorWidth (a : Axis) : ℤ :=
  match a.kind with
  | .all => 0
  | .multi => a.count
  | .range => if 0 ≤ a.countInputOffset ∧ a.countInput = a.selectorInput ∧
      a.countInputOffset = a.inputOffset + 1 then 2 else 1
  | .single => 1

/-- The selector buffer of an axis; there is none for a whole axis. -/
def selectorOf (a : Axis) (c : Ctx V) : Except Exc (List V) :=
  if a.kind = .all then .ok [] else indexInput c a.selectorInput "structured selector"

/-- What makes the shape of an axis invalid. -/
def ShapeFault (a : Axis) (c : Ctx V) (selector : List V) : Prop :=
  (a.kind ≠ .all ∧ ((selector.length : ℤ) < a.inputOffset ∨
      (selector.length : ℤ) - a.inputOffset < selectorWidth a)) ∨
    (0 ≤ a.countInputOffset ∧ ((c.input a.countInput).length : ℤ) ≤ a.countInputOffset) ∨
    (0 ≤ a.extentInputOffset ∧ ((c.input a.extentInput).length : ℤ) ≤ a.extentInputOffset) ∨
    (a.kind = .single ∧ a.count ≠ 1) ∨ (a.kind = .all ∧ a.count ≠ a.extent)

instance (a : Axis) (c : Ctx V) (selector : List V) : Decidable (ShapeFault a c selector) :=
  inferInstanceAs (Decidable (_ ∨ _))

/-- The `j`-th selector value of an axis is an index of it; of a range, so is its last. -/
def selectorOk (a : Axis) (selector : List V) (count extent : ℤ) (j : ℕ) : Bool :=
  match entry selector (a.inputOffset + j) with
  | some raw => decide (1 ≤ raw) &&
      decide ((if a.kind = .range then raw + (count - 1) else raw) ≤ extent)
  | none => false

/-- The check of the selector values of an axis. -/
def checkSelectors (a : Axis) (selector : List V) (count extent : ℤ) : Except Exc Unit :=
  if a.kind = .all ∨ (a.kind = .range ∧ count = 0) then .ok ()
  else throwIf ((List.range (if a.kind = .multi then count.toNat else 1)).all
    (selectorOk a selector count extent) = false) indexOutOfRange

/-- `validate_selector_input`. -/
def validSelectorInput (layout : InputLayout) (input : ℤ) : Bool :=
  decide (1 ≤ input) && decide (input < layout.selectorEnd)

/-- One round of the loop over the axes. -/
def validateAxis (c : Ctx V) (layout : InputLayout) (st : Progress V) (a : Axis) :
    Except Exc (Progress V) := do
  throwIf (a.kind ≠ .all ∧ validSelectorInput layout a.selectorInput = false)
    (indexFaultOf "structured selector" " input")
  throwIf (0 ≤ a.countInputOffset ∧ validSelectorInput layout a.countInput = false)
    (indexFaultOf "dynamic index count" " input")
  throwIf (0 ≤ a.extentInputOffset ∧ validSelectorInput layout a.extentInput = false)
    (indexFaultOf "dynamic index logical extent" " input")
  let extent ← logicalAxisExtent a c
  let count ← dynamicAxisCount a c
  let selected ← mul st.selected count
  let capacity ← mul st.capacity a.extent
  let logicalSize ← mul st.logicalSize extent
  throwIf (a.stride < 0 ∨ (a.kind ≠ .all ∧ a.inputOffset < 0))
    (indexFault "invalid structured index offset")
  let selector ← selectorOf a c
  throwIf (ShapeFault a c selector) (indexFault "invalid structured index shape")
  checkSelectors a selector count extent
  return ⟨st.axes ++ [⟨extent.toNat, count.toNat, 0, selector⟩], selected, capacity, logicalSize⟩

/-- The axes of the arrays, from the innermost on: their strides. -/
def arrayStrides (capacityStride logicalStride : ℤ) :
    List (Axis × RuntimeAxis V) → Except Exc (List (RuntimeAxis V))
  | [] => .ok []
  | (a, r) :: rest => do
    throwIf (a.stride ≠ capacityStride) (indexFault "invalid structured array stride")
    let capacityStride' ← mul capacityStride a.extent
    let logicalStride' ← mul logicalStride r.extent
    let rest ← arrayStrides capacityStride' logicalStride' rest
    return { r with stride := logicalStride.toNat } :: rest

/-- The two axes of a matrix leaf: rows and columns. -/
def matrixStrides (a₀ a₁ : Axis × RuntimeAxis V) :
    Except Exc (List (RuntimeAxis V) × ℤ × ℤ) := do
  throwIf (a₀.1.stride ≠ 1 ∨ a₁.1.stride ≠ a₀.1.extent) (indexFault "invalid structured matrix stride")
  let capacityStride ← mul a₀.1.extent a₁.1.extent
  let logicalStride ← mul a₀.2.extent a₁.2.extent
  return ([{ a₀.2 with stride := 1 }, { a₁.2 with stride := a₀.2.extent }], capacityStride,
    logicalStride)

/-- How many axes are axes of arrays. -/
def outerCount (p : DynamicIndexSpec) : ℕ := p.axes.length - if p.matrixLeaf then 2 else 0

/-- The leaf: the strides of a matrix, and the strides the arrays start with. -/
def leafStrides (leaf : List (Axis × RuntimeAxis V)) : Except Exc (List (RuntimeAxis V) × ℤ × ℤ) :=
  match leaf with
  | [a₀, a₁] => matrixStrides a₀ a₁
  | _ => .ok ([], 1, 1)

/-- The loop that checks the descriptor's strides and computes the logical ones. -/
def assignStrides (p : DynamicIndexSpec) (axes : List (RuntimeAxis V)) :
    Except Exc (List (RuntimeAxis V)) := do
  let both := p.axes.zip axes
  let leaf ← leafStrides (both.drop (outerCount p))
  let outer ← arrayStrides leaf.2.1 leaf.2.2 (both.take (outerCount p)).reverse
  return outer.reverse ++ leaf.1

/-- The last check: the buffers. -/
def StorageFault (p : DynamicIndexSpec) (c : Ctx V) (update : Bool) (layout : InputLayout)
    (st : Progress V) : Prop :=
  st.capacity ≠ (c.input 0).length ∨ st.capacity < st.logicalSize ∨ p.selectedSize < st.selected ∨
    if update then (c.outLen : ℤ) ≠ st.capacity ∨ ((c.input layout.rhs).length : ℤ) ≠ p.selectedSize
    else (c.outLen : ℤ) ≠ p.selectedSize

instance (p : DynamicIndexSpec) (c : Ctx V) (update : Bool) (layout : InputLayout)
    (st : Progress V) : Decidable (StorageFault p c update layout st) := by
  unfold StorageFault
  infer_instance

/-- `validate_index`. -/
def validateIndex (p : DynamicIndexSpec) (c : Ctx V) (update : Bool) : Except Exc (Runtime V) := do
  let layout ← requireIndexInputLayout p update
  throwIf ((c.ins.length : ℤ) ≠ layout.expected ∨ (p.matrixLeaf = true ∧ p.axes.length < 2))
    (indexFault "invalid structured index descriptor")
  let st ← p.axes.foldlM (validateAxis c layout) ⟨[], 1, 1, 1⟩
  let axes ← assignStrides p st.axes
  throwIf (StorageFault p c update layout st) (indexFault "invalid structured index storage")
  return ⟨axes, st.selected.toNat⟩

/-! ## Positions -/

/-- The axes in the order the selection is listed: the rows and the columns of a matrix leaf, then the
arrays from the innermost on. -/
def listed {α : Type*} (p : DynamicIndexSpec) (l : List α) : List α :=
  l.drop (outerCount p) ++ (l.take (outerCount p)).reverse

/-- The index that the given entry of an axis selects, counted from one. -/
def rawIndex (a : Axis) (state : RuntimeAxis V) (ordinal : ℕ) : Option ℤ :=
  match a.kind with
  | .all => some (ordinal + 1)
  | .single => entry state.selector a.inputOffset
  | .multi => entry state.selector (a.inputOffset + ordinal)
  | .range => (entry state.selector a.inputOffset).map (· + ordinal)

/-- `consume`: take one digit off the entry's number and add its part of the position. -/
def consume (s : ℕ × ℕ) (axis : Axis × RuntimeAxis V) : Except Exc (ℕ × ℕ) :=
  match rawIndex axis.1 axis.2 (s.1 % axis.2.count) with
  | some raw =>
    if raw < 1 ∨ (axis.2.extent : ℤ) < raw then .error indexOutOfRange
    else .ok (s.1 / axis.2.count, s.2 + (raw - 1).toNat * axis.2.stride)
  | none => .error indexOutOfRange

/-- `selected_position`. -/
def selectedPosition (p : DynamicIndexSpec) (rt : Runtime V) (linear : ℕ) : Except Exc ℕ :=
  ((listed p (p.axes.zip rt.axes)).foldlM consume (linear, 0)).map Prod.snd

/-- The calls of a loop over positions: what it handed on, and what it threw. -/
abbrev Visits := Outcome Unit ℕ Exc

/-- The loop of `selected_positions`, as a machine that logs the positions. -/
def positionMachine (p : DynamicIndexSpec) (rt : Runtime V) : Machine ℕ Unit ℕ Exc where
  step i _ := (selectedPosition p rt i).map fun position => ((), position)

/-- `selected_positions`. -/
def selectedPositions (p : DynamicIndexSpec) (rt : Runtime V) : Visits :=
  (positionMachine p rt).run (List.range rt.selected) ()

/-- A loop that throws before its first round. -/
def Visits.thrown (e : Exc) : Visits := ⟨(), [], some e⟩

/-- Why `fixed_scalar_index` declines. -/
def NotFixedScalar (p : DynamicIndexSpec) (a : Axis) (c : Ctx V) (update : Bool) : Prop :=
  let expected : ℤ := if update then 3 else 2
  (c.ins.length : ℤ) ≠ expected ∨ (p.inputCount ≠ 0 ∧ p.inputCount ≠ expected) ∨
    p.rhsInput ≠ (if update = true ∧ p.inputCount ≠ 0 then 2 else -1) ∨ a.kind ≠ .single ∨
    a.count ≠ 1 ∨ a.stride ≠ 1 ∨ a.extent < 0 ∨ exactLimit < a.extent ∨
    a.extent ≠ (c.input 0).length ∨ a.selectorInput ≠ 1 ∨ a.inputOffset < 0 ∨
    ((c.input 1).length : ℤ) ≤ a.inputOffset ∨ 0 ≤ a.countInputOffset ∨ 0 ≤ a.extentInputOffset ∨
    if update then (c.outLen : ℤ) ≠ a.extent ∨ (c.input 2).length ≠ 1 else c.outLen ≠ 1

instance (p : DynamicIndexSpec) (a : Axis) (c : Ctx V) (update : Bool) :
    Decidable (NotFixedScalar p a c update) := by
  unfold NotFixedScalar
  infer_instance

/-- `fixed_scalar_index`: the position, `none` where the descriptor is not of this form. -/
def fixedScalarIndex (p : DynamicIndexSpec) (c : Ctx V) (update : Bool) : Except Exc (Option ℕ) :=
  match p.axes with
  | [a] =>
    if p.matrixLeaf = true ∨ p.selectedSize ≠ 1 ∨ NotFixedScalar p a c update then .ok none
    else (readInt (c.input 1) a.inputOffset 1 a.extent indexOutOfRange).map fun raw =>
      some (raw - 1).toNat
  | _ => .ok none

/-- The general way: validate, then enumerate. -/
def generalPositions (p : DynamicIndexSpec) (c : Ctx V) (update : Bool) : Visits :=
  match validateIndex p c update with
  | .error e => Visits.thrown e
  | .ok rt => selectedPositions p rt

/-- `index_positions`. -/
def indexPositions (p : DynamicIndexSpec) (c : Ctx V) (update : Bool) : Visits :=
  match fixedScalarIndex p c update with
  | .error e => Visits.thrown e
  | .ok (some position) => ⟨(), [position], none⟩
  | .ok none => generalPositions p c update

/-! ## Prepared calls -/

/-- `single_selection`. -/
def singleSelection (p : DynamicIndexSpec) : Bool :=
  decide (p.selectedSize = 1) && p.axes.all fun a =>
    decide (a.kind = .single) && decide (a.count = 1) && decide (a.countInputOffset < 0) &&
      decide (a.extentInputOffset < 0)

/-- One round of `prepared_position`. -/
def preparedStep (c : Ctx V) (position : ℤ) (a : Axis) : Except Exc ℤ := do
  let raw ← readInt (c.input a.selectorInput) a.inputOffset 1 a.extent indexOutOfRange
  return position + (raw - 1) * a.stride

/-- `prepared_position`. -/
def preparedPosition (p : DynamicIndexSpec) (c : Ctx V) : Except Exc ℤ :=
  p.axes.foldlM (preparedStep c) 0

/-- `static_selection`. -/
def staticSelection (p : DynamicIndexSpec) : Bool :=
  p.axes.all fun a => decide (a.countInputOffset < 0) && decide (a.extentInputOffset < 0)

/-- One round of the loop of `prepared_positions`. -/
def preparedAxis (c : Ctx V) (rt : Runtime V) (a : Axis) : Except Exc (Runtime V) := do
  let selector := if a.kind = .all then [] else c.input a.selectorInput
  checkSelectors a selector a.count a.extent
  return ⟨rt.axes ++ [⟨a.extent.toNat, a.count.toNat, a.stride.toNat, selector⟩],
    rt.selected * a.count.toNat⟩

/-- `prepared_positions`. -/
def preparedPositions (p : DynamicIndexSpec) (c : Ctx V) : Visits :=
  match p.axes.foldlM (preparedAxis c) ⟨[], 1⟩ with
  | .error e => Visits.thrown e
  | .ok rt => selectedPositions p rt

end Selectors

end DynamicIndex

end Stanli
