import Stanli.DynamicIndex.Descriptor
import Stanli.Lib.Scatter

/-!
# The indexing kernels

`indexForward`, `indexBackward`, `setIndexForward` and `setIndexBackward` of `structured_loop.cpp`,
with the scalar way of the first.  A buffer of values is a list; adjoints live in one memory, where
the adjoint of a buffer starts at an address or, where nothing needs it, is missing.  A kernel that
throws leaves no result.
-/

namespace Stanli

namespace DynamicIndex

open Scatter

variable {V : Type} [Integral V]

/-- `selected_positions`, with what its caller does at each position. -/
def forPositions {σ : Type} (p : DynamicIndexSpec) (rt : Runtime V) (f : σ → ℕ → ℕ → σ) (s : σ) :
    Except Exc σ :=
  (List.range rt.selected).foldlM (fun s i => (selectedPosition p rt i).map (f s i)) s

/-- `scalar_index_forward`: the output and the position, `-1` where nothing is selected. -/
def scalarIndexForward [Zero V] (p : DynamicIndexSpec) (c : Ctx V) : Except Exc (List V × ℤ) := do
  match ← fixedScalarIndex p c false with
  | some position => return ([(c.input 0).getD position 0], position)
  | none =>
    let rt ← validateIndex p c false
    throwIf (p.selectedSize ≠ 1 ∨ c.outLen ≠ 1 ∨ 1 < rt.selected)
      ⟨.logicError, "invalid compact scalar index shape"⟩
    if rt.selected = 0 then return ([0], -1)
    else (selectedPosition p rt 0).map fun position => ([(c.input 0).getD position 0], position)

/-- `index_forward`. -/
def indexForward [Zero V] (p : DynamicIndexSpec) (c : Ctx V) : Except Exc (List V) :=
  if p.selectedSize = 1 ∧ c.outLen = 1 then (scalarIndexForward p c).map Prod.fst
  else do
    let rt ← validateIndex p c false
    forPositions p rt (fun out i position => out.set i ((c.input 0).getD position 0))
      (List.replicate c.outLen 0)

/-- `prepared_index_read`. -/
def preparedIndexRead [Zero V] (p : DynamicIndexSpec) (c : Ctx V) : Except Exc (List V) :=
  (preparedPosition p c).map fun position => [(c.input 0).getD position.toNat 0]

/-- `set_index_forward`: the output and, where a selection may repeat, the last entry written to each
cell. -/
def setIndexForward [Zero V] (p : DynamicIndexSpec) (c : Ctx V) (scratch : List ℤ) :
    Except Exc (List V × List ℤ) := do
  let layout ← requireIndexInputLayout p true
  let rt ← validateIndex p c true
  let mayRepeat := !selectionIsOrderedUnique p
  forPositions p rt
    (fun s i position => (s.1.set position ((c.input layout.rhs).getD i 0),
      if mayRepeat then s.2.set position i else s.2))
    (c.input 0, if mayRepeat then List.replicate (c.input 0).length (-1) else scratch)

section Adjoints

variable {A : Type} [Add A]

/-- The cell of an adjoint buffer. -/
def cellOf (buffer : Option ℕ) (i : ℕ) : Option ℕ := buffer.map (· + i)

/-- `index_backward`. -/
def indexBackward (p : DynamicIndexSpec) (c : Ctx V) (baseAdj : Option ℕ) (outAdj : ℕ → A)
    (mem : ℕ → A) : Except Exc (ℕ → A) :=
  if baseAdj = none then .ok mem
  else do
    match ← fixedScalarIndex p c false with
    | some position => return addTo mem (cellOf baseAdj position) (outAdj 0)
    | none =>
      let rt ← validateIndex p c false
      forPositions p rt (fun mem i position => addTo mem (cellOf baseAdj position) (outAdj i)) mem

/-- What the ordered loop of `set_index_backward` carries. -/
structure Ordered (A : Type) where
  selected : ℕ
  selectedAt : ℤ
  mem : ℕ → A

/-- One round of the ordered loop. -/
def orderedStep (p : DynamicIndexSpec) (rt : Runtime V) (baseAdj rhsAdj : Option ℕ) (outAdj : ℕ → A)
    (s : Ordered A) (i : ℕ) : Except Exc (Ordered A) :=
  if s.selected < rt.selected ∧ (i : ℤ) = s.selectedAt then
    let mem := addTo s.mem (cellOf rhsAdj s.selected) (outAdj i)
    if s.selected + 1 < rt.selected then
      (selectedPosition p rt (s.selected + 1)).map fun position => ⟨s.selected + 1, position, mem⟩
    else .ok ⟨s.selected + 1, s.selectedAt, mem⟩
  else .ok { s with mem := addTo s.mem (cellOf baseAdj i) (outAdj i) }

/-- The first position of the ordered loop, `-1` where there is none. -/
def firstSelected (p : DynamicIndexSpec) (rt : Runtime V) : Except Exc ℤ :=
  if 0 < rt.selected then (selectedPosition p rt 0).map Int.ofNat else .ok (-1)

/-- `set_index_backward`, for a selection without repetitions in the order of the storage. -/
def orderedBackward (p : DynamicIndexSpec) (c : Ctx V) (baseAdj rhsAdj : Option ℕ) (outAdj : ℕ → A)
    (mem : ℕ → A) : Except Exc (ℕ → A) := do
  let rt ← validateIndex p c true
  let selectedAt ← firstSelected p rt
  let s ← (List.range c.outLen).foldlM (orderedStep p rt baseAdj rhsAdj outAdj) ⟨0, selectedAt, mem⟩
  throwIf (s.selected ≠ rt.selected) ⟨.logicError, "unordered structured index selection"⟩
  return s.mem

/-- One round of the loop over the last entries written. -/
def scratchStep (scratch : List ℤ) (baseAdj rhsAdj : Option ℕ) (outAdj : ℕ → A) (mem : ℕ → A)
    (i : ℕ) : ℕ → A :=
  let selected := scratch.getD i 0
  if selected < 0 then addTo mem (cellOf baseAdj i) (outAdj i)
  else addTo mem (cellOf rhsAdj selected.toNat) (outAdj i)

/-- `set_index_backward`. -/
def setIndexBackward (p : DynamicIndexSpec) (c : Ctx V) (scratch : List ℤ)
    (baseAdj rhsAdj : Option ℕ) (outAdj : ℕ → A) (mem : ℕ → A) : Except Exc (ℕ → A) := do
  let layout ← requireIndexInputLayout p true
  throwIf ((c.ins.length : ℤ) ≠ layout.expected)
    ⟨.logicError, "invalid structured index descriptor"⟩
  if selectionIsOrderedUnique p then orderedBackward p c baseAdj rhsAdj outAdj mem
  else return (List.range c.outLen).foldl (scratchStep scratch baseAdj rhsAdj outAdj) mem

end Adjoints

end DynamicIndex

end Stanli
