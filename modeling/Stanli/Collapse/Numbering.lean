import Stanli.Collapse.Shape
import Stanli.Collapse.SmallTable

/-!
# Value numbering over mutable buffers

`Numbering` of `collapse.cpp`.  The elements of slots get numbers by exact table lookup; the numbers live
per element of each written slot the collapse looks at, and are overwritten as the forward pass reaches
each write.  Data that no op writes is numbered on demand, and a slot outside the cone is equal to
nothing.

The analysis asks for numbers while the pass goes on: of elements, and of the rows of a density's
arguments.  Here the questions before each op are a parameter.
-/

namespace Stanli.Collapse

variable {U V : Type*}

/-- `Numbering`, as far as it does not change: the graph, the fills, the slots of the cone, the slots a
parameter reaches, and whether data is told apart by its place.  `bits` are the bits of a value. -/
structure NumberingEnv (U V : Type*) where
  g : Graph U
  fills : Fills V
  registered : Opcode → Bool
  makesState : Opcode → Bool
  bits : V ↪ ℤ
  inCone : ℕ → Bool
  active : ℕ → Bool
  bySlot : Bool

/-- The numbers of the written cone slots, the slot versions, and the tables. -/
structure Numbering where
  flat : ℕ → ℕ → Vn
  version : ℕ → ℕ
  /-- The few longer keys. -/
  table : List (List ℤ × Vn)
  small : SmallTable
  next : Vn

/-! ## Key words -/

def kDataTag : ℤ := -1

def kSlotTag : ℤ := -2

def kMatvecTag : ℤ := -3

def kIdataTag : ℤ := -4

def kPlaceTag : ℤ := -5

def kRowTag : ℤ := -6

/-- `(int64_t)opcode | ((int64_t)variant << 16)`. -/
def opWord (opcode : Opcode) (variant : ℕ) : ℤ := ((opcode.ctorIdx ||| variant <<< 16 : ℕ) : ℤ)

/-- The key of a modelled op. -/
def opKey (opcode : Opcode) (variant : ℕ) (operands : List Vn) (idata : List ℤ) : List ℤ :=
  opWord opcode variant :: operands ++ if idata = [] then [] else kIdataTag :: idata

/-! ## Loops that ask for numbers -/

/-- Ask for each entry of a list in turn. -/
def each {α β σ : Type*} (ask : α → σ → β × σ) : List α → σ → List β × σ
  | [], st => ([], st)
  | a :: l, st =>
    let r := ask a st
    let rs := each ask l r.2
    (r.1 :: rs.1, rs.2)

namespace Numbering

def fresh (st : Numbering) : Vn × Numbering := (st.next, { st with next := st.next + 1 })

/-- The number of a key, a new one if the key is new. -/
def intern (key : List ℤ) (st : Numbering) : Vn × Numbering :=
  if key.length ≤ SmallTable.kWords then
    let r := st.small.findOrInsert key st.next
    (r.1, { st with small := r.2, next := if r.1 = st.next then st.next + 1 else st.next })
  else
    match st.table.lookup key with
    | some v => (v, st)
    | none => (st.next, { st with table := (key, st.next) :: st.table, next := st.next + 1 })

/-- One number for a row of numbers, built a word at a time. -/
def row (words : List ℤ) (st : Numbering) : Vn × Numbering :=
  words.foldl (fun acc word => intern [kRowTag, acc.1, word] acc.2) (0, st)

/-- New numbers for all elements of a slot. -/
def freshSlot (len s : ℕ) (st : Numbering) : Numbering :=
  let r := each (fun _ st => fresh st) (List.range len) st
  { r.2 with flat := Function.update r.2.flat s fun k => r.1.getD k 0 }

/-- `vout = result`. -/
def setSlot (s : ℕ) (result : List Vn) (st : Numbering) : Numbering :=
  { st with flat := Function.update st.flat s fun k => result.getD k 0 }

/-- A whole slot as it stands now. -/
def wholeSlot (s : ℕ) (st : Numbering) : Vn × Numbering := intern [kSlotTag, s, st.version s] st

end Numbering

namespace NumberingEnv

open Stanli.Collapse.Numbering

variable (E : NumberingEnv U V)

/-- `n_writes`. -/
def nWrites (s : ℕ) : ℕ := E.g.writeCount s

/-- The slot's numbers are in `flat`. -/
def tracked (s : ℕ) : Bool := E.inCone s && decide (E.nWrites s ≠ 0) && decide (E.g.len s ≠ 0)

/-- The first number of a parameter's elements. -/
def paramBase (s : ℕ) : Vn :=
  1 + (((E.g.slots.take s).map fun slot => if slot.isParam then slot.len else 0).sum : ℕ)

/-- `fill_of`: the first fill of a slot. -/
def fillOf (s : ℕ) : Option (List V) := (E.fills.find? fun f => f.1 == s).map Prod.snd

/-- A fill as long as its slot. -/
def fullFill (s : ℕ) : Option (List V) := (E.fillOf s).filter fun xs => xs.length == E.g.len s

/-- `data_of`: what a slot holds that no op writes. -/
def dataOf (s : ℕ) : Option (List V) :=
  if E.g.isParam s || decide (E.nWrites s ≠ 0) then none else E.fullFill s

/-- Element `at_` of data slot `s`: by its value, or by where it sits. -/
def datum (s at_ : ℕ) (x : V) (st : Numbering) : Vn × Numbering :=
  if E.bySlot then intern [kPlaceTag, s, at_] st else intern [kDataTag, E.bits x] st

/-- Element `i` of slot `s` as it stands now. -/
def elem (s i : ℕ) (st : Numbering) : Vn × Numbering :=
  let at_ := element E.g s i
  if E.tracked s then (st.flat s at_, st)
  else if E.nWrites s = 0 ∧ E.g.isParam s = true then (E.paramBase s + at_, st)
  else
    match (E.dataOf s).bind fun xs => xs[at_]? with
    | some x => E.datum s at_ x st
    | none => fresh st

/-- The operand of a scalar op. -/
def operandNumber (s : ℕ) (st : Numbering) : Vn × Numbering :=
  if E.g.len s = 1 then E.elem s 0 st else wholeSlot s st

/-- The numbers of a written slot before any op has run. -/
def materializeSlot (s : ℕ) (st : Numbering) : Numbering :=
  if E.tracked s then
    match if E.g.isParam s then none else E.fullFill s with
    | some xs =>
      let r := each (fun p st => E.datum s p.2 p.1 st) xs.zipIdx st
      setSlot s r.1 r.2
    | none => freshSlot (E.g.len s) s st
  else st

/-- How many elements `flat` has. -/
def flatSize : ℕ :=
  ((List.range E.g.slots.length).map fun s => if E.tracked s then E.g.len s else 0).sum

/-- `materialize`, on the state `analyze` starts from. -/
def materialize : Numbering :=
  (List.range E.g.slots.length).foldl (fun st s => E.materializeSlot s st)
    { flat := fun _ _ => 0
      version := fun _ => 0
      table := []
      small := SmallTable.reserve {} (E.flatSize / 2)
      next := E.paramBase E.g.slots.length }

/-- The words of one row of a matrix of data, behind the vector's number. -/
def matvecKey (beta : Vn) (s : ℕ) (x : List V) (rows cols r : ℕ) : List ℤ :=
  kMatvecTag :: beta ::
    if E.bySlot then [(s : ℤ), (r : ℤ)]
    else (List.range cols).map fun c => ((x[c * rows + r]?).map E.bits).getD 0

/-- The numbers of what an op writes to its output. -/
def numberOut (op : Op U) (shape : Shape) (st : Numbering) : Numbering :=
  let out := op.out
  let len := E.g.len out
  let in0 := op.input 0
  let in1 := op.input 1
  match shape with
  | .elementwise =>
    let r := each (fun k st =>
      let operands := each (fun s st => E.elem s k st) op.ins st
      intern (opKey op.opcode op.variant operands.1 []) operands.2) (List.range len) st
    setSlot out r.1 r.2
  | .gather =>
    let r := each (fun k st => E.elem in0 (op.imm k).toNat st) (List.range len) st
    setSlot out r.1 r.2
  | .index =>
    let r := E.elem in0 (op.imm 0).toNat st
    setSlot out [r.1] r.2
  | .store =>
    let value := E.elem in1 0 st
    if in0 = out then
      setSlot out (((List.range len).map (value.2.flat out)).set (op.imm 0).toNat value.1) value.2
    else
      let r := each (fun k st => E.elem in0 k st) (List.range len) value.2
      setSlot out (r.1.set (op.imm 0).toNat value.1) r.2
  | .sliceRead =>
    let r := each (fun k st => E.elem in0 (sliceStart op + k * (sliceStride op).toNat) st)
      (List.range len) st
    setSlot out r.1 r.2
  | .sliceWrite =>
    let base := each (fun k st => E.elem in0 k st) (List.range len) st
    let rhs := each (fun k st => E.elem in1 k st) (List.range (E.g.len in1)) base.2
    setSlot out ((List.range len).map (writeComb (sliceStart op) (sliceStride op).toNat
      (E.g.len in1) (fun k => rhs.1.getD k 0) fun k => base.1.getD k 0)) rhs.2
  | .matvec =>
    match if E.active in0 then none else E.dataOf in0 with
    | some x =>
      let beta := wholeSlot in1 st
      let r := each (fun r st => intern (E.matvecKey beta.1 in0 x len (E.g.len in1) r) st)
        (List.range len) beta.2
      setSlot out r.1 r.2
    | none => freshSlot len out st
  | .pureScalar =>
    let operands := each E.operandNumber op.ins st
    let r := intern (opKey op.opcode op.variant operands.1 op.idata) operands.2
    setSlot out [r.1] r.2
  | .fresh => freshSlot len out st

/-- `number`. -/
def number (op : Op U) (st : Numbering) : Numbering :=
  let st := if E.inCone op.out then
    E.numberOut op (classify E.registered E.makesState E.g op) st else st
  let st := match op.out2 with
    | some s => if E.inCone s then freshSlot (E.g.len s) s st else st
    | none => st
  { st with version := fun s => st.version s + op.outs.count s }

/-! ## The pass -/

/-- What the analysis asks between two ops: an element, or the row of an observation with its outcomes
and arguments (`row_key`). -/
inductive Query
  | elem (s i : ℕ)
  | row (outcomes : List ℤ) (args : List (ℕ × ℕ))
deriving DecidableEq, Repr

/-- An answer, with the op before which it was given and the words of the row. -/
structure Answer where
  pos : ℕ
  query : Query
  words : List ℤ
  number : Vn
deriving DecidableEq, Repr

def ask (pos : ℕ) (q : Query) (st : Numbering) : Answer × Numbering :=
  match q with
  | .elem s i =>
    let r := E.elem s i st
    (⟨pos, q, [], r.1⟩, r.2)
  | .row outcomes args =>
    let r := each (fun arg st => E.elem arg.1 arg.2 st) args st
    let v := row (outcomes ++ r.1) r.2
    (⟨pos, q, outcomes ++ r.1, v.1⟩, v.2)

/-- The pass up to some op: the state before it, once its questions are answered, and all answers. -/
def pass (queries : ℕ → List Query) : ℕ → List Answer × Numbering
  | 0 => each (E.ask 0) (queries 0) E.materialize
  | n + 1 =>
    let before := pass queries n
    let st := ((E.g.ops[n]?).map fun op => E.number op before.2).getD before.2
    let r := each (E.ask (n + 1)) (queries (n + 1)) st
    (before.1 ++ r.1, r.2)

end NumberingEnv

end Stanli.Collapse
