import Stanli.Mir.Syntax
import Stanli.Lib.Rollback

/-!
# Speculative lowering

The state of a lowering, what a lowering can do to it and ask of it, and the snapshot by which an attempt
is taken back.  An attempt is any sequence of these actions, with attempts of its own inside it; what
comes later is any strategy that reads the answers.

A bounded alternative spends a budget of statements and one of storage.  When one is used up, the action
is refused and the whole lowering is thrown away.
-/

namespace Stanli

namespace Speculation

inductive ViewKind
  | flat | vector | rowVector | matrix | array
  deriving DecidableEq

/-- `SlotInfo`. -/
structure SlotInfo where
  rows : ℕ := 0
  cols : ℕ := 0
  paramFree : Bool := false
  kind : ViewKind := .flat
  shape : ℕ := 0
  deriving DecidableEq

structure Val where
  slot : ℕ
  autodiff : Bool := false
  si : SlotInfo := {}
  runtimeDims : List ℤ := []
  deriving DecidableEq

structure DeclView where
  len : ℕ := 0
  autodiff : Bool := false
  si : SlotInfo := {}
  intArray : Bool := false
  deferredShape : Bool := false
  runtimeDims : List ℤ := []
  deriving DecidableEq

/-- `DataMap::Entry`. -/
structure Entry where
  isInt : Bool := false
  i : List ℤ := []
  r : List Binary64 := []
  dims : List ℕ := []
  deriving DecidableEq

/-- What an observation is kept under: the slot and its view, apart from `param_free`. -/
structure ObservationKey where
  slot : ℕ
  kind : ViewKind
  shape : ℕ
  rows : ℕ
  cols : ℕ
  deriving DecidableEq

def Val.key (v : Val) : ObservationKey := ⟨v.slot, v.si.kind, v.si.shape, v.si.rows, v.si.cols⟩

structure Slot where
  len : ℤ
  isParam : Bool
  deriving DecidableEq

structure Op where
  opcode : ℕ
  ins : List ℕ
  out : ℕ
  out2 : ℤ := -1
  deriving DecidableEq

structure Graph where
  slots : List Slot := []
  ops : List Op := []
  idataPool : List (List ℤ) := []
  udataPool : List ℕ := []
  deriving DecidableEq

/-- The part of `CompiledModel` that a lowering fills. -/
structure Output where
  fills : List (ℕ × List Binary64) := []
  paramNames : List Bytes := []
  views : List (Bytes × ℕ × ℕ) := []
  uncParams : List Bytes := []
  interpreterFallbacks : List Bytes := []
  reduceSumFallbacks : List Bytes := []
  nUnconstrained : ℤ := 0
  reduceSumNotice : Bytes := []
  transformedDataDraws : Bool := false
  deriving DecidableEq

/-- The mutable state of a `Lowering`. The data environment carries its journal. -/
structure State where
  inWriteArray : Bool
  boundedSpecialization : Bool := false
  specializationSteps : ℕ := 0
  specializationElements : ℕ := 0
  g : Graph := {}
  out : Output := {}
  nTpStart : Option ℕ := none
  nGqStart : Option ℕ := none
  scope : Bytes → Option Val := fun _ => none
  decls : Bytes → Option DeclView := fun _ => none
  intEnv : Bytes → Option ℤ := fun _ => none
  intLocals : Bytes → Option Unit := fun _ => none
  syntheticNames : List Bytes := []
  td : Journaled Bytes Entry := ⟨fun _ => none, []⟩
  intRanges : ℕ → Option (ℤ × ℤ) := fun _ => none
  realRanges : ℕ → Option (Binary64 × Binary64) := fun _ => none
  intInitializedPrefix : ℕ → Option ℤ := fun _ => none
  constCache : Binary64 → Option ℕ := fun _ => none
  observations : ObservationKey → Option Entry := fun _ => none
  targetTerms : List ℕ := []
  jacSlots : List ℕ := []
  extraRoots : List ℕ := []
  lastWritten : Bytes := []

/-! ## Actions -/

/-- What a lowering does to its state, and what it asks of it. -/
inductive Primitive
  /-- A statement is lowered. -/
  | lowerStmt
  /-- A loop of so many trips is lowered. -/
  | lowerTrips (trips : ℕ)
  | addSlot (len : ℤ) (isParam : Bool)
  | pushOp (op : Op)
  | pushIdata (data : List ℤ)
  | pushUdata (handle : ℕ)
  | pushFill (slot : ℕ) (values : List Binary64)
  | pushParamName (name : Bytes)
  | pushView (view : Bytes × ℕ × ℕ)
  | pushUncParam (name : Bytes)
  | noteInterpreterFallback (note : Bytes)
  | pushReduceSumFallback (note : Bytes)
  | addUnconstrained (n : ℕ)
  | setReduceSumNotice (note : Bytes)
  | drawTransformedData
  | startTransformedParameters (columns : ℕ)
  | startGeneratedQuantities (columns : ℕ)
  | setScope (name : Bytes) (v : Option Val)
  | setDecl (name : Bytes) (v : Option DeclView)
  | setIntEnv (name : Bytes) (v : Option ℤ)
  | setIntLocal (name : Bytes) (v : Option Unit)
  | bindSynthetic (name : Bytes) (v : Val) (decl : DeclView)
  | tdAssign (name : Bytes) (v : Entry)
  | tdErase (name : Bytes)
  | setIntRange (slot : ℕ) (lo hi : ℤ)
  | setIntInitialized (slot : ℕ)
  | setUninitializedIntArray (slot : ℕ)
  | setInitializedPrefix (slot : ℕ) (len : Option ℤ)
  | setRealRange (slot : ℕ) (range : Option (Binary64 × Binary64))
  | constSlot (v : Binary64)
  | observe (v : Val) (en : Entry)
  | forgetObservation (v : Val)
  | pushTarget (slot : ℕ)
  | pushJac (slot : ℕ)
  | pushRoot (slot : ℕ)
  | setLastWritten (name : Bytes)
  | findScope (name : Bytes)
  | findDecl (name : Bytes)
  | findInt (name : Bytes)
  | findIntLocal (name : Bytes)
  | findData (name : Bytes)
  | findIntRange (slot : ℕ)
  | findRealRange (slot : ℕ)
  | findInitializedPrefix (slot : ℕ)
  | observation (v : ObservationKey)
  | askLastWritten
  /-- The lowering is over: the graph, what the model holds, and the roots. -/
  | finish

inductive Action
  | prim (p : Primitive)
  /-- An attempt over these names that fails and is taken back. -/
  | abandon (names : List Bytes) (attempt : List Action)

inductive Answer
  | done
  /-- `SpecializationRefused`. -/
  | refused
  | slot (s : ℕ)
  | val (v : Option Val)
  | decl (v : Option DeclView)
  | int (v : Option ℤ)
  | intLocal (v : Option Unit)
  | entry (v : Option Entry)
  | intRange (v : Option (ℤ × ℤ))
  | realRange (v : Option (Binary64 × Binary64))
  | name (v : Bytes)
  | number (v : ℕ)
  | model (g : Graph) (out : Output) (starts : Option ℕ × Option ℕ) (targets jacs roots : List ℕ)
  deriving DecidableEq

/-! ## Snapshots -/

/-- `WaMark`: the lengths of what only grows, and the scalars. -/
structure Mark where
  nTpStart : Option ℕ
  nGqStart : Option ℕ
  nFills : ℕ
  nOps : ℕ
  nSlots : ℕ
  nIdata : ℕ
  nUdata : ℕ
  tdMark : ℕ
  nParamNames : ℕ
  nViews : ℕ
  nUncParams : ℕ
  nInterpreterFallbacks : ℕ
  nReduceSumFallbacks : ℕ
  nSyntheticNames : ℕ
  nUnconstrained : ℤ
  reduceSumNotice : Bytes
  transformedDataDraws : Bool

def waMark (s : State) : Mark where
  nTpStart := s.nTpStart
  nGqStart := s.nGqStart
  nFills := s.out.fills.length
  nOps := s.g.ops.length
  nSlots := s.g.slots.length
  nIdata := s.g.idataPool.length
  nUdata := s.g.udataPool.length
  tdMark := s.td.journal.length
  nParamNames := s.out.paramNames.length
  nViews := s.out.views.length
  nUncParams := s.out.uncParams.length
  nInterpreterFallbacks := s.out.interpreterFallbacks.length
  nReduceSumFallbacks := s.out.reduceSumFallbacks.length
  nSyntheticNames := s.syntheticNames.length
  nUnconstrained := s.out.nUnconstrained
  reduceSumNotice := s.out.reduceSumNotice
  transformedDataDraws := s.out.transformedDataDraws

/-- The map without these names. -/
def eraseAll {V : Type} (m : Bytes → Option V) (names : List Bytes) : Bytes → Option V :=
  names.foldl (fun m name => Function.update m name none) m

def waRollback (m : Mark) (s : State) : State :=
  let synthetic := s.syntheticNames.drop m.nSyntheticNames
  { s with
    nTpStart := m.nTpStart
    nGqStart := m.nGqStart
    out :=
      { fills := s.out.fills.take m.nFills
        paramNames := s.out.paramNames.take m.nParamNames
        views := s.out.views.take m.nViews
        uncParams := s.out.uncParams.take m.nUncParams
        interpreterFallbacks := s.out.interpreterFallbacks.take m.nInterpreterFallbacks
        reduceSumFallbacks := s.out.reduceSumFallbacks.take m.nReduceSumFallbacks
        nUnconstrained := m.nUnconstrained
        reduceSumNotice := m.reduceSumNotice
        transformedDataDraws := m.transformedDataDraws }
    g :=
      { ops := s.g.ops.take m.nOps
        slots := s.g.slots.take m.nSlots
        idataPool := s.g.idataPool.take m.nIdata
        udataPool := s.g.udataPool.take m.nUdata }
    td := s.td.rollback m.tdMark
    scope := eraseAll s.scope synthetic
    decls := eraseAll s.decls synthetic
    syntheticNames := s.syntheticNames.take m.nSyntheticNames }

/-- `WaSnapshot`: a mark, and the bindings of the names the statement mentions. -/
structure Snapshot where
  mark : Mark
  scope : List (Bytes × Option Val)
  decls : List (Bytes × Option DeclView)
  intEnv : List (Bytes × Option ℤ)
  intLocals : List (Bytes × Option Unit)

def waSnapshot (names : List Bytes) (s : State) : Snapshot where
  mark := waMark s
  scope := saveNamed s.scope names
  decls := saveNamed s.decls names
  intEnv := saveNamed s.intEnv names
  intLocals := saveNamed s.intLocals names

/-- The entries of slots that stay. -/
def below {V : Type} (n : ℕ) (m : ℕ → Option V) : ℕ → Option V := fun slot =>
  if slot < n then m slot else none

def waRestore (snapshot : Snapshot) (s : State) : State :=
  waRollback snapshot.mark
    { s with
      scope := restoreNamed s.scope snapshot.scope
      decls := restoreNamed s.decls snapshot.decls
      intEnv := restoreNamed s.intEnv snapshot.intEnv
      intLocals := restoreNamed s.intLocals snapshot.intLocals
      intRanges := below snapshot.mark.nSlots s.intRanges
      realRanges := below snapshot.mark.nSlots s.realRanges }

/-! ## Steps -/

def specializationStepLimit : ℕ := 131072
def specializationSlotLimit : ℕ := 65536
def specializationElementLimit : ℕ := 1048576

/-- The budget has room for a slot. -/
def State.admitsSlot (s : State) (len : ℤ) : Bool :=
  !s.boundedSpecialization ||
    decide (0 ≤ len ∧ s.g.slots.length < specializationSlotLimit ∧
      len.toNat ≤ specializationElementLimit - s.specializationElements)

def State.addSlot (s : State) (len : ℤ) (isParam : Bool) : State :=
  { s with
    g := { s.g with slots := s.g.slots ++ [⟨len, isParam⟩] }
    specializationElements :=
      if s.boundedSpecialization then s.specializationElements + len.toNat
      else s.specializationElements }

def State.slotLen (s : State) (slot : ℕ) : ℤ := (s.g.slots.getD slot ⟨0, false⟩).len

/-- A range that fits 32 bits is kept; another one is forgotten. -/
def State.setIntRange (s : State) (slot : ℕ) (lo hi : ℤ) : State :=
  { s with
    intInitializedPrefix := Function.update s.intInitializedPrefix slot (some (s.slotLen slot))
    intRanges := Function.update s.intRanges slot
      (if lo < -2 ^ 31 ∨ 2 ^ 31 - 1 < hi ∨ hi < lo then none else some (lo, hi)) }

/-- In `write_array` the data environment is written through the journal. -/
def State.writeData (s : State) (name : Bytes) (v : Option Entry) : State :=
  { s with
    td :=
      if s.inWriteArray then s.td.write name v
      else { s.td with map := Function.update s.td.map name v } }

/-- The slot of a constant, made at its first use. -/
def State.constSlot (s : State) (v : Binary64) : State × ℕ :=
  match s.constCache v with
  | some slot => (s, slot)
  | none =>
    let slot := s.g.slots.length
    let s := s.addSlot 1 false
    ({ s with
        out := { s.out with fills := s.out.fills ++ [(slot, [v])] }
        constCache := Function.update s.constCache v (some slot) }, slot)

/-- The budgets of a bounded alternative allow the action. -/
def State.admits (s : State) : Primitive → Bool
  | .lowerStmt =>
    !s.boundedSpecialization || decide (s.specializationSteps + 1 ≤ specializationStepLimit)
  | .lowerTrips trips =>
    !s.boundedSpecialization || decide (trips ≤ specializationStepLimit - s.specializationSteps)
  | .addSlot len _ => s.admitsSlot len
  | .constSlot v => (s.constCache v).isSome || s.admitsSlot 1
  | _ => true

/-- What an action that is allowed does. -/
def apply (s : State) : Primitive → State × Answer
  | .lowerStmt =>
    ({ s with
        specializationSteps :=
          if s.boundedSpecialization then s.specializationSteps + 1 else s.specializationSteps }, .done)
  | .lowerTrips _ => (s, .done)
  | .addSlot len isParam => (s.addSlot len isParam, .slot s.g.slots.length)
  | .pushOp op => ({ s with g := { s.g with ops := s.g.ops ++ [op] } }, .done)
  | .pushIdata data =>
    ({ s with g := { s.g with idataPool := s.g.idataPool ++ [data] } },
      .number s.g.idataPool.length)
  | .pushUdata handle =>
    ({ s with g := { s.g with udataPool := s.g.udataPool ++ [handle] } }, .done)
  | .pushFill slot values =>
    ({ s with out := { s.out with fills := s.out.fills ++ [(slot, values)] } }, .done)
  | .pushParamName name =>
    ({ s with out := { s.out with paramNames := s.out.paramNames ++ [name] } }, .done)
  | .pushView view =>
    ({ s with out := { s.out with views := s.out.views ++ [view] } }, .done)
  | .pushUncParam name =>
    ({ s with out := { s.out with uncParams := s.out.uncParams ++ [name] } }, .done)
  | .noteInterpreterFallback note =>
    (if note ∈ s.out.interpreterFallbacks then s
      else { s with
        out := { s.out with interpreterFallbacks := s.out.interpreterFallbacks ++ [note] } }, .done)
  | .pushReduceSumFallback note =>
    ({ s with out := { s.out with reduceSumFallbacks := s.out.reduceSumFallbacks ++ [note] } }, .done)
  | .addUnconstrained n =>
    ({ s with out := { s.out with nUnconstrained := s.out.nUnconstrained + n } }, .done)
  | .setReduceSumNotice note => ({ s with out := { s.out with reduceSumNotice := note } }, .done)
  | .drawTransformedData => ({ s with out := { s.out with transformedDataDraws := true } }, .done)
  | .startTransformedParameters columns =>
    ({ s with nTpStart := some (s.nTpStart.getD columns) }, .done)
  | .startGeneratedQuantities columns =>
    ({ s with nGqStart := some (s.nGqStart.getD columns) }, .done)
  | .setScope name v => ({ s with scope := Function.update s.scope name v }, .done)
  | .setDecl name v => ({ s with decls := Function.update s.decls name v }, .done)
  | .setIntEnv name v => ({ s with intEnv := Function.update s.intEnv name v }, .done)
  | .setIntLocal name v => ({ s with intLocals := Function.update s.intLocals name v }, .done)
  | .bindSynthetic name v decl =>
    ({ s with
        scope := Function.update s.scope name (some v)
        decls := Function.update s.decls name (some decl)
        syntheticNames := s.syntheticNames ++ [name] }, .done)
  | .tdAssign name v => (s.writeData name (some v), .done)
  | .tdErase name => (if (s.td.map name).isSome then s.writeData name none else s, .done)
  | .setIntRange slot lo hi =>
    (if slot < s.g.slots.length then s.setIntRange slot lo hi else s, .done)
  | .setIntInitialized slot =>
    ({ s with
        intInitializedPrefix := Function.update s.intInitializedPrefix slot (some (s.slotLen slot))
        intRanges := Function.update s.intRanges slot none }, .done)
  | .setUninitializedIntArray slot =>
    ({ s with
        intRanges := Function.update s.intRanges slot none
        intInitializedPrefix := Function.update s.intInitializedPrefix slot (some 0) }, .done)
  | .setInitializedPrefix slot len =>
    ({ s with intInitializedPrefix := Function.update s.intInitializedPrefix slot len }, .done)
  | .setRealRange slot range =>
    (if slot < s.g.slots.length then
      { s with realRanges := Function.update s.realRanges slot range } else s, .done)
  | .constSlot v => ((s.constSlot v).1, .slot (s.constSlot v).2)
  | .observe v en =>
    ({ s with observations := Function.update s.observations v.key (some en) }, .done)
  | .forgetObservation v =>
    ({ s with observations := Function.update s.observations v.key none }, .done)
  | .pushTarget slot => ({ s with targetTerms := s.targetTerms ++ [slot] }, .done)
  | .pushJac slot => ({ s with jacSlots := s.jacSlots ++ [slot] }, .done)
  | .pushRoot slot => ({ s with extraRoots := s.extraRoots ++ [slot] }, .done)
  | .setLastWritten name => ({ s with lastWritten := name }, .done)
  | .findScope name => (s, .val (s.scope name))
  | .findDecl name => (s, .decl (s.decls name))
  | .findInt name => (s, .int (s.intEnv name))
  | .findIntLocal name => (s, .intLocal (s.intLocals name))
  | .findData name => (s, .entry (s.td.map name))
  | .findIntRange slot => (s, .intRange (s.intRanges slot))
  | .findRealRange slot => (s, .realRange (s.realRanges slot))
  | .findInitializedPrefix slot => (s, .int (s.intInitializedPrefix slot))
  | .observation key => (s, .entry (s.observations key))
  | .askLastWritten => (s, .name s.lastWritten)
  | .finish =>
    (s, .model s.g s.out (s.nTpStart, s.nGqStart) s.targetTerms s.jacSlots s.extraRoots)

mutual

/-- One action, or `none` where it is refused.  No handler of an attempt catches the refusal. -/
def step (s : State) : Action → Option (State × Answer)
  | .prim p => if s.admits p then some (apply s p) else none
  | .abandon names attempt =>
    match run s attempt with
    | none => none
    | some s' => some (waRestore (waSnapshot names s) s', .done)

def run (s : State) : List Action → Option State
  | [] => some s
  | a :: rest =>
    match step s a with
    | none => none
    | some r => run r.1 rest

end

/-! ## What comes later -/

/-- A lowering that goes by the answers it gets. -/
inductive Later
  | stop
  | act (a : Action) (next : Answer → Later)

/-- The answers of a lowering, which is over when an action is refused. -/
def Later.answers : Later → State → List Answer
  | .stop, _ => []
  | .act a next, s =>
    match step s a with
    | none => [.refused]
    | some r => r.2 :: (next r.2).answers r.1

end Speculation

end Stanli
