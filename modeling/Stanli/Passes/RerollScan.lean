import Mathlib.Data.List.Range
import Stanli.Lib.Periodic
import Stanli.Passes.RerollMatch

/-!
# The scan for rerolled regions

The region scan of `reroll.cpp`, with and without its signature prefilter.  At each op it tries the
periods in order: skip a period that is not due yet or whose first period holds no candidate, count
the lanes that match, classify them on shrinking prefixes, and either emit a region and jump past it
or note where the period may be tried again.

Classifying a prefix and emitting what it selects are a parameter (`Rewriter`).  Both see the region
only through its start, period and lane count, and what they read and write is a state of their own:
the slots and fills added so far, the target terms, the renaming and the emitted ops.  Emission only
appends slots, so it never changes the lengths the match and the signature read.
-/

namespace Stanli

namespace Reroll

variable {U σ : Type*}

def kMinLanes : ℕ := 4

def kMaxPeriod : ℕ := 32

def kMaxClassifyAttempts : ℕ := 6

/-! ## Candidates -/

/-- `is_element_store`. -/
def isElementStore (op : Op U) : Bool :=
  (op.opcode == .setIndex || op.opcode == .setIndexInplace) && op.ins.length == 2 &&
    op.idata.length == 1 && op.out == op.input 0

/-- `kRerollAnyDensity`. -/
def anyDensity (oc : Opcode) : Bool :=
  oc.hasTrait .rerollDensity || oc.hasTrait .rerollIdataDensity

/-- `is_candidate_op`: every profitable region has such an op in its first period. -/
def isCandidateOp (termSet : ℕ → Bool) (t : Op U) : Bool :=
  anyDensity t.opcode || isElementStore t || t.isRowStore ||
    (t.opcode.hasTrait .rerollWidenable && termSet t.out)

/-- `next_candidate`, from position `u` on: the first candidate at or after each position, or the
number of ops. -/
def nextCandidate (termSet : ℕ → Bool) : ℕ → List (Op U) → List ℕ
  | u, [] => [u]
  | u, op :: ops =>
    let later := nextCandidate termSet (u + 1) ops
    (if isCandidateOp termSet op = true then u else later.headD u) :: later

/-! ## Counting lanes -/

/-- `ops_match` between two positions of the op list. -/
def matchAt (g : Graph U) (k k' : ℕ) (laneDistance : ℕ) : Bool :=
  match g.ops[k]?, g.ops[k']? with
  | some a, some b => opsMatch g a b laneDistance
  | _, _ => false

/-- Lane `L` matches the first one at every position of the period. -/
def laneMatches (g : Graph U) (i P L : ℕ) : Bool :=
  (List.range P).all fun p => matchAt g (i + p) (i + L * P + p) L

/-- The condition under which the counting loop goes on from `L` lanes. -/
def laneFollows (g : Graph U) (i P L : ℕ) : Bool :=
  decide (i + (L + 1) * P ≤ g.ops.length) && laneMatches g i P L

/-- `sig`. -/
def sig (g : Graph U) : List UInt64 :=
  g.ops.map (opSignature g)

/-- `period_fwd`: how many more ops, one every `P` positions, have the signature of each op. -/
def periodFwd (g : Graph U) (P : ℕ) : List ℕ :=
  runAhead P (sig g)

/-- The loop over the period that takes the least entry of `fwd`, given up once the bound it has is
below the lanes a region needs. -/
def laneCap (fwd : List ℕ) (i : ℕ) : List ℕ → ℕ → ℕ
  | [], cap => cap
  | p :: ps, cap =>
    if kMinLanes ≤ cap + 1 then laneCap fwd i ps (min cap (fwd.getD (i + p) 0)) else cap

/-- The count of matching lanes, when there are enough of them for a region. -/
def enoughLanes (L : ℕ) : Option ℕ :=
  if L < kMinLanes then none else some L

/-- The lanes of period `P` from op `i` on, counted by comparing every lane. -/
def directLanes (g : Graph U) (i P : ℕ) : Option ℕ :=
  enoughLanes (countUp (laneFollows g i P) g.ops.length 1)

/-- The same count behind the prefilter: a period whose signatures do not repeat often enough is
skipped, and no lane past their run is compared. -/
def prefilteredLanes (g : Graph U) (i P : ℕ) : Option ℕ :=
  let fwd := periodFwd g P
  let cap := laneCap fwd i (List.range' 1 (P - 1)) (fwd.getD i 0)
  if cap + 1 < kMinLanes then none
  else enoughLanes
    (countUp (fun L => decide (L ≤ cap + 1) && laneFollows g i P L) g.ops.length 1)

/-- The lane count of either scan. -/
def lanes (prefilter : Bool) (g : Graph U) (i P : ℕ) : Option ℕ :=
  if prefilter = true then prefilteredLanes g i P else directLanes g i P

/-! ## The scan -/

/-- What classifying the first `Luse` lanes of a region says: a plan, here the state after emitting
it, or the prefix that might still classify. -/
inductive Attempt (σ : Type*)
  | selected (emitted : σ)
  | bounded (breakAt : ℕ)

/-- The part of the pass that looks inside a region. -/
structure Rewriter (σ : Type*) where
  /-- Classify and price the first `Luse` lanes of period `P` at op `i`. -/
  attempt : σ → (i P Luse : ℕ) → Attempt σ
  /-- Append op `i` under the current names. -/
  copy : σ → ℕ → σ

/-- `rigid_diverges`: between two lanes an op outside the vocabulary changes an input. -/
def rigidDiverges (g : Graph U) (i P base : ℕ) : Bool :=
  (List.range P).any fun p =>
    match g.ops[i + base * P + p]?, g.ops[i + (base + 1) * P + p]? with
    | some t0, some t1 =>
      !(t0.opcode == .index || isElementStore t0 || t0.isRowStore || t0.isRowRead ||
        anyDensity t0.opcode || t0.opcode.hasTrait .rerollWidenable) && t0.ins != t1.ins
    | _, _ => false

/-- The classification loop: either a prefix is selected, or the last prefix left to try. -/
def shrink (rw : Rewriter σ) (s : σ) (i P : ℕ) : ℕ → ℕ → ℕ × Option σ
  | 0, Luse => (Luse, none)
  | attempts + 1, Luse =>
    if kMinLanes ≤ Luse then
      match rw.attempt s i P Luse with
      | .selected emitted => (Luse, some emitted)
      -- guarantee progress
      | .bounded breakAt =>
        shrink rw s i P attempts (if Luse ≤ breakAt then Luse - 1 else breakAt)
    else (Luse, none)

/-- The scan's own state: when each period is due again, and what is known of its failures. -/
structure ScanState (σ : Type*) where
  retryAt : ℕ → ℕ := fun _ => 0
  failEnd : ℕ → ℕ := fun _ => 0
  hardFailed : ℕ → Bool := fun _ => false
  emitted : σ

/-- A region the scan selects: its start, its period, the lanes that match and those it keeps. -/
structure Region where
  start : ℕ
  period : ℕ
  lanes : ℕ
  used : ℕ
deriving DecidableEq, Repr

/-- What the scan does at a position: copy the op there, or replace a region. -/
inductive Visit
  | copied (i : ℕ)
  | region (r : Region)
deriving DecidableEq, Repr

/-- The bookkeeping after a failed classification of `L` lanes that left `Luse`. -/
def ScanState.failed (st : ScanState σ) (i P L Luse : ℕ) (doomedNext : Bool) : ScanState σ :=
  let runEnd := i + P * L
  if 0 < Luse then
    { st with retryAt := Function.update st.retryAt P (i + P * Luse),
              hardFailed := Function.update st.hardFailed P false }
  else if st.hardFailed P = true ∧ i < st.failEnd P then
    { st with retryAt := Function.update st.retryAt P (st.failEnd P) }
  else
    { st with failEnd := Function.update st.failEnd P runEnd,
              hardFailed := Function.update st.hardFailed P true,
              retryAt := Function.update st.retryAt P (if doomedNext = true then runEnd else i + P) }

/-- One turn of the loop over periods that reaches classification with `L` lanes. -/
def classify (g : Graph U) (rw : Rewriter σ) (st : ScanState σ) (i P L : ℕ) :
    ScanState σ × Option Region :=
  let doomed := rigidDiverges g i P 0
  let doomedNext := doomed && decide (kMinLanes < L) && rigidDiverges g i P 1
  match shrink rw st.emitted i P kMaxClassifyAttempts (if doomed = true then 0 else L) with
  | (Luse, some emitted) => ({ st with emitted := emitted }, some ⟨i, P, L, Luse⟩)
  | (Luse, none) => (st.failed i P L Luse doomedNext, none)

/-- One turn of the loop over periods. -/
def tryPeriod (prefilter : Bool) (g : Graph U) (next : List ℕ) (rw : Rewriter σ)
    (st : ScanState σ) (i P : ℕ) : ScanState σ × Option Region :=
  if i < st.retryAt P then (st, none)
  else if i + P ≤ next.getD i 0 then (st, none)
  else
    match lanes prefilter g i P with
    | none => (st, none)
    | some L => classify g rw st i P L

/-- The loop over periods: the first region found. -/
def tryPeriods (prefilter : Bool) (g : Graph U) (next : List ℕ) (rw : Rewriter σ) (i : ℕ) :
    List ℕ → ScanState σ → ScanState σ × Option Region
  | [], st => (st, none)
  | P :: Ps, st =>
    if i + 2 * P ≤ g.ops.length then
      match tryPeriod prefilter g next rw st i P with
      | (st', some r) => (st', some r)
      | (st', none) => tryPeriods prefilter g next rw i Ps st'
    else (st, none)

/-- The scan from op `i` on. -/
def scanFrom (prefilter : Bool) (g : Graph U) (next : List ℕ) (rw : Rewriter σ) :
    ℕ → ℕ → ScanState σ → List Visit × σ
  | 0, _, st => ([], st.emitted)
  | fuel + 1, i, st =>
    if i < g.ops.length then
      match tryPeriods prefilter g next rw i (List.range' 1 kMaxPeriod) st with
      | (st', some r) =>
        let rest := scanFrom prefilter g next rw fuel (i + r.period * r.used) st'
        (.region r :: rest.1, rest.2)
      | (st', none) =>
        let rest := scanFrom prefilter g next rw fuel (i + 1)
          { st' with emitted := rw.copy st'.emitted i }
        (.copied i :: rest.1, rest.2)
    else ([], st.emitted)

/-- The scan of a graph: what it visits, and what the rewriter has emitted.  The pass returns before
it when no op is a candidate.  Each turn consumes an op, so there are no more turns than ops
(`flatMap_positions_scanFrom`). -/
def scan (prefilter : Bool) (g : Graph U) (termSet : ℕ → Bool) (rw : Rewriter σ) (s : σ) :
    List Visit × σ :=
  scanFrom prefilter g (nextCandidate termSet 0 g.ops) rw g.ops.length 0 { emitted := s }

/-- The ops a visit consumes. -/
def Visit.positions : Visit → List ℕ
  | .copied i => [i]
  | .region r => List.range' r.start (r.period * r.used)

end Reroll

end Stanli
