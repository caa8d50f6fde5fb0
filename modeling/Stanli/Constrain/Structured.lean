import Stanli.Constrain.Elementwise

/-!
# The structured constraint kernels

`structured_fwd` and `structured_bwd` of `constrain.cpp` for the kinds with a closed-form pullback: the
simplex, the two ordered vectors and the Cholesky factor of a correlation matrix.  The leaves of a batch
lie one after the other in the raw value, in the output and in the scratch.

The transforms of Stan Math that the forward calls, and the adjoints that its tape leaves, are parameters
(`StanMath`).  The forward is the one of an evaluation with a gradient, not of a value-only one.  A zero
that the code adds an adjoint to is left out.
-/

namespace Stanli.Constrain

open Function

variable {R : Type} [Field R] [LinearOrder R]

/-- The kinds with a closed-form pullback. -/
inductive StructuredKind
  | simplex
  | ordered
  | positiveOrdered
  | choleskyCorr
deriving DecidableEq, Repr

/-- What the kernels call of Stan Math: each transform takes the number of raw values, the raw values and
the accumulator of the log-Jacobian, and gives the constrained values and the new accumulator. -/
structure StanMath (R : Type) where
  simplexConstrain : ℕ → (ℕ → R) → R → (ℕ → R) × R
  orderedConstrain : ℕ → (ℕ → R) → R → (ℕ → R) × R
  positiveOrderedConstrain : ℕ → (ℕ → R) → R → (ℕ → R) × R
  /-- The adjoints that the tape of `cholesky_corr_constrain` leaves, for the size, the raw values and
  the seeds. -/
  choleskyCorrTape : ℕ → (ℕ → R) → (ℕ → R) → R → ℕ → R

/-- `Eigen::Map`: the `n` cells of a buffer from an offset on. -/
def mapAt (p : ℕ → R) (off n : ℕ) : ℕ → R := fun i => if i < n then p (off + i) else 0

/-- The geometry of a call: `idata`. -/
structure Geometry where
  nb : ℕ
  innerRaw : ℕ
  dim2 : ℕ
  dim3 : ℕ
deriving DecidableEq, Repr

/-- `structured_output_width`. -/
def Geometry.innerCon (g : Geometry) : StructuredKind → ℕ
  | .simplex => g.dim2
  | .ordered => g.dim2
  | .positiveOrdered => g.dim2
  | .choleskyCorr => g.dim2 * g.dim3

variable (F : Elementary R) (S : StanMath R)

/-! ## The Cholesky factor of a correlation matrix -/

/-- Where `cholesky_corr_rev_values` is: the matrix by columns, the scratch, the next raw value, the sum
of squares of the row, and the log-Jacobian. -/
structure CholState (R : Type) where
  x : ℕ → R
  scratch : ℕ → R
  k : ℕ
  sumSqs : R
  lp : R
  eligible : Bool

/-- The start of a leaf's retained values: `z`, `prefixes`, `roots` and `diagonal`. -/
def retainedAt (raw size b : ℕ) : ℕ := 1 + b * (3 * raw + size)

/-- The loop over the raw values. -/
def cholTanh (raw base : ℕ) (y : ℕ → R) (s : CholState R) : CholState R :=
  let r := (List.range raw).foldl (fun (r : CholState R × R) i =>
    let z := F.tanh (y i)
    ({ r.1 with
        scratch := update r.1.scratch (base + i) z
        eligible := r.1.eligible && decide (z * z < 1) }, r.2 + F.log1m (z * z))) (s, 0)
  { r.1 with lp := r.1.lp + r.2 }

/-- One entry below the diagonal, after the first one of its row. -/
def cholEntry (raw size base : ℕ) (y : ℕ → R) (i : ℕ) (s : CholState R) (j : ℕ) : CholState R :=
  let root := F.sqrt (1 - s.sumSqs)
  let x := F.tanh (y s.k) * root
  { x := update s.x (j * size + i) x
    scratch := update (update s.scratch (base + raw + s.k) s.sumSqs) (base + 2 * raw + s.k) root
    k := s.k + 1
    sumSqs := s.sumSqs + x * x
    lp := s.lp + 1 / 2 * F.log1m s.sumSqs
    eligible := s.eligible && decide (0 < root) }

/-- The first entry of a row. -/
def cholFirst (raw base : ℕ) (y : ℕ → R) (i : ℕ) (s : CholState R) : CholState R :=
  let z := F.tanh (y s.k)
  { s with
    x := update s.x i z
    scratch := update (update s.scratch (base + raw + s.k) 0) (base + 2 * raw + s.k) 1
    k := s.k + 1
    sumSqs := z * z }

/-- The diagonal entry of a row. -/
def cholDiagonal (raw size base i : ℕ) (s : CholState R) : CholState R :=
  let d := F.sqrt (1 - s.sumSqs)
  { s with
    x := update s.x (i * size + i) d
    scratch := update s.scratch (base + 3 * raw + i) d
    eligible := s.eligible && decide (0 < d) }

/-- One row. -/
def cholRow (raw size base : ℕ) (y : ℕ → R) (s : CholState R) (i : ℕ) : CholState R :=
  cholDiagonal F raw size base i
    ((List.range (i - 1)).foldl (fun s t => cholEntry F raw size base y i s (t + 1))
      (cholFirst F raw base y i s))

/-- `cholesky_corr_rev_values`. -/
def choleskyCorrRevValues (raw size base : ℕ) (y : ℕ → R) (lp : R) (scratch : ℕ → R)
    (eligible : Bool) : Except Failure (CholState R) :=
  if raw ≠ size * (size - 1) / 2 then
    .error (.checkSizeMatch "cholesky_corr_constrain" "y.size()" "k_choose_2")
  else
    let s := cholTanh F raw base y ⟨0, scratch, 0, 0, lp, eligible⟩
    if size = 0 then .ok s
    else
      .ok ((List.range (size - 1)).foldl (fun s t => cholRow F raw size base y s (t + 1))
        { s with x := update s.x 0 1 })

/-! ## The forward -/

/-- Copy a leaf's constrained values to the output. -/
def copyOut (off con : ℕ) (v : ℕ → R) (c : Cells R) : Cells R :=
  (List.range con).foldl (fun c i => c.setOut (off + i) (v i)) c

/-- One leaf of `structured_fwd`. -/
def structuredLeaf (kind : StructuredKind) (g : Geometry) (x : ℕ → R) (r : R × Cells R) (b : ℕ) :
    Except Failure (R × Cells R) :=
  let raw := g.innerRaw
  let con := g.innerCon kind
  let y := mapAt x (b * raw) raw
  match kind with
  | .simplex =>
    let v := S.simplexConstrain raw y r.1
    .ok (v.2, copyOut (b * con) con v.1 r.2)
  | .ordered =>
    let v := S.orderedConstrain raw y r.1
    .ok (v.2, (List.range (raw - 1)).foldl (fun c t => c.setScratch (b * raw + t) (F.exp (y (t + 1))))
      (copyOut (b * con) con v.1 r.2))
  | .positiveOrdered =>
    let v := S.positiveOrderedConstrain raw y r.1
    .ok (v.2, (List.range raw).foldl (fun c t => c.setScratch (b * raw + t) (F.exp (y t)))
      (copyOut (b * con) con v.1 r.2))
  | .choleskyCorr => do
    let s ← choleskyCorrRevValues F raw g.dim2 (retainedAt raw g.dim2 b) y r.1 r.2.scratch
      (r.2.scratch 0 != 0)
    return (s.lp, copyOut (b * con) con s.x
      { r.2 with scratch := update s.scratch 0 (if s.eligible then 1 else 0) })

/-- `structured_fwd`. -/
def structuredFwd (kind : StructuredKind) (g : Geometry) (x : ℕ → R) (c : Cells R) :
    Except Failure (Cells R) := do
  let c := match kind with
    | .choleskyCorr => c.setScratch 0 1
    | _ => c
  let r ← (List.range g.nb).foldlM (structuredLeaf F S kind g x) (0, c)
  return { r.2 with out2 := r.1 }

/-! ## The pullbacks -/

/-- One step of `simplex_bwd_batch`, for the derivatives by the coordinates. -/
def simplexBwdStep (b raw : ℕ) (zAdj : ℕ → R) (a : AdjDesc) (r : R × (ℕ → R)) (i : ℕ) :
    Except Failure (R × (ℕ → R)) := do
  let n : R := (i : R) + 1
  let sumUAdj := r.1 + zAdj i
  let vAdj := -zAdj (i + 1) * n
  let m ← a.add (b * raw + i) ((vAdj + sumUAdj) / F.sqrt (n * (n + 1))) r.2
  return (sumUAdj, m)

/-- `simplex_bwd_batch`. -/
def simplexBwdBatch (b raw con : ℕ) (out seed : ℕ → R) (lpAdj : R) (a : AdjDesc) (m : ℕ → R) :
    Except Failure (ℕ → R) := do
  let res := fun i => out (b * con + i)
  let sd := fun i => seed (b * con + i)
  let dot := (List.range con).foldl (fun d i => d + sd i * res i) 0
  let c := dot + (con : R) * lpAdj
  let zAdj := fun i => -res i * c + (res i * sd i + lpAdj)
  let r ← (List.range raw).foldlM (simplexBwdStep F b raw zAdj a) (0, m)
  return r.2

omit F in
/-- One step of `ordered_bwd_batch` that adds to the raw value `n`, whose exponential is `e`. -/
def orderedBwdStep (b raw con : ℕ) (seed : ℕ → R) (lpAdj : R) (a : AdjDesc) (n : ℕ) (e : R)
    (r : R × (ℕ → R)) : Except Failure (R × (ℕ → R)) := do
  let rolling := r.1 + seed (b * con + n)
  let m ← a.add (b * raw + n) (e * rolling + lpAdj) r.2
  return (rolling, m)

omit F in
/-- `ordered_bwd_batch` of the ordered kind. -/
def orderedBwdBatch (b raw con : ℕ) (scratch seed : ℕ → R) (lpAdj : R) (a : AdjDesc) (m : ℕ → R) :
    Except Failure (ℕ → R) := do
  let r ← (List.range (raw - 1)).foldlM (fun r t =>
    let n := raw - 1 - t
    orderedBwdStep b raw con seed lpAdj a n (scratch (b * raw + (n - 1))) r) (0, m)
  if 0 < raw then a.add (b * raw) (r.1 + seed (b * con)) r.2 else return r.2

omit F in
/-- `ordered_bwd_batch` of the positive kind. -/
def positiveOrderedBwdBatch (b raw con : ℕ) (scratch seed : ℕ → R) (lpAdj : R) (a : AdjDesc)
    (m : ℕ → R) : Except Failure (ℕ → R) := do
  let r ← (List.range raw).foldlM (fun r t =>
    let n := raw - 1 - t
    orderedBwdStep b raw con seed lpAdj a n (scratch (b * raw + n)) r) (0, m)
  return r.2

/-- What `cholesky_corr_bwd_batch` reads of a leaf. -/
structure Retained (R : Type) where
  z : ℕ → R
  pre : ℕ → R
  root : ℕ → R
  diagonal : ℕ → R

omit F [Field R] [LinearOrder R] in
/-- The retained values of a leaf in the scratch. -/
def Retained.ofScratch (raw size b : ℕ) (scratch : ℕ → R) : Retained R :=
  let base := retainedAt raw size b
  { z := fun k => scratch (base + k)
    pre := fun k => scratch (base + raw + k)
    root := fun k => scratch (base + 2 * raw + k)
    diagonal := fun i => scratch (base + 3 * raw + i) }

/-- `scatter`: the adjoint of a raw value from that of its hyperbolic tangent. -/
def cholScatter (t : Retained R) (y : ℕ → R) (lpAdj : R) (a : AdjDesc) (off k : ℕ) (zAdj : R)
    (m : ℕ → R) : Except Failure (ℕ → R) :=
  let squareAdj := lpAdj / (t.z k * t.z k - 1)
  let zAdj := zAdj + squareAdj * 2 * t.z k
  let c := F.cosh (y k)
  a.add (off + k) (zAdj / (c * c)) m

/-- The reverse of one entry after the first one of its row. -/
def cholBwdEntry (t : Retained R) (size : ℕ) (y sd : ℕ → R) (lpAdj : R) (a : AdjDesc) (off i j : ℕ)
    (r : ℕ × R × (ℕ → R)) : Except Failure (ℕ × R × (ℕ → R)) := do
  let k := r.1 - 1
  let x := t.z k * t.root k
  let xAdj := sd (j * size + i) + r.2.1 * 2 * x
  let zAdj := xAdj * t.root k
  let rootAdj := xAdj * t.z k
  let previousAdj := r.2.1 - rootAdj / (2 * t.root k) + lpAdj * (1 / 2) / (t.pre k - 1)
  let m ← cholScatter F t y lpAdj a off k zAdj r.2.2
  return (k, previousAdj, m)

/-- The reverse of one row. -/
def cholBwdRow (t : Retained R) (size : ℕ) (y sd : ℕ → R) (lpAdj : R) (a : AdjDesc) (off : ℕ)
    (r : ℕ × (ℕ → R)) (i : ℕ) : Except Failure (ℕ × (ℕ → R)) := do
  let differenceAdj := sd (i * size + i) / (2 * t.diagonal i)
  let r ← (List.range (i - 1)).foldlM (fun r l => cholBwdEntry F t size y sd lpAdj a off i (i - 1 - l) r)
    (r.1, -differenceAdj, r.2)
  let k := r.1 - 1
  let m ← cholScatter F t y lpAdj a off k (sd i + r.2.1 * 2 * t.z k) r.2.2
  return (k, m)

/-- `cholesky_corr_bwd_batch`. -/
def cholBwdBatch (b raw size con : ℕ) (x scratch seed : ℕ → R) (lpAdj : R) (a : AdjDesc) (m : ℕ → R) :
    Except Failure (ℕ → R) := do
  let t := Retained.ofScratch raw size b scratch
  let r ← (List.range (size - 1)).foldlM (fun r l =>
    cholBwdRow F t size (fun k => x (b * raw + k)) (fun i => seed (b * con + i)) lpAdj a (b * raw) r
      (size - 1 - l)) (raw, m)
  return r.2

/-- The adjoints of a tape, added to those of the leaf. -/
def tapeBwdBatch (b raw size con : ℕ) (x seed : ℕ → R) (lpAdj : R) (a : AdjDesc) (m : ℕ → R) :
    Except Failure (ℕ → R) :=
  let adj := S.choleskyCorrTape size (mapAt x (b * raw) raw) (fun i => seed (b * con + i)) lpAdj
  (List.range raw).foldlM (fun m i => a.add (b * raw + i) (adj i) m) m

/-- `structured_bwd`. -/
def structuredBwd (kind : StructuredKind) (g : Geometry) (x out scratch seed : ℕ → R) (lpAdj : R)
    (adj : Option AdjDesc) : (ℕ → R) → Except Failure (ℕ → R) :=
  let raw := g.innerRaw
  let con := g.innerCon kind
  whenPresent adj fun a m => (List.range g.nb).foldlM (fun m b =>
    match kind with
    | .simplex => simplexBwdBatch F b raw con out seed lpAdj a m
    | .ordered => orderedBwdBatch b raw con scratch seed lpAdj a m
    | .positiveOrdered => positiveOrderedBwdBatch b raw con scratch seed lpAdj a m
    | .choleskyCorr =>
      if scratch 0 ≠ 0 then cholBwdBatch F b raw g.dim2 con x scratch seed lpAdj a m
      else tapeBwdBatch S b raw g.dim2 con x seed lpAdj a m) m

/-- How much scratch a call has. -/
def structuredScratch (kind : StructuredKind) (g : Geometry) : ℕ :=
  match kind with
  | .simplex => 0
  | .ordered => g.nb * g.innerRaw
  | .positiveOrdered => g.nb * g.innerRaw
  | .choleskyCorr => 1 + g.nb * (3 * g.innerRaw + g.dim2)

end Stanli.Constrain
