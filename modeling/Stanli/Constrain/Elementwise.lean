import Mathlib.Algebra.Field.Basic
import Mathlib.Algebra.Order.Group.Unbundled.Abs
import Stanli.Collapse.ClosedForms
import Stanli.Lib.Accumulate
import Stanli.Lib.Checks

/-!
# The elementwise constraint kernels

`clower`, `cupper`, `clu` and `offset_mult` of `constrain.cpp`, forward and backward.  The raw value, the
output, the scratch and the seeds have one cell for each of the `n` elements, and every loop stays below
`n`; an argument has its own length, so that reading it and adding to its adjoint is checked here
(`Failure.outOfBounds`).  In C++ such an access is undefined.

The code is read over a field.  A bound may be infinite, and so may a number that the checks are to
refuse (`Extended`).  The packet forms of the loops compute the same numbers.
-/

namespace Stanli.Constrain

open Function
open Collapse (Desc)

/-- The elementary functions that the kernels call. -/
structure Elementary (R : Type) where
  exp : R → R
  log : R → R
  log1m : R → R
  log1pExp : R → R
  invLogit : R → R
  tanh : R → R
  cosh : R → R
  sqrt : R → R

/-- The value of an argument: a number, or the infinity of its side. -/
inductive Extended (R : Type)
  | infinite
  | finite (v : R)
deriving DecidableEq, Repr

/-- What stops a call: an access outside a buffer, or a check that fails. -/
inductive Failure
  | outOfBounds
  | checkLess (function name : String)
  | checkFinite (function name : String)
  | checkPositiveFinite (function name : String)
  | checkSizeMatch (function name expected : String)
deriving DecidableEq, Repr

variable {R : Type} [Field R] [LinearOrder R]

namespace Extended

def isInfinite : Extended R → Bool
  | infinite => true
  | finite _ => false

/-- The number of a finite value.  No result depends on the one of an infinite value. -/
def num : Extended R → R
  | infinite => 0
  | finite v => v

/-- `lb < ub`, for a lower and an upper bound. -/
def lt : Extended R → Extended R → Bool
  | finite a, finite b => decide (a < b)
  | _, _ => true

end Extended

/-! ## Arguments -/

/-- One cell of an argument. -/
def read {α : Type} (a : Desc α) (i : ℕ) : Except Failure α :=
  if i < a.len then .ok (a.data i) else .error .outOfBounds

/-- `Bound`: one shared value or one per element. -/
structure Bound (α : Type) where
  p : Desc α
  stride : ℕ

namespace Bound

variable {α : Type}

def ofDesc (a : Desc α) : Bound α := ⟨a, if 1 < a.len then 1 else 0⟩

def get (b : Bound α) (i : ℕ) : Except Failure α := read b.p (i * b.stride)

def varies (b : Bound α) : Bool := b.stride != 0

end Bound

/-- `element_name`. -/
def elementName (name : String) (varies : Bool) (i rows : ℕ) : String :=
  if varies = false then name
  else if 0 < rows then
    name ++ "[" ++ toString (i % rows + 1) ++ ", " ++ toString (i / rows + 1) ++ "]"
  else name ++ "[" ++ toString (i + 1) ++ "]"

/-- `has_inf`, for the infinity of the bound's own side. -/
def hasInf (b : Bound (Extended R)) (n : ℕ) : Except Failure Bool :=
  if b.varies = false then do
    let v ← b.get 0
    return v.isInfinite
  else
    (List.range n).anyM fun i => do
      let v ← read b.p i
      return v.isInfinite

/-- `has_inf(lb, n, kNegInf) || has_inf(ub, n, kPosInf)`. -/
def eitherInf (lb ub : Bound (Extended R)) (n : ℕ) : Except Failure Bool := do
  let inf ← hasInf lb n
  if inf then return true else hasInf ub n

/-- `check_offset_multiplier`. -/
def checkOffsetMultiplier (mu sigma : Desc (Extended R)) (rows : ℕ) : Except Failure Unit := do
  (List.range mu.len).foldlM (fun _ i =>
    if (mu.data i).isInfinite then
      .error (.checkFinite "offset_multiplier_constrain"
        (elementName "offset" (decide (1 < mu.len)) i rows))
    else .ok ()) ()
  (List.range sigma.len).foldlM (fun _ i =>
    if (sigma.data i).isInfinite = false ∧ 0 < (sigma.data i).num then .ok ()
    else .error (.checkPositiveFinite "offset_multiplier_constrain"
      (elementName "multiplier" (decide (1 < sigma.len)) i rows))) ()

/-- `check_lub_bounds`. -/
def checkLubBounds (lb ub : Bound (Extended R)) (n : ℕ) : Except Failure Unit := do
  let lb0 ← lb.get 0
  if lb0.isInfinite && !lb.varies then return ()
  else
    let ub0 ← ub.get 0
    if ub0.isInfinite && !ub.varies then return ()
    else
      let varies := lb.varies || ub.varies
      (List.range (if varies then n else 1)).foldlM (fun _ i => do
        let l ← lb.get i
        let u ← ub.get i
        if l.lt u then return ()
        else throw (.checkLess "lub_constrain" (elementName "lb" varies i 0))) ()

/-! ## Results -/

/-- Where a forward leaves its results. -/
structure Cells (R : Type) where
  out : ℕ → R
  out2 : R
  scratch : ℕ → R

namespace Cells

def setOut (c : Cells R) (i : ℕ) (v : R) : Cells R := { c with out := update c.out i v }

def setScratch (c : Cells R) (i : ℕ) (v : R) : Cells R := { c with scratch := update c.scratch i v }

omit [Field R] [LinearOrder R] in
@[simp] lemma setOut_out (c : Cells R) (i : ℕ) (v : R) : (c.setOut i v).out = update c.out i v := rfl

omit [Field R] [LinearOrder R] in
@[simp] lemma setScratch_scratch (c : Cells R) (i : ℕ) (v : R) :
    (c.setScratch i v).scratch = update c.scratch i v := rfl

end Cells

/-- An adjoint buffer: where it starts, and its length. -/
structure AdjDesc where
  base : ℕ
  len : ℕ
deriving DecidableEq, Repr

/-- `a.data[i] += v`. -/
def AdjDesc.add (a : AdjDesc) (i : ℕ) (v : R) (m : ℕ → R) : Except Failure (ℕ → R) :=
  if i < a.len then .ok (update m (a.base + i) (m (a.base + i) + v)) else .error .outOfBounds

/-- `if (a.data)`. -/
def whenPresent (a : Option AdjDesc) (f : AdjDesc → (ℕ → R) → Except Failure (ℕ → R)) (m : ℕ → R) :
    Except Failure (ℕ → R) :=
  match a with
  | none => .ok m
  | some a => f a m

/-- `a.data[i] += v`, where there is an adjoint. -/
def addTo (a : Option AdjDesc) (i : ℕ) (v : R) : (ℕ → R) → Except Failure (ℕ → R) :=
  whenPresent a fun a => a.add i v

/-- `seq_sum`. -/
def seqSum (p : ℕ → R) (n : ℕ) : R := (List.range n).foldl (fun s i => s + p i) 0

/-- `masked_sum`. -/
def maskedSum (x : ℕ → R) (bound : Desc (Extended R)) (n : ℕ) : Except Failure R :=
  (List.range n).foldlM (fun s i => do
    let b ← read bound i
    return s + if b.isInfinite then 0 else x i) 0

/-- `add_bound_adj`. -/
def addBoundAdj (arg : Desc (Extended R)) (adj : Option AdjDesc) (terms : ℕ → R) (n : ℕ) :
    (ℕ → R) → Except Failure (ℕ → R) :=
  whenPresent adj fun a m =>
    if (Bound.ofDesc arg).varies then
      (List.range n).foldlM (fun m i => a.add i (terms i) m) m
    else a.add 0 (seqSum terms n) m

/-- `BoundAdj`. -/
structure BoundAdj (R : Type) where
  p : Option AdjDesc
  varies : Bool
  lane : R
  touched : Bool

namespace BoundAdj

def ofDesc (arg : Desc (Extended R)) (adj : Option AdjDesc) : BoundAdj R :=
  ⟨adj, (Bound.ofDesc arg).varies, 0, false⟩

/-- `BoundAdj::add`. -/
def add (b : BoundAdj R) (i : ℕ) (v : R) (m : ℕ → R) : Except Failure (BoundAdj R × (ℕ → R)) :=
  match b.p with
  | none => .ok (b, m)
  | some a =>
    if b.varies then do
      let m ← a.add i v m
      return ({ b with touched := true }, m)
    else .ok ({ b with touched := true, lane := b.lane + v }, m)

/-- `if (!skip) b.add(i, v)`. -/
def addUnless (b : BoundAdj R) (skip : Bool) (i : ℕ) (v : R) (m : ℕ → R) :
    Except Failure (BoundAdj R × (ℕ → R)) :=
  if skip then .ok (b, m) else b.add i v m

/-- `BoundAdj::commit`. -/
def commit (b : BoundAdj R) (m : ℕ → R) : Except Failure (ℕ → R) :=
  match b.p with
  | none => .ok m
  | some a => if b.varies = false ∧ b.touched = true then a.add 0 b.lane m else .ok m

end BoundAdj

variable (F : Elementary R)

/-! ## One-sided bounds -/

/-- The forwards of `clower` and `cupper`, with what they do to a bound and the stored exponential. -/
def oneSidedFwd (apply : R → R → R) (n : ℕ) (x : ℕ → R) (arg : Desc (Extended R)) (c : Cells R) :
    Except Failure (Cells R) := do
  let b := Bound.ofDesc arg
  let inf ← hasInf b n
  if inf then
    if b.varies = false then
      return { (List.range n).foldl (fun c i => c.setOut i (x i)) c with out2 := 0 }
    else
      let c ← (List.range n).foldlM (fun c i => do
        let bi ← b.get i
        let e := F.exp (x i)
        return (c.setScratch i e).setOut i (if bi.isInfinite then x i else apply bi.num e)) c
      let s ← maskedSum x arg n
      return { c with out2 := s }
  else
    let c ← (List.range n).foldlM (fun c i => do
      let bi ← b.get i
      let e := F.exp (x i)
      return (c.setScratch i e).setOut i (apply bi.num e)) c
    return { c with out2 := seqSum x n }

/-- `clower_fwd`. -/
def clowerFwd : ℕ → (ℕ → R) → Desc (Extended R) → Cells R → Except Failure (Cells R) :=
  oneSidedFwd F fun lb e => e + lb

/-- `cupper_fwd`. -/
def cupperFwd : ℕ → (ℕ → R) → Desc (Extended R) → Cells R → Except Failure (Cells R) :=
  oneSidedFwd F fun ub e => ub - e

omit F in
/-- The backwards of `clower` and `cupper`, with the sign of the exponential. -/
def oneSidedBwd (sign : R → R) (n : ℕ) (arg : Desc (Extended R)) (xAdj argAdj : Option AdjDesc)
    (expX dout : ℕ → R) (lpAdj : R) (m : ℕ → R) : Except Failure (ℕ → R) := do
  let b := Bound.ofDesc arg
  let inf ← hasInf b n
  if inf then
    let m ← (List.range n).foldlM (fun m i => do
      if b.varies = false then addTo xAdj i (dout i) m
      else
        let bi ← b.get i
        addTo xAdj i (if bi.isInfinite then dout i else sign (dout i) * expX i + lpAdj) m) m
    if b.varies then
      let r ← (List.range n).foldlM (fun r i => do
        let bi ← b.get i
        r.1.addUnless bi.isInfinite i (dout i) r.2) (BoundAdj.ofDesc arg argAdj, m)
      return r.2
    else return m
  else
    let m ← (List.range n).foldlM (fun m i => addTo xAdj i (sign (dout i) * expX i + lpAdj) m) m
    addBoundAdj arg argAdj dout n m

/-- `clower_bwd`. -/
def clowerBwd : ℕ → Desc (Extended R) → Option AdjDesc → Option AdjDesc → (ℕ → R) → (ℕ → R) → R →
    (ℕ → R) → Except Failure (ℕ → R) :=
  oneSidedBwd fun d => d

/-- `cupper_bwd`. -/
def cupperBwd : ℕ → Desc (Extended R) → Option AdjDesc → Option AdjDesc → (ℕ → R) → (ℕ → R) → R →
    (ℕ → R) → Except Failure (ℕ → R) :=
  oneSidedBwd fun d => -d

/-! ## Two bounds -/

/-- `clu_inv_logit`.  No exponential of a number is infinite. -/
def cluInvLogit (n : ℕ) (x : ℕ → R) (c : Cells R) : Cells R :=
  if n = 1 then c.setScratch 0 (F.invLogit (x 0))
  else (List.range n).foldl (fun c i => c.setScratch i (F.exp (x i) / (1 + F.exp (x i)))) c

/-- `nax - 2.0 * log1p_exp(nax)`. -/
def logisticTerm (x : R) : R := -|x| - 2 * F.log1pExp (-|x|)

/-- `clu_fwd_inf`. -/
def cluFwdInf (n : ℕ) (x : ℕ → R) (lb ub : Bound (Extended R)) (c : Cells R) :
    Except Failure (Cells R) := do
  let jac ← (List.range n).foldlM (fun jac i => do
    let l ← lb.get i
    let u ← ub.get i
    return if l.isInfinite && u.isInfinite then jac
      else if l.isInfinite || u.isInfinite then jac + x i
      else jac + (F.log (u.num - l.num) + logisticTerm F (x i))) 0
  let c := cluInvLogit F n x { c with out2 := jac }
  (List.range n).foldlM (fun c i => do
    let l ← lb.get i
    let u ← ub.get i
    return c.setOut i (
      if l.isInfinite && u.isInfinite then x i
      else if l.isInfinite then u.num - F.exp (x i)
      else if u.isInfinite then F.exp (x i) + l.num
      else (u.num - l.num) * c.scratch i + l.num)) c

/-- `clu_fwd`. -/
def cluFwd (n : ℕ) (x : ℕ → R) (lbArg ubArg : Desc (Extended R)) (c : Cells R) :
    Except Failure (Cells R) := do
  let lb := Bound.ofDesc lbArg
  let ub := Bound.ofDesc ubArg
  checkLubBounds lb ub n
  let inf ← eitherInf lb ub n
  if inf then cluFwdInf F n x lb ub c
  else
    let varies := lb.varies || ub.varies
    let ub0 ← ub.get 0
    let lb0 ← lb.get 0
    let diff0 := ub0.num - lb0.num
    let logDiff0 := F.log diff0
    let jac ← (List.range n).foldlM (fun jac i => do
      let l ← lb.get i
      let u ← ub.get i
      let logDiff := if varies then F.log (u.num - l.num) else logDiff0
      return jac + (logDiff + logisticTerm F (x i))) 0
    let c := cluInvLogit F n x { c with out2 := jac }
    (List.range n).foldlM (fun c i => do
      let l ← lb.get i
      let u ← ub.get i
      return c.setOut i ((if varies then u.num - l.num else diff0) * c.scratch i + l.num)) c

/-- One element of `clu_bwd_inf`, which keeps the lanes of both bounds. -/
def cluBwdInfElement (x : ℕ → R) (lb ub : Bound (Extended R)) (xAdj : Option AdjDesc) (il dout : ℕ → R)
    (lpAdj : R) (r : BoundAdj R × BoundAdj R × (ℕ → R)) (i : ℕ) :
    Except Failure (BoundAdj R × BoundAdj R × (ℕ → R)) := do
  let l ← lb.get i
  let u ← ub.get i
  let diff := u.num - l.num
  let m ← addTo xAdj i (
    if l.isInfinite && u.isInfinite then dout i
    else if l.isInfinite then -dout i * F.exp (x i) + lpAdj
    else if u.isInfinite then dout i * F.exp (x i) + lpAdj
    else dout i * diff * il i * (1 - il i) + lpAdj * (1 - 2 * il i)) r.2.2
  let rl ← r.1.addUnless l.isInfinite i
    (if u.isInfinite then dout i else dout i * (1 - il i) - 1 / diff * lpAdj) m
  let ru ← r.2.1.addUnless u.isInfinite i
    (if l.isInfinite then dout i else dout i * il i + 1 / diff * lpAdj) rl.2
  return (rl.1, ru.1, ru.2)

/-- `clu_bwd_inf`. -/
def cluBwdInf (n : ℕ) (x : ℕ → R) (lbArg ubArg : Desc (Extended R))
    (xAdj lbAdj ubAdj : Option AdjDesc) (il dout : ℕ → R) (lpAdj : R) (m : ℕ → R) :
    Except Failure (ℕ → R) := do
  let lb := Bound.ofDesc lbArg
  let ub := Bound.ofDesc ubArg
  let r ← (List.range n).foldlM (cluBwdInfElement F x lb ub xAdj il dout lpAdj)
    (BoundAdj.ofDesc lbArg lbAdj, BoundAdj.ofDesc ubArg ubAdj, m)
  let m ← r.1.commit r.2.2
  r.2.1.commit m

omit F in
/-- The loop of `clu_bwd` over one of its bounds, where a bound varies. -/
def cluBoundBwd (isLb : Bool) (n : ℕ) (lb ub b : Bound (Extended R)) (adj : Option AdjDesc)
    (il dout : ℕ → R) (lpAdj : R) : (ℕ → R) → Except Failure (ℕ → R) :=
  whenPresent adj fun a m => do
    let r ← (List.range n).foldlM (fun (r : R × (ℕ → R)) i => do
      let l ← lb.get i
      let u ← ub.get i
      let half := 1 / (u.num - l.num) * lpAdj
      let t := dout i * (if isLb then 1 - il i else il i) + if isLb then -half else half
      if b.varies then do
        let m ← a.add i t r.2
        return (r.1, m)
      else return (r.1 + t, r.2)) (0, m)
    if b.varies then return r.2 else a.add 0 r.1 r.2

/-- `clu_bwd`. -/
def cluBwd (n : ℕ) (x : ℕ → R) (lbArg ubArg : Desc (Extended R))
    (xAdj lbAdj ubAdj : Option AdjDesc) (il dout : ℕ → R) (lpAdj : R) (m : ℕ → R) :
    Except Failure (ℕ → R) := do
  let lb := Bound.ofDesc lbArg
  let ub := Bound.ofDesc ubArg
  let inf ← eitherInf lb ub n
  if inf then cluBwdInf F n x lbArg ubArg xAdj lbAdj ubAdj il dout lpAdj m
  else
    let varies := lb.varies || ub.varies
    let ub0 ← ub.get 0
    let lb0 ← lb.get 0
    let diff0 := ub0.num - lb0.num
    let m ← (List.range n).foldlM (fun m i => do
      let l ← lb.get i
      let u ← ub.get i
      addTo xAdj i (dout i * (if varies then u.num - l.num else diff0) * il i * (1 - il i) +
        lpAdj * (1 - 2 * il i)) m) m
    if varies = false then
      let nd : R := n
      let oneOverDiff := 1 / diff0
      let m ← addTo lbAdj 0
        (seqSum (fun i => dout i * (1 - il i)) n + -oneOverDiff * lpAdj * nd) m
      addTo ubAdj 0 (seqSum (fun i => dout i * il i) n + oneOverDiff * lpAdj * nd) m
    else
      let m ← cluBoundBwd true n lb ub lb lbAdj il dout lpAdj m
      cluBoundBwd false n lb ub ub ubAdj il dout lpAdj m

/-! ## Offset and multiplier -/

/-- `sg[sg_v ? i : 0]`, and the same for the offset. -/
def readShared (a : Desc (Extended R)) (i : ℕ) : Except Failure R := do
  let v ← read a (if 1 < a.len then i else 0)
  return v.num

/-- `offset_mult_fwd`. -/
def offsetMultFwd (n : ℕ) (x : ℕ → R) (mu sg : Desc (Extended R)) (rows : ℕ) (c : Cells R) :
    Except Failure (Cells R) := do
  checkOffsetMultiplier mu sg rows
  let c ← (List.range n).foldlM (fun c i => do
    let s ← readShared sg i
    let o ← readShared mu i
    return c.setOut i (s * x i + o)) c
  if 1 < sg.len then
    let s ← (List.range n).foldlM (fun s i => do
      let v ← read sg i
      return s + F.log v.num) 0
    return { c with out2 := s }
  else
    let v ← read sg 0
    return { c with out2 := (n : R) * F.log v.num }

omit F in
/-- `offset_mult_bwd`. -/
def offsetMultBwd (n : ℕ) (x : ℕ → R) (mu sg : Desc (Extended R))
    (xAdj muAdj sgAdj : Option AdjDesc) (dout : ℕ → R) (lpAdj : R) (m : ℕ → R) :
    Except Failure (ℕ → R) := do
  let m ← whenPresent xAdj (fun a m => (List.range n).foldlM (fun m i => do
    let s ← readShared sg i
    a.add i (dout i * s) m) m) m
  let m ← whenPresent muAdj (fun a m =>
    if 1 < mu.len then (List.range n).foldlM (fun m i => a.add i (dout i) m) m
    else a.add 0 (seqSum dout n) m) m
  whenPresent sgAdj (fun a m =>
    if 1 < sg.len then
      (List.range n).foldlM (fun m i => do
        let m ← a.add i (dout i * x i) m
        let s ← read sg i
        a.add i (lpAdj / s.num) m) m
    else do
      let s ← read sg 0
      a.add 0 (seqSum (fun i => dout i * x i) n + lpAdj * (n : R) / s.num) m) m

/-! ## The operations -/

/-- The elementwise operations of the registry. -/
inductive Elementwise
  | lower
  | upper
  | lu
  | offsetMult
deriving DecidableEq, Repr

namespace Elementwise

/-- How many arguments an operation has after the raw value. -/
def arity : Elementwise → ℕ
  | lower => 1
  | upper => 1
  | lu => 2
  | offsetMult => 2

/-- The forward kernel of an operation, for the arguments `in[1]` and `in[2]`. -/
def forward (op : Elementwise) (n : ℕ) (x : ℕ → R) (arg : ℕ → Desc (Extended R)) (rows : ℕ)
    (c : Cells R) : Except Failure (Cells R) :=
  match op with
  | lower => clowerFwd F n x (arg 1) c
  | upper => cupperFwd F n x (arg 1) c
  | lu => cluFwd F n x (arg 1) (arg 2) c
  | offsetMult => offsetMultFwd F n x (arg 1) (arg 2) rows c

/-- The backward kernel of an operation, for the adjoints `in_adj[0]`, `in_adj[1]` and `in_adj[2]`. -/
def backward (op : Elementwise) (n : ℕ) (x : ℕ → R) (arg : ℕ → Desc (Extended R))
    (adj : ℕ → Option AdjDesc) (scratch dout : ℕ → R) (lpAdj : R) (m : ℕ → R) :
    Except Failure (ℕ → R) :=
  match op with
  | lower => clowerBwd n (arg 1) (adj 0) (adj 1) scratch dout lpAdj m
  | upper => cupperBwd n (arg 1) (adj 0) (adj 1) scratch dout lpAdj m
  | lu => cluBwd F n x (arg 1) (arg 2) (adj 0) (adj 1) (adj 2) scratch dout lpAdj m
  | offsetMult => offsetMultBwd n x (arg 1) (arg 2) (adj 0) (adj 1) (adj 2) dout lpAdj m

end Elementwise

end Stanli.Constrain
