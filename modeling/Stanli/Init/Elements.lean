import Stanli.Init.Interp
import Stanli.Init.Storage

/-!
# Constraining and reading out

The way back: the kernels of `constrain.cpp` on the pieces of the free vector, and `constrained_env` of
`compile.hpp`, which lists what they stored in serial order.  Bounds are slots of the graph here, and a
container bound is stored the way the value it bounds is.

For one element and its bounds, `LeafMath.Inverse` is what is assumed of stan-math: each free function is
undone by its constrain function under the same bounds.  `constrain_unconstrain` is the step for one
element of an elementwise transform.
-/

namespace Stanli.Init

open Mir (TransformKind)

section Constrain

variable {V : Type} (m : LeafMath V)

/-! ## Bounds -/

/-- `Bound::operator[]`: a shared bound is read through stride 0. -/
def boundCell (e : List V) (i : ℕ) : V := e.getD (i * if 1 < e.length then 1 else 0) m.past

/-- `Bound::varies`. -/
def varies (e : List V) : Bool := decide (1 < e.length)

def elementName (name : String) (varies : Bool) (i : ℕ) : String :=
  if varies then name ++ "[" ++ toString (i + 1) ++ "]" else name

/-- `check_lub_bounds`: an infinite shared bound makes the transform one-sided, and nothing is checked. -/
def checkLubBounds (lb ub : List V) (n : ℕ) : Except String Unit :=
  if m.isNegInf (boundCell m lb 0) = true ∧ varies lb = false then .ok ()
  else if m.isPosInf (boundCell m ub 0) = true ∧ varies ub = false then .ok ()
  else do
    let each := varies lb || varies ub
    let _checked ← (List.range (if each then n else 1)).mapM fun i =>
      failIf (m.less (boundCell m lb i) (boundCell m ub i) = false)
        ("lub_constrain: " ++ elementName "lb" each i)
    pure ()

/-- `check_offset_multiplier`. -/
def checkOffsetMultiplier (mu sigma : List V) : Except String Unit := do
  let _offsets ← (List.range mu.length).mapM fun i =>
    failIf (m.finite (mu.getD i m.past) = false)
      ("offset_multiplier_constrain: " ++ elementName "offset" (varies mu) i)
  let _multipliers ← (List.range sigma.length).mapM fun i =>
    failIf (m.positiveFinite (sigma.getD i m.past) = false)
      ("offset_multiplier_constrain: " ++ elementName "multiplier" (varies sigma) i)
  pure ()

/-! ## Kernels -/

/-- One element of an elementwise kernel, with the bounds of that element. -/
def elementConstrain (op : ConstrainOp) (y : V) (bounds : List V) : V :=
  match op with
  | .lower => m.lbConstrain y (bounds.getD 0 m.past)
  | .upper => m.ubConstrain y (bounds.getD 0 m.past)
  | .lowerUpper => m.lubConstrain y (bounds.getD 0 m.past) (bounds.getD 1 m.past)
  | .offsetMult => m.offsetMultiplierConstrain y (bounds.getD 0 m.past) (bounds.getD 1 m.past)
  | _ => y

/-- The loop of an elementwise kernel. -/
def constrainElements (op : ConstrainOp) (bounds : List (List V)) (x : List V) : List V :=
  x.mapIdx fun i y => elementConstrain m op y (bounds.map (boundCell m · i))

/-- Batch `b` of a structured kernel. -/
def structuredBatch (op : ConstrainOp) (innerRaw innerCon : ℕ) (leaf : List ℤ) (x : List V) (b : ℕ) :
    Except String (List V) := do
  let y := (List.range innerRaw).map fun i => x.getD (b * innerRaw + i) m.past
  let con ← m.constrain op leaf y
  pure ((List.range innerCon).map fun i => con.getD i m.past)

/-- `structured_fwd` and `sum_to_zero_mat_fwd`: one leaf after the other. -/
def structuredFwd (op : ConstrainOp) (idata : List ℤ) (x : List V) : Except String (List V) := do
  let nb := (idata.getD 0 0).toNat
  let innerRaw := (idata.getD 1 0).toNat
  let leaf := idata.drop 2
  let innerCon := leaf.prod.toNat
  let parts ← (List.range nb).mapM (structuredBatch m op innerRaw innerCon leaf x)
  pure parts.flatten

/-- The kernel of an op: what it stores. -/
def constrainKernel (op : ConstrainOp) (idata : List ℤ) (bounds : List (List V)) (x : List V) :
    Except String (List V) :=
  match op with
  | .lower | .upper => .ok (constrainElements m op bounds x)
  | .lowerUpper => do
    checkLubBounds m (bounds.getD 0 []) (bounds.getD 1 []) x.length
    pure (constrainElements m op bounds x)
  | .offsetMult => do
    checkOffsetMultiplier m (bounds.getD 0 []) (bounds.getD 1 [])
    pure (constrainElements m op bounds x)
  | _ => structuredFwd m op idata x

/-- The inputs of the op after the unconstrained piece: a missing offset is zero, a missing multiplier
one. -/
def kernelBounds (kind : TransformKind) (slots : List (List V)) : List (List V) :=
  match kind with
  | .lower | .upper => [slots.getD 0 []]
  | .lowerUpper | .offsetMultiplier => [slots.getD 0 [], slots.getD 1 []]
  | .offset => [slots.getD 0 [], [m.one]]
  | .multiplier => [[m.zero], slots.getD 0 []]
  | _ => []

/-- The stored value of a parameter, from its unconstrained piece. -/
def constrainParam (r : ReadParam) (slots : List (List V)) (raw : List V) : Except String (List V) :=
  match r.op with
  | none => .ok raw
  | some op => constrainKernel m op r.idata (kernelBounds m r.kind slots) raw

/-- One entry of `constrained_env`. -/
def readOut (view : ParamView) (stored : List V) : List V :=
  (List.range view.len).map fun i => stored.getD (view.storageIndex i) m.past

/-! ## Models -/

/-- A declared parameter that the lowering accepts, with its bounds on both sides: as the init section
evaluates them, in serial order, and as slots of the graph.  Both are expressions over the parameters
before. -/
structure Param (V : Type) where
  decl : ReadStmt
  read : ReadParam
  accepted : lowerReadParam decl = .ok read
  bounds : List (BoundExpr V)
  slots : List (Env V → List V)

def Param.name (p : Param V) : String := p.read.view.name

/-- The parameters the init section expects. -/
def initParams (ps : List (Param V)) : Except String (List InitParam) := ps.mapM (initParam ·.read)

/-- `transform_inits`: every parameter is read and its free form written. -/
def transformInits (ps : List (Param V)) : List (InitStmt V) :=
  ps.flatMap fun p => [.read p.name, .write p.name p.read.kind p.bounds]

/-- `unconstrain_inits`. -/
def unconstrainInits (ps : List (Param V)) (inits : List (String × Entry V)) :
    Except InitError (List V) := do
  let params ← (initParams ps).mapError .compile
  eval m params (transformInits ps) inits

/-- The parameters of the graph, each from its piece of the free vector, and what `constrained_env` lists
of them. -/
def constrainAll : List (Param V) → Env V → List V → Except String (Env V)
  | [], env, _ => .ok env
  | p :: ps, env, free => do
    let stored ← constrainParam m p.read (p.slots.map (· env)) (free.take p.read.rawLen)
    constrainAll ps (env ++ [(p.name, readOut m p.read.view stored)]) (free.drop p.read.rawLen)

end Constrain

/-! ## One value of a parameter -/

variable {V : Type} {m : LeafMath V}

/-- The op constrains leaves of this many dimensions. -/
def ConstrainOp.OnRank (op : ConstrainOp) (rank : ℕ) : Prop :=
  op.onVectors = true ∧ rank = 1 ∨ op.onMatrices = true ∧ rank = 2

/-- Each free function is the inverse of its constrain function under equal bounds; the constrain
functions of two bounds check them first.  A free leaf has the free length. -/
structure LeafMath.Inverse (m : LeafMath V) : Prop where
  lower : ∀ {x lb y}, m.lbFree x lb = .ok y → m.lbConstrain y lb = x
  upper : ∀ {x ub y}, m.ubFree x ub = .ok y → m.ubConstrain y ub = x
  lowerUpper : ∀ {x lb ub y}, m.lubFree x lb ub = .ok y →
    m.less lb ub = true ∧ m.lubConstrain y lb ub = x
  offsetMultiplier : ∀ {x mu sigma y}, m.offsetMultiplierFree x mu sigma = .ok y →
    m.finite mu = true ∧ m.positiveFinite sigma = true ∧ m.offsetMultiplierConstrain y mu sigma = x
  leaf : ∀ {kind leaf dims op n xs ys}, isStructuredCheck kind = true →
    constrainOp kind leaf = .ok (some op) → op.OnRank dims.length →
    freeLeafSize kind (dims.map Nat.cast) = .ok n → xs.length = dims.prod →
    m.free kind dims xs = .ok ys →
    (ys.length : ℤ) = n ∧ m.constrain op (dims.map Nat.cast) ys = .ok xs

/-! ## Bounds -/

/-- The bound of the value at a serial position. -/
def serialBound (m : LeafMath V) (e : List V) (serial : ℕ) : V :=
  e.getD (if 1 < e.length then serial else 0) m.past

/-- A bound the graph stores: one value for all, or one for each value, in storage order. -/
def BoundAgrees (m : LeafMath V) (view : ParamView) (e slot : List V) : Prop :=
  e.length = 1 ∧ slot = e ∨
    e.length = view.len ∧ slot.length = view.len ∧ readOut m view slot = e

/-- The two bounds of one element, a missing one at its identity. -/
def elementBounds (m : LeafMath V) (kind : TransformKind) (bounds : List V) : List V :=
  match kind with
  | .lower | .upper => [bounds.getD 0 m.past]
  | .lowerUpper | .offsetMultiplier => [bounds.getD 0 m.past, bounds.getD 1 m.past]
  | .offset => [bounds.getD 0 m.past, m.one]
  | .multiplier => [m.zero, bounds.getD 0 m.past]
  | _ => []

@[simp] theorem boundCell_singleton (x : V) (i : ℕ) : boundCell m [x] i = x := by
  simp [boundCell]

theorem boundCell_getD (slots : List (List V)) (k i : ℕ) :
    boundCell m (slots.getD k []) i = (slots.map (boundCell m · i)).getD k m.past := by
  by_cases hk : k < slots.length
  · rw [List.getD_eq_getElem _ _ hk, List.getD_eq_getElem _ _ (by simpa using hk), List.getElem_map]
  · rw [List.getD_eq_default _ _ (by omega), List.getD_eq_default _ _ (by simp; omega)]
    simp [boundCell]

/-- What the kernel reads of its bounds for element `i`. -/
theorem map_boundCell_kernelBounds (kind : TransformKind) (slots : List (List V)) (i : ℕ) :
    (kernelBounds m kind slots).map (boundCell m · i) =
      elementBounds m kind (slots.map (boundCell m · i)) := by
  cases kind <;> simp only [kernelBounds, elementBounds, List.map_cons, List.map_nil, boundCell_getD,
    boundCell_singleton]

theorem getD_readOut {view : ParamView} {stored : List V} {i : ℕ} (hi : i < view.len) (d : V) :
    (readOut m view stored).getD i d = stored.getD (view.storageIndex i) m.past := by
  rw [readOut, List.getD_eq_getElem (n := i) _ _ (by simpa using hi), List.getElem_map,
    List.getElem_range]

/-- A bound that is read out as the init section has it holds the bound of every value. -/
theorem BoundAgrees.boundCell {view : ParamView} {e slot : List V} (h : BoundAgrees m view e slot)
    (hstorage : ∀ i < view.len, view.storageIndex i < view.len) {i : ℕ} (hi : i < view.len) :
    boundCell m slot (view.storageIndex i) = serialBound m e i := by
  rcases h with ⟨hone, rfl⟩ | ⟨helen, hlen, rfl⟩
  · rw [Init.boundCell, serialBound, hone]
    rfl
  · rw [Init.boundCell, serialBound, helen, hlen]
    by_cases hmany : 1 < view.len
    · rw [if_pos hmany, if_pos hmany, Nat.mul_one, getD_readOut hi]
    · have hlt := hstorage 0 (by omega)
      rw [if_neg hmany, if_neg hmany, Nat.mul_zero, getD_readOut (by omega)]
      congr 1
      omega

/-! ## Elements -/

theorem argAt_singleton (x : V) (i : ℕ) (what : String) : argAt m [x] i what = .ok x := rfl

theorem needArgs_eq_ok {args : List (List V)} {n : ℕ} {what : String} {u : Unit} :
    needArgs args n what = .ok u ↔ args.length = n := by
  rw [needArgs, failIf_eq_ok, not_ne_iff]

/-- The checks that an elementwise kernel makes of the bounds of an element. -/
def Passes (m : LeafMath V) (op : ConstrainOp) (bounds : List V) : Prop :=
  match op with
  | .lowerUpper => m.less (bounds.getD 0 m.past) (bounds.getD 1 m.past) = true
  | .offsetMult => m.finite (bounds.getD 0 m.past) = true ∧
    m.positiveFinite (bounds.getD 1 m.past) = true
  | _ => True

section Free

variable {bounds : List V} {i : ℕ} {x y : V}

/-- A transform of one bound. -/
theorem one_bound {f : V → V → Except String V} {what which : String}
    (h : (do
      needArgs (bounds.map ([·])) 1 what
      let b ← argAt m ((bounds.map ([·])).getD 0 []) i which
      (f x b).mapError .math) = Except.ok (ε := InitError) y) : f x (bounds.getD 0 m.past) = .ok y := by
  simp only [bind_eq_ok_iff, needArgs_eq_ok, mapError_eq_ok_iff, List.length_map] at h
  obtain ⟨_, hlen, b, hb, h⟩ := h
  obtain ⟨c, rfl⟩ := List.length_eq_one_iff.1 hlen
  rw [List.map_singleton, List.getD_cons_zero, argAt_singleton, Except.ok.injEq] at hb
  rwa [List.getD_cons_zero, hb]

/-- A transform of two bounds. -/
theorem two_bounds {f : V → V → V → Except String V} {what which which' : String}
    (h : (do
      needArgs (bounds.map ([·])) 2 what
      let b ← argAt m ((bounds.map ([·])).getD 0 []) i which
      let b' ← argAt m ((bounds.map ([·])).getD 1 []) i which'
      (f x b b').mapError .math) = Except.ok (ε := InitError) y) :
    f x (bounds.getD 0 m.past) (bounds.getD 1 m.past) = .ok y := by
  simp only [bind_eq_ok_iff, needArgs_eq_ok, mapError_eq_ok_iff, List.length_map] at h
  obtain ⟨_, hlen, b, hb, b', hb', h⟩ := h
  obtain ⟨c, c', rfl⟩ := List.length_eq_two.1 hlen
  simp only [List.map_cons, List.map_nil, List.getD_cons_zero, List.getD_cons_succ, argAt_singleton,
    Except.ok.injEq] at hb hb'
  rwa [List.getD_cons_zero, List.getD_cons_succ, List.getD_cons_zero, hb, hb']

/-- An element that has been freed under its bounds is constrained back under the same bounds, which have
passed their checks. -/
theorem constrain_unconstrain (hm : m.Inverse) {kind : TransformKind} {leaf : ViewKind} {op : ConstrainOp}
    (hop : constrainOp kind leaf = .ok (some op)) (hkind : elementwise kind = true)
    (h : unconstrainElement m kind (bounds.map ([·])) i x = .ok y) :
    Passes m op (elementBounds m kind bounds) ∧
      elementConstrain m op y (elementBounds m kind bounds) = x := by
  cases kind with
  | identity => cases hop
  | lower =>
    cases hop
    have hfree : m.lbFree x (bounds.getD 0 m.past) = .ok y := one_bound h
    exact ⟨trivial, hm.lower hfree⟩
  | upper =>
    cases hop
    have hfree : m.ubFree x (bounds.getD 0 m.past) = .ok y := one_bound h
    exact ⟨trivial, hm.upper hfree⟩
  | lowerUpper =>
    cases hop
    have hfree : m.lubFree x (bounds.getD 0 m.past) (bounds.getD 1 m.past) = .ok y := two_bounds h
    exact hm.lowerUpper hfree
  | offset =>
    cases hop
    have hfree : m.offsetMultiplierFree x (bounds.getD 0 m.past) m.one = .ok y :=
      one_bound (f := fun x b => m.offsetMultiplierFree x b m.one) h
    obtain ⟨hmu, hsigma, hx⟩ := hm.offsetMultiplier hfree
    exact ⟨⟨hmu, hsigma⟩, hx⟩
  | multiplier =>
    cases hop
    have hfree : m.offsetMultiplierFree x m.zero (bounds.getD 0 m.past) = .ok y :=
      one_bound (f := fun x b => m.offsetMultiplierFree x m.zero b) h
    obtain ⟨hmu, hsigma, hx⟩ := hm.offsetMultiplier hfree
    exact ⟨⟨hmu, hsigma⟩, hx⟩
  | offsetMultiplier =>
    cases hop
    have hfree : m.offsetMultiplierFree x (bounds.getD 0 m.past) (bounds.getD 1 m.past) = .ok y :=
      two_bounds h
    obtain ⟨hmu, hsigma, hx⟩ := hm.offsetMultiplier hfree
    exact ⟨⟨hmu, hsigma⟩, hx⟩
  | _ => cases hkind

end Free

end Stanli.Init
