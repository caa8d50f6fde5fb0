import Mathlib.Algebra.Order.BigOperators.GroupWithZero.List
import Mathlib.Tactic.Linarith
import Stanli.Init.ReadParam

/-!
# Free lengths and allocated lengths

What an accepted declaration has passed, and from it that `free_leaf_size` and the lowering agree on the
free length of every leaf.
-/

namespace Stanli.Init

open Mir (TransformKind)

/-! ## Structured leaves -/

theorem prod_pair (a b : ℤ) : [a, b].prod = a * b := by
  rw [List.prod_cons, List.prod_singleton]

/-- What the shape of a structured parameter says of one leaf with these dimensions. -/
structure Structured (kind : TransformKind) (leaf : ViewKind) (dims : List ℤ) (nBatch : ℤ)
    (shape : LeafShape) : Prop where
  leaf_cases : leaf = .vector ∨ leaf = .matrix
  free : freeLeafSize kind dims = .ok shape.innerRaw
  innerRaw_nonneg : 0 ≤ shape.innerRaw
  rawLen : shape.rawLen = nBatch * shape.innerRaw
  innerCon : shape.innerCon = dims.prod
  conLen : shape.conLen = nBatch * shape.innerCon
  empty : dims.prod = 0 → shape.innerRaw = 0
  nonneg : ∀ d ∈ dims, 0 ≤ d
  matrix : leaf = .matrix → dims = [shape.matrixRows, shape.matrixCols]

theorem squareSide_pair {a b : ℤ} (h : a = b) (what : String) : squareSide [a, b] what = .ok b := by
  subst h
  rw [squareSide, if_neg (by simp)]
  exact if_neg (not_not.2 rfl)

section Leaves

variable {kind : TransformKind} {leaf : ViewKind} {declared outer : List ℤ} {nBatch free : ℤ}
  {shape : LeafShape}

/-- The last dimension of a declaration with a vector leaf. -/
theorem drop_one {declared : List ℤ} (h : declared ≠ []) :
    declared.drop (declared.length - 1) = [declared.getD (declared.length - 1) 0] := by
  have hpos := List.length_pos_iff.2 h
  rw [List.drop_eq_getElem_cons (by omega), List.drop_eq_nil_of_le (by omega),
    List.getD_eq_getElem _ _ (by omega)]

/-- The last two dimensions of a declaration with a matrix leaf. -/
theorem drop_two {declared : List ℤ} (h : 2 ≤ declared.length) :
    declared.drop (declared.length - 2) =
      [declared.getD (declared.length - 2) 0, declared.getD (declared.length - 1) 0] := by
  rw [List.drop_eq_getElem_cons (by omega), List.drop_eq_getElem_cons (by omega),
    List.drop_eq_nil_of_le (by omega), List.getD_eq_getElem _ _ (by omega),
    List.getD_eq_getElem _ _ (by omega)]
  congr 3
  omega

theorem vectorLeaf_structured (h : vectorLeaf leaf declared outer nBatch free = .ok shape)
    (hfree : freeLeafSize kind [declared.getD (declared.length - 1) 0] = .ok free)
    (hempty : 0 ≤ free → declared.getD (declared.length - 1) 0 = 0 → free = 0) :
    Structured kind leaf (declared.drop (declared.length - leafRank leaf)) nBatch shape := by
  simp only [vectorLeaf, bind_eq_ok_iff, pure, Except.pure, Except.ok.injEq] at h
  obtain ⟨_, hcheck, rawLen, hraw, conLen, hcon, rfl⟩ := h
  rw [failIf_eq_ok, not_or, not_ne_iff] at hcheck
  obtain ⟨rfl, hne⟩ := hcheck
  obtain ⟨hnonneg, hraw⟩ := checkedProduct_eq_ok hraw
  obtain ⟨hlast, hcon⟩ := checkedProduct_eq_ok hcon
  rw [leafRank, drop_one hne]
  rw [prod_pair] at hraw hcon
  exact
    { leaf_cases := .inl rfl
      free := hfree
      innerRaw_nonneg := hnonneg free (by simp)
      rawLen := hraw
      innerCon := (List.prod_singleton).symm
      conLen := hcon
      empty := fun h0 => hempty (hnonneg free (by simp)) (by rwa [List.prod_singleton] at h0)
      nonneg := fun d hd => by
        rw [List.mem_singleton] at hd
        exact hd ▸ hlast _ (by simp)
      matrix := fun h => by cases h }

theorem flatMatrixLeaf_structured (h : flatMatrixLeaf leaf declared outer nBatch free = .ok shape)
    (hfree : freeLeafSize kind [declared.getD (declared.length - 2) 0,
      declared.getD (declared.length - 1) 0] = .ok free)
    (hempty : 0 ≤ declared.getD (declared.length - 1) 0 →
      declared.getD (declared.length - 2) 0 * declared.getD (declared.length - 1) 0 = 0 → free = 0) :
    Structured kind leaf (declared.drop (declared.length - leafRank leaf)) nBatch shape := by
  simp only [flatMatrixLeaf, bind_eq_ok_iff, pure, Except.pure, Except.ok.injEq] at h
  obtain ⟨_, hcheck, innerCon, hinner, rawLen, hraw, conLen, hcon, rfl⟩ := h
  rw [failIf_eq_ok, not_or, not_ne_iff, not_lt] at hcheck
  obtain ⟨rfl, hlen⟩ := hcheck
  obtain ⟨hnonneg, hraw⟩ := checkedProduct_eq_ok hraw
  obtain ⟨-, hcon⟩ := checkedProduct_eq_ok hcon
  rw [leafRank, drop_two hlen]
  rw [prod_pair] at hraw hcon
  exact
    { leaf_cases := .inr rfl
      free := hfree
      innerRaw_nonneg := hnonneg free (by simp)
      rawLen := hraw
      innerCon := (checkedProduct_eq_ok hinner).2
      conLen := hcon
      empty := fun h0 =>
        hempty ((checkedProduct_eq_ok hinner).1 _ (by simp)) (by rwa [prod_pair] at h0)
      nonneg := (checkedProduct_eq_ok hinner).1
      matrix := fun _ => rfl }

theorem smallerMatrixLeaf_structured {lessRows lessCols : ℤ} {what : String}
    (h : smallerMatrixLeaf declared outer nBatch lessRows lessCols what = .ok shape)
    (hlen : 2 ≤ declared.length)
    (hfree : freeLeafSize kind [declared.getD (declared.length - 2) 0,
      declared.getD (declared.length - 1) 0] =
      .ok ((declared.getD (declared.length - 2) 0 - lessRows) *
        (declared.getD (declared.length - 1) 0 - lessCols)))
    (hempty : 0 ≤ declared.getD (declared.length - 2) 0 - lessRows →
      0 ≤ declared.getD (declared.length - 1) 0 - lessCols →
      declared.getD (declared.length - 2) 0 * declared.getD (declared.length - 1) 0 = 0 →
      (declared.getD (declared.length - 2) 0 - lessRows) *
        (declared.getD (declared.length - 1) 0 - lessCols) = 0) :
    Structured kind .matrix (declared.drop (declared.length - 2)) nBatch shape := by
  simp only [smallerMatrixLeaf, bind_eq_ok_iff, pure, Except.pure, Except.ok.injEq] at h
  obtain ⟨innerRaw, hinnerRaw, innerCon, hinner, rawLen, hraw, conLen, hcon, rfl⟩ := h
  obtain ⟨hnonneg, hraw⟩ := checkedProduct_eq_ok hraw
  obtain ⟨-, hcon⟩ := checkedProduct_eq_ok hcon
  rw [drop_two hlen]
  rw [prod_pair] at hraw hcon
  obtain ⟨hsides, hinnerRaw⟩ := checkedProduct_eq_ok hinnerRaw
  rw [prod_pair] at hinnerRaw
  exact
    { leaf_cases := .inr rfl
      free := by rw [hfree, hinnerRaw]
      innerRaw_nonneg := hnonneg innerRaw (by simp)
      rawLen := hraw
      innerCon := (checkedProduct_eq_ok hinner).2
      conLen := hcon
      empty := fun h0 => by
        rw [prod_pair] at h0
        exact hinnerRaw.trans (hempty (hsides _ (by simp)) (hsides _ (by simp)) h0)
      nonneg := (checkedProduct_eq_ok hinner).1
      matrix := fun _ => rfl }

/-- A square of area zero has no side. -/
theorem side_eq_zero {a b : ℤ} (h : a = b) (h0 : a * b = 0) : b = 0 := by
  rw [h] at h0
  exact mul_self_eq_zero.1 h0

/-- The shape of a structured parameter is that of its leaves. -/
theorem leafShape_structured {readDims : List ℤ} {conLen : ℤ} (hkind : isStructuredCheck kind = true)
    (hlen : leafRank leaf ≤ declared.length)
    (h : leafShape kind leaf declared outer readDims nBatch conLen = .ok shape) :
    Structured kind leaf (declared.drop (declared.length - leafRank leaf)) nBatch shape := by
  cases kind with
  | simplex =>
    simp only [leafShape] at h
    split at h
    · apply vectorLeaf_structured h rfl
      intro hfree hlast
      omega
    · cases h
  | sumToZero =>
    simp only [leafShape] at h
    split at h
    · apply vectorLeaf_structured h rfl
      intro hfree hlast
      omega
    · split at h
      · rename_i hleaf
        subst hleaf
        apply smallerMatrixLeaf_structured h hlen rfl
        intro hrows hcols h0
        rcases mul_eq_zero.1 h0 with h0 | h0 <;> omega
      · cases h
  | ordered | positiveOrdered | unitVector =>
    exact vectorLeaf_structured h rfl fun _ hlast => hlast
  | choleskyCorr | correlation | covariance =>
    simp only [leafShape, bind_eq_ok_iff] at h
    obtain ⟨_, -, _, hsquare, h⟩ := h
    rw [failIf_eq_ok, not_ne_iff] at hsquare
    apply flatMatrixLeaf_structured h
    · exact congrArg (Except.map _) (squareSide_pair hsquare _)
    · intro _ h0
      rw [side_eq_zero hsquare h0]
      rfl
  | choleskyCov =>
    simp only [leafShape, bind_eq_ok_iff] at h
    obtain ⟨_, -, _, hrows, h⟩ := h
    rw [failIf_eq_ok] at hrows
    apply flatMatrixLeaf_structured h
    · exact if_neg hrows
    · intro hcols h0
      have hzero : declared.getD (declared.length - 1) 0 = 0 := by
        rcases mul_eq_zero.1 h0 with h0 | h0 <;> omega
      rw [hzero]
      ring
  | stochasticColumn =>
    simp only [leafShape, bind_eq_ok_iff] at h
    obtain ⟨_, hcheck, h⟩ := h
    rw [failIf_eq_ok, not_or, not_ne_iff, not_lt] at hcheck
    obtain ⟨rfl, hlen⟩ := hcheck
    apply smallerMatrixLeaf_structured h hlen
    · simp [freeLeafSize, elementwise]
    · intro hrows hcols h0
      have hzero : declared.getD (declared.length - 1) 0 = 0 := by
        rcases mul_eq_zero.1 h0 with h0 | h0 <;> omega
      rw [hzero]
      ring
  | stochasticRow =>
    simp only [leafShape, bind_eq_ok_iff] at h
    obtain ⟨_, hcheck, h⟩ := h
    rw [failIf_eq_ok, not_or, not_ne_iff, not_lt] at hcheck
    obtain ⟨rfl, hlen⟩ := hcheck
    apply smallerMatrixLeaf_structured h hlen
    · simp [freeLeafSize, elementwise]
    · intro hrows hcols h0
      have hzero : declared.getD (declared.length - 2) 0 = 0 := by
        rcases mul_eq_zero.1 h0 with h0 | h0 <;> omega
      rw [hzero]
      ring
  | _ => cases hkind

end Leaves

/-! ## Accepted declarations -/

/-- What an accepted declaration has passed. -/
structure Accepted (s : ReadStmt) (r : ReadParam) (nBatch readLen : ℤ) (shape : LeafShape) : Prop where
  rank_le : leafRank s.declType.leaf ≤ s.declType.dims.length
  outer_ok : checkedProduct
    (s.declType.dims.take (s.declType.dims.length - leafRank s.declType.leaf)) "parameter batch" =
      .ok nBatch
  readDims_eq : s.readDims =
    if readsOneSide s.kind then s.declType.dims.dropLast else s.declType.dims
  read_ok : checkedProduct s.readDims "parameter read shape" = .ok readLen
  shape_ok : leafShape s.kind s.declType.leaf s.declType.dims
    (s.declType.dims.take (s.declType.dims.length - leafRank s.declType.leaf)) s.readDims nBatch
    readLen = .ok shape
  len_ok : sizedLen s.declType = .ok shape.conLen
  op_ok : constrainOp s.kind s.declType.leaf = .ok r.op
  idata_ok : constrainIdata r.op nBatch shape = .ok r.idata
  view_ok : parameterView s shape.conLen = .ok r.view
  kind_eq : r.kind = s.kind
  rawLen_eq : r.rawLen = shape.rawLen.toNat

theorem accepted {s : ReadStmt} {r : ReadParam} (h : lowerReadParam s = .ok r) :
    ∃ nBatch readLen shape, Accepted s r nBatch readLen shape := by
  simp only [lowerReadParam, bind_eq_ok_iff, pure, Except.pure, Except.ok.injEq] at h
  obtain ⟨_, hrank, nBatch, houter, _, -, _, hdims, readLen, hread, shape, hshape, declaredLen, hlen, _,
    hsame, _, -, op, hop, idata, hidata, view, hview, rfl⟩ := h
  rw [failIf_eq_ok, not_lt] at hrank
  rw [failIf_eq_ok, not_ne_iff] at hdims hsame
  subst hsame
  exact ⟨nBatch, readLen, shape,
    { rank_le := hrank
      outer_ok := houter
      readDims_eq := hdims
      read_ok := hread
      shape_ok := hshape
      len_ok := hlen
      op_ok := hop
      idata_ok := hidata
      view_ok := hview
      kind_eq := rfl
      rawLen_eq := rfl }⟩

section Accepted

variable {s : ReadStmt} {r : ReadParam} {nBatch readLen : ℤ} {shape : LeafShape}

theorem readsOneSide_of_elementwise {kind : TransformKind} (h : elementwise kind = true) :
    readsOneSide kind = false := by
  cases kind with
  | choleskyCorr | correlation | covariance => cases h
  | _ => rfl

theorem elementwise_or_structured {kind : TransformKind} {leaf : ViewKind} {op : Option ConstrainOp}
    (h : constrainOp kind leaf = .ok op) : elementwise kind = true ∨ isStructuredCheck kind = true := by
  cases kind with
  | unsupported => cases h
  | identity | lower | upper | lowerUpper | offset | multiplier | offsetMultiplier => exact .inl rfl
  | _ => exact .inr rfl

theorem isStructuredCheck_of_elementwise {kind : TransformKind} (h : elementwise kind = true) :
    isStructuredCheck kind = false := by
  cases kind with
  | identity | lower | upper | lowerUpper | offset | multiplier | offsetMultiplier => rfl
  | _ => cases h

theorem leafShape_of_elementwise {kind : TransformKind} {leaf : ViewKind}
    {declared outer readDims : List ℤ} {n readLen : ℤ} (h : elementwise kind = true) :
    leafShape kind leaf declared outer readDims n readLen =
      .ok { rawDims := readDims, rawLen := readLen, conLen := readLen } := by
  cases kind with
  | identity | lower | upper | lowerUpper | offset | multiplier | offsetMultiplier => rfl
  | _ => cases h

theorem freeLeafSize_of_elementwise {kind : TransformKind} {leaf : List ℤ}
    (h : elementwise kind = true) : freeLeafSize kind leaf = product leaf := by
  cases kind with
  | identity | lower | upper | lowerUpper | offset | multiplier | offsetMultiplier => rfl
  | _ => cases h

/-- A transform keeps the declared shape or has leaves of its own. -/
theorem Accepted.elementwise_or (h : Accepted s r nBatch readLen shape) :
    elementwise s.kind = true ∨ isStructuredCheck s.kind = true :=
  elementwise_or_structured h.op_ok

theorem Accepted.structured (h : Accepted s r nBatch readLen shape)
    (hkind : isStructuredCheck s.kind = true) :
    Structured s.kind s.declType.leaf
      (s.declType.dims.drop (s.declType.dims.length - leafRank s.declType.leaf)) nBatch shape :=
  leafShape_structured hkind h.rank_le h.shape_ok

/-- An elementwise transform keeps the declared shape. -/
theorem Accepted.of_elementwise (h : Accepted s r nBatch readLen shape)
    (hkind : elementwise s.kind = true) :
    (∀ d ∈ s.declType.dims, 0 ≤ d) ∧ shape.rawLen = s.declType.dims.prod ∧
      shape.conLen = s.declType.dims.prod := by
  have hread := checkedProduct_eq_ok h.read_ok
  have hdims : s.readDims = s.declType.dims := by
    rw [h.readDims_eq, readsOneSide_of_elementwise hkind]
    rfl
  have hshape := h.shape_ok
  rw [leafShape_of_elementwise hkind, Except.ok.injEq] at hshape
  rw [hdims] at hread
  rw [← hshape]
  exact ⟨hread.1, hread.2, hread.2⟩

theorem Accepted.nonneg (h : Accepted s r nBatch readLen shape) : ∀ d ∈ s.declType.dims, 0 ≤ d := by
  rcases h.elementwise_or with hkind | hkind
  · exact (h.of_elementwise hkind).1
  · intro d hd
    rw [← List.take_append_drop (s.declType.dims.length - leafRank s.declType.leaf) s.declType.dims,
      List.mem_append] at hd
    rcases hd with hd | hd
    · exact (checkedProduct_eq_ok h.outer_ok).1 d hd
    · exact (h.structured hkind).nonneg d hd

theorem Accepted.conLen (h : Accepted s r nBatch readLen shape) :
    shape.conLen = s.declType.dims.prod := by
  rcases h.elementwise_or with hkind | hkind
  · exact (h.of_elementwise hkind).2.2
  · have hs := h.structured hkind
    rw [hs.conLen, hs.innerCon, (checkedProduct_eq_ok h.outer_ok).2, ← List.prod_append,
      List.take_append_drop]

/-- The free length of one leaf, times the elements of the array, is what the lowering has allocated.
An elementwise transform may be split anywhere, a structured one at its leaf. -/
theorem Accepted.rawLen (h : Accepted s r nBatch readLen shape) {rank : ℕ}
    (hrank : isStructuredCheck s.kind = true → rank = leafRank s.declType.leaf) :
    ∃ inner : ℤ, freeLeafSize s.kind (s.declType.dims.drop (s.declType.dims.length - rank)) = .ok inner ∧
      0 ≤ inner ∧ shape.rawLen = (s.declType.dims.take (s.declType.dims.length - rank)).prod * inner ∧
      ((s.declType.dims.drop (s.declType.dims.length - rank)).prod = 0 → inner = 0) := by
  rcases h.elementwise_or with hkind | hkind
  · obtain ⟨hnonneg, hraw, -⟩ := h.of_elementwise hkind
    have hleaf : ∀ d ∈ s.declType.dims.drop (s.declType.dims.length - rank), 0 ≤ d :=
      fun d hd => hnonneg d (List.mem_of_mem_drop hd)
    refine ⟨(s.declType.dims.drop (s.declType.dims.length - rank)).prod, ?_, List.prod_nonneg hleaf, ?_,
      id⟩
    · rw [freeLeafSize_of_elementwise hkind, product, if_neg]
      rw [List.any_eq_true]
      rintro ⟨d, hd, hneg⟩
      have hpos := hleaf d hd
      rw [decide_eq_true_eq] at hneg
      omega
    · rw [hraw, ← List.prod_append, List.take_append_drop]
  · have hs := h.structured hkind
    rw [hrank hkind]
    refine ⟨shape.innerRaw, hs.free, hs.innerRaw_nonneg, ?_, hs.empty⟩
    rw [hs.rawLen, (checkedProduct_eq_ok h.outer_ok).2]

end Accepted

end Stanli.Init
