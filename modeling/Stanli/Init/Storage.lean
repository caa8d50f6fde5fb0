import Mathlib.Algebra.BigOperators.Ring.Finset
import Stanli.Init.ReadParamSound

/-!
# The storage of an accepted parameter

What the two directions rely on, in the terms of the view and of the init section's own description of a
parameter: `stored`.  Everything later is proved from `Stored`, not from the lowering.
-/

namespace Stanli.Init

open Mir (TransformKind)

/-! ## Extents as numbers -/

theorem map_cast_toNat {l : List ℤ} (h : ∀ d ∈ l, 0 ≤ d) :
    (l.map Int.toNat).map (Nat.cast : ℕ → ℤ) = l := by
  rw [List.map_map]
  conv_rhs => rw [← List.map_id l]
  exact List.map_congr_left fun d hd => Int.toNat_of_nonneg (h d hd)

theorem cast_prod_toNat {l : List ℤ} (h : ∀ d ∈ l, 0 ≤ d) :
    ((l.map Int.toNat).prod : ℤ) = l.prod := by
  rw [Nat.cast_list_prod, map_cast_toNat h]

/-! ## The view -/

section View

variable {s : ReadStmt} {r : ReadParam} {nBatch readLen : ℤ} {shape : LeafShape}

theorem SizedType.leaf_of_scalar {t : SizedType} (h : t.scalar) : t.leaf = .flat := by
  rcases h with h | h | h <;> simp [SizedType.leaf, leafKind, h]

theorem SizedType.matrixStorage_iff {t : SizedType} : t.matrixStorage = true ↔ t.leaf = .matrix := by
  rw [SizedType.matrixStorage, SizedType.leaf]
  by_cases harray : t.base = .array
  · rw [if_pos harray, harray]
    cases t.elemBase <;> simp [leafKind]
  · rw [if_neg harray]
    cases hbase : t.base <;> simp_all [leafKind]

/-- A scalar has one value and no layout. -/
theorem Accepted.view_of_scalar (h : Accepted s r nBatch readLen shape) (hs : s.declType.scalar) :
    r.view = { name := s.declId, len := 1 } := by
  have hview := h.view_ok
  have hlen := h.len_ok
  rw [parameterView, if_pos hs] at hview
  rw [← Except.ok.inj hview]
  rcases hs with hs | hs | hs <;> rw [sizedLen, hs] at hlen
  · rw [← Except.ok.inj hlen]
    rfl
  · rw [← Except.ok.inj hlen]
    rfl
  · cases hlen

theorem Accepted.view_of_container (h : Accepted s r nBatch readLen shape) (hs : ¬s.declType.scalar) :
    r.view = ({ name := s.declId, len := (s.declType.dims.map Int.toNat).prod } : ParamView).setSerialLayout
      (s.declType.dims.map Int.toNat) s.declType.matrixStorage := by
  have hview := h.view_ok
  rw [parameterView, if_neg hs] at hview
  simp only [bind_eq_ok_iff, pure, Except.pure, Except.ok.injEq] at hview
  obtain ⟨_, -, hview⟩ := hview
  rw [← hview, h.conLen, ← cast_prod_toNat h.nonneg, Int.toNat_natCast]

/-- The leaf the init section gathers is the declared leaf of a structured parameter. -/
theorem Accepted.initRank_of_structured (h : Accepted s r nBatch readLen shape)
    (hkind : isStructuredCheck s.kind = true) : initRank r = leafRank s.declType.leaf := by
  have hs := h.structured hkind
  have hscalar : ¬s.declType.scalar := by
    intro hscalar
    have hleaf := hs.leaf_cases
    rw [SizedType.leaf_of_scalar hscalar] at hleaf
    rcases hleaf with hleaf | hleaf <;> cases hleaf
  have hms : r.view.matrixStorage = s.declType.matrixStorage := by
    rw [h.view_of_container hscalar]
    rfl
  rw [initRank, hms, h.kind_eq, hkind]
  rcases hs.leaf_cases with hleaf | hleaf
  · rw [if_neg, hleaf]
    · rfl
    · rw [SizedType.matrixStorage_iff, hleaf]
      intro hcases
      cases hcases
  · rw [if_pos (SizedType.matrixStorage_iff.2 hleaf), hleaf]
    rfl

end View

/-! ## The summary -/

/-- What the op of a structured parameter is told: the number of leaves, their two lengths, and for a
matrix its sides. -/
def ToldLeaf (op : ConstrainOp) (idata : List ℤ) (nBatch inner : ℕ) (leaf : List ℕ) : Prop :=
  (op.onVectors = true ∧ ∃ n : ℕ, leaf = [n] ∧ idata = [(nBatch : ℤ), (inner : ℤ), (n : ℤ)]) ∨
    op.onMatrices = true ∧ ∃ rows cols : ℕ, leaf = [rows, cols] ∧
      idata = [(nBatch : ℤ), (inner : ℤ), (rows : ℤ), (cols : ℤ)]

/-- A parameter as both directions see it, with the free length of one leaf. -/
structure Stored (r : ReadParam) (inner : ℕ) : Prop where
  rank : LeafRank r.view.dims r.view.matrixStorage (initRank r)
  len : r.view.len = r.view.dims.prod
  storageIndex : ∀ i < r.view.len,
    r.view.storageIndex i = storageAt r.view.dims r.view.matrixStorage r.view.len i
  free : freeLeafSize r.kind ((leafDims r.view.dims (initRank r)).map Nat.cast) = .ok (inner : ℤ)
  rawLen : r.rawLen = (outerDims r.view.dims (initRank r)).prod * inner
  empty : (leafDims r.view.dims (initRank r)).prod = 0 → inner = 0
  op : ∃ leaf, constrainOp r.kind leaf = .ok r.op
  told : isStructuredCheck r.kind = true → ∃ op, r.op = some op ∧
    ToldLeaf op r.idata (outerDims r.view.dims (initRank r)).prod inner
      (leafDims r.view.dims (initRank r))

section Stored

variable {s : ReadStmt} {r : ReadParam} {nBatch readLen : ℤ} {shape : LeafShape}

/-- A structured parameter has an op, and the op is told the leaf. -/
theorem Structured.told {kind : TransformKind} {leaf : ViewKind} {dims : List ℤ}
    {op : Option ConstrainOp} (h : Structured kind leaf dims nBatch shape)
    (hkind : isStructuredCheck kind = true) (hdims : dims.length = leafRank leaf)
    (hop : constrainOp kind leaf = .ok op) :
    ∃ o, op = some o ∧ (leaf = .vector ∧ o.onVectors = true ∨ leaf = .matrix ∧ o.onMatrices = true) := by
  have hfree := h.free
  rcases h.leaf_cases with rfl | rfl
  · obtain ⟨d, rfl⟩ := List.length_eq_one_iff.1 hdims
    cases kind with
    | simplex | ordered | positiveOrdered | unitVector | sumToZero =>
      cases Except.ok.inj hop
      exact ⟨_, rfl, .inl ⟨rfl, rfl⟩⟩
    | choleskyCorr | correlation | covariance | choleskyCov | stochasticColumn | stochasticRow =>
      cases hfree
    | _ => cases hkind
  · obtain ⟨d, e, rfl⟩ := List.length_eq_two.1 hdims
    cases kind with
    | simplex | ordered | positiveOrdered | unitVector => cases hfree
    | choleskyCorr | correlation | covariance | choleskyCov | stochasticColumn | stochasticRow
    | sumToZero =>
      cases Except.ok.inj hop
      exact ⟨_, rfl, .inr ⟨rfl, rfl⟩⟩
    | _ => cases hkind

theorem idata_of_onVectors {o : ConstrainOp} {idata : List ℤ} (ho : o.onVectors = true)
    (h : constrainIdata (some o) nBatch shape = .ok idata) :
    idata = [nBatch, shape.innerRaw, shape.innerCon] := by
  rw [constrainIdata, if_pos (by exact ho)] at h
  simp only [bind_eq_ok_iff, pure, Except.pure, Except.ok.injEq] at h
  obtain ⟨batch, hbatch, raw, hraw, con, hcon, rfl⟩ := h
  rw [checkedImmediate_eq_ok hbatch, checkedImmediate_eq_ok hraw, checkedImmediate_eq_ok hcon]

theorem idata_of_onMatrices {o : ConstrainOp} {idata : List ℤ} (ho : o.onMatrices = true)
    (h : constrainIdata (some o) nBatch shape = .ok idata) :
    idata = [nBatch, shape.innerRaw, shape.matrixRows, shape.matrixCols] := by
  have hnot : ¬Option.any ConstrainOp.onVectors (some o) = true := by
    cases o with
    | simplex | ordered | posOrdered | unitVector | sumToZero => cases ho
    | _ => decide
  rw [constrainIdata, if_neg hnot, if_pos (by exact ho)] at h
  simp only [bind_eq_ok_iff, pure, Except.pure, Except.ok.injEq] at h
  obtain ⟨batch, hbatch, raw, hraw, rows, hrows, cols, hcols, rfl⟩ := h
  rw [checkedImmediate_eq_ok hbatch, checkedImmediate_eq_ok hraw, checkedImmediate_eq_ok hrows,
    checkedImmediate_eq_ok hcols]

/-- A scalar is one value of an elementwise transform. -/
theorem Accepted.stored_of_scalar (h : Accepted s r nBatch readLen shape) (hs : s.declType.scalar) :
    Stored r 1 := by
  have hview := h.view_of_scalar hs
  have helementwise : elementwise s.kind = true := by
    rcases h.elementwise_or with hkind | hkind
    · exact hkind
    · have hleaf := (h.structured hkind).leaf_cases
      rw [SizedType.leaf_of_scalar hs] at hleaf
      rcases hleaf with hleaf | hleaf <;> cases hleaf
  have hnot := isStructuredCheck_of_elementwise helementwise
  have hrank : initRank r = 0 := by
    rw [initRank, hview, h.kind_eq, hnot]
    rfl
  have hraw : shape.rawLen = 1 := by
    obtain ⟨-, hraw, hcon⟩ := h.of_elementwise helementwise
    have hlen := h.len_ok
    rw [hraw, ← hcon]
    rcases hs with hs | hs | hs <;> rw [sizedLen, hs] at hlen
    · exact (Except.ok.inj hlen).symm
    · exact (Except.ok.inj hlen).symm
    · cases hlen
  exact
    { rank := by
        rw [hrank, hview]
        exact ⟨Nat.zero_le _, Nat.zero_le _⟩
      len := by rw [hview]; rfl
      storageIndex := by
        intro i hi
        rw [hview] at hi ⊢
        obtain rfl : i = 0 := Nat.lt_one_iff.1 hi
        rfl
      free := by
        rw [hrank, hview, h.kind_eq, freeLeafSize_of_elementwise helementwise]
        rfl
      rawLen := by
        rw [hrank, hview, h.rawLen_eq, hraw]
        rfl
      empty := by
        rw [hrank, hview]
        intro h0
        cases h0
      op := ⟨s.declType.leaf, by rw [h.kind_eq, h.op_ok]⟩
      told := by
        rw [h.kind_eq, hnot]
        intro hkind
        cases hkind }

/-- The two parts of the declared extents, as the view has them. -/
theorem map_cast_leafDims (h : Accepted s r nBatch readLen shape) (rank : ℕ) :
    (leafDims (s.declType.dims.map Int.toNat) rank).map (Nat.cast : ℕ → ℤ) =
      s.declType.dims.drop (s.declType.dims.length - rank) := by
  rw [leafDims, List.length_map, ← List.map_drop,
    map_cast_toNat fun d hd => h.nonneg d (List.mem_of_mem_drop hd)]

theorem cast_prod_leafDims (h : Accepted s r nBatch readLen shape) (rank : ℕ) :
    ((leafDims (s.declType.dims.map Int.toNat) rank).prod : ℤ) =
      (s.declType.dims.drop (s.declType.dims.length - rank)).prod := by
  rw [Nat.cast_list_prod, map_cast_leafDims h]

theorem cast_prod_outerDims (h : Accepted s r nBatch readLen shape) (rank : ℕ) :
    ((outerDims (s.declType.dims.map Int.toNat) rank).prod : ℤ) =
      (s.declType.dims.take (s.declType.dims.length - rank)).prod := by
  rw [outerDims, List.length_map, ← List.map_take,
    cast_prod_toNat fun d hd => h.nonneg d (List.mem_of_mem_take hd)]

theorem Accepted.initRank_le (h : Accepted s r nBatch readLen shape) (hs : ¬s.declType.scalar) :
    LeafRank (s.declType.dims.map Int.toNat) s.declType.matrixStorage (initRank r) := by
  have hms : r.view.matrixStorage = s.declType.matrixStorage := by
    rw [h.view_of_container hs]
    rfl
  have hle := h.rank_le
  rw [LeafRank, List.length_map]
  cases hm : s.declType.matrixStorage with
  | true =>
    have hrank : initRank r = 2 := by
      rw [initRank, hms, hm]
      rfl
    rw [SizedType.matrixStorage_iff.1 hm] at hle
    rw [hrank]
    exact ⟨hle, rfl⟩
  | false =>
    cases hkind : isStructuredCheck s.kind with
    | true =>
      have hrank := h.initRank_of_structured hkind
      have hone : initRank r = 1 := by
        rw [initRank, hms, hm, h.kind_eq, hkind]
        rfl
      rw [← hrank] at hle
      exact ⟨hle, hone.le⟩
    | false =>
      have hrank : initRank r = 0 := by
        rw [initRank, hms, hm, h.kind_eq, hkind]
        rfl
      rw [hrank]
      exact ⟨Nat.zero_le _, Nat.zero_le _⟩

/-- The op of a structured parameter is told how its leaves are stored. -/
theorem Accepted.told (h : Accepted s r nBatch readLen shape) (hkind : isStructuredCheck s.kind = true)
    {inner : ℕ} (hinner : (inner : ℤ) = shape.innerRaw) :
    ∃ op, r.op = some op ∧
      ToldLeaf op r.idata
        (outerDims (s.declType.dims.map Int.toNat) (leafRank s.declType.leaf)).prod inner
        (leafDims (s.declType.dims.map Int.toNat) (leafRank s.declType.leaf)) := by
  have hs := h.structured hkind
  have hlen : (s.declType.dims.drop (s.declType.dims.length - leafRank s.declType.leaf)).length =
      leafRank s.declType.leaf := by
    rw [List.length_drop]
    exact Nat.sub_sub_self h.rank_le
  obtain ⟨o, ho, hcases⟩ := hs.told hkind hlen h.op_ok
  have hidata := h.idata_ok
  rw [ho] at hidata
  have hbatch := cast_prod_outerDims h (leafRank s.declType.leaf)
  rw [← (checkedProduct_eq_ok h.outer_ok).2] at hbatch
  have hleaf := map_cast_leafDims h (leafRank s.declType.leaf)
  rw [← hleaf, List.length_map] at hlen
  refine ⟨o, ho, ?_⟩
  rw [ToldLeaf, hbatch, hinner]
  rcases hcases with ⟨hvector, ho⟩ | ⟨hmatrix, ho⟩
  · rw [hvector] at hlen hleaf ⊢
    obtain ⟨n, hn⟩ := List.length_eq_one_iff.1 hlen
    have hcon := hs.innerCon
    rw [hvector, ← hleaf, hn, List.map_singleton, List.prod_singleton] at hcon
    refine .inl ⟨ho, n, hn, ?_⟩
    rw [idata_of_onVectors ho hidata, hcon]
  · have hsides := hs.matrix hmatrix
    rw [hmatrix] at hlen hleaf hsides ⊢
    obtain ⟨rows, cols, hn⟩ := List.length_eq_two.1 hlen
    rw [← hleaf, hn, List.map_cons, List.map_singleton, List.cons.injEq, List.cons.injEq] at hsides
    obtain ⟨hrows, hcols, -⟩ := hsides
    refine .inr ⟨ho, rows, cols, hn, ?_⟩
    rw [idata_of_onMatrices ho hidata, hrows, hcols]

theorem Accepted.stored_of_container (h : Accepted s r nBatch readLen shape)
    (hs : ¬s.declType.scalar) : ∃ inner, Stored r inner := by
  have hview := h.view_of_container hs
  have hdims : r.view.dims = s.declType.dims.map Int.toNat := by rw [hview]; rfl
  have hms : r.view.matrixStorage = s.declType.matrixStorage := by rw [hview]; rfl
  have hlen : r.view.len = r.view.dims.prod := by rw [hdims, hview]; rfl
  obtain ⟨inner, hfree, hnonneg, hraw, hempty⟩ := h.rawLen (h.initRank_of_structured ·)
  refine ⟨inner.toNat, ?_⟩
  have hinner : (inner.toNat : ℤ) = inner := Int.toNat_of_nonneg hnonneg
  exact
    { rank := by
        rw [hdims, hms]
        exact h.initRank_le hs
      len := hlen
      storageIndex := by
        intro i hi
        rw [hms, hdims, hlen, hdims]
        rw [hview] at hi ⊢
        exact ParamView.storageIndex_setSerialLayout _ _ _ hi
      free := by rw [hdims, map_cast_leafDims h, h.kind_eq, hfree, hinner]
      rawLen := by
        rw [h.rawLen_eq, hraw, hdims, ← cast_prod_outerDims h, ← hinner, ← Nat.cast_mul,
          Int.toNat_natCast, Int.toNat_natCast]
      empty := by
        intro h0
        rw [hdims] at h0
        rw [hempty (by rw [← cast_prod_leafDims h, h0]; rfl)]
        rfl
      op := ⟨s.declType.leaf, by rw [h.kind_eq, h.op_ok]⟩
      told := by
        intro hkind
        rw [h.kind_eq] at hkind
        rw [h.initRank_of_structured hkind] at hfree ⊢
        rw [hdims]
        apply h.told hkind
        rw [hinner]
        exact Except.ok.inj (hfree.symm.trans (h.structured hkind).free) }

/-- Every accepted parameter is stored this way. -/
theorem stored {s : ReadStmt} {r : ReadParam} (h : lowerReadParam s = .ok r) :
    ∃ inner, Stored r inner := by
  obtain ⟨nBatch, readLen, shape, h⟩ := accepted h
  by_cases hs : s.declType.scalar
  · exact ⟨1, h.stored_of_scalar hs⟩
  · exact h.stored_of_container hs

end Stored

end Stanli.Init
