import Stanli.Init.Elements

/-!
# One parameter

The round trip of one parameter, `constrain_freeWrite`: what a free write appends has the allocated length,
and its op and the read-out give the serial values back.
-/

namespace Stanli.Init

open MixedRadix
open Mir (TransformKind)

/-! ## Where a value is -/

section Places

variable {r : ReadParam} {inner : ℕ}

/-- The number of array elements. -/
def ReadParam.batches (r : ReadParam) : ℕ := (outerDims r.view.dims (initRank r)).prod

/-- The number of values of a leaf. -/
def ReadParam.leafLen (r : ReadParam) : ℕ := (leafDims r.view.dims (initRank r)).prod

theorem Stored.len_eq (h : Stored r inner) : r.view.len = r.batches * r.leafLen := by
  rw [h.len, ReadParam.batches, ReadParam.leafLen, prod_outerDims_mul]

theorem Stored.serialIndex_lt (h : Stored r inner) {b j : ℕ} (hb : b < r.batches) (hj : j < r.leafLen) :
    serialIndex r.view.dims (initRank r) b j < r.view.len := by
  rw [h.len]
  exact Init.serialIndex_lt hb hj

/-- The way out undoes the way in. -/
theorem Stored.storageIndex_serialIndex (h : Stored r inner) {b j : ℕ} (hb : b < r.batches)
    (hj : j < r.leafLen) :
    r.view.storageIndex (serialIndex r.view.dims (initRank r) b j) = b * r.leafLen + j := by
  rw [h.storageIndex _ (h.serialIndex_lt hb hj), h.len]
  exact storageAt_serialIndex h.rank hb hj

/-- Every serial position is that of one value of one array element. -/
theorem Stored.exists_serialIndex (h : Stored r inner) {i : ℕ} (hi : i < r.view.len) :
    ∃ b < r.batches, ∃ j < r.leafLen, serialIndex r.view.dims (initRank r) b j = i := by
  rw [h.len] at hi
  exact Init.exists_serialIndex hi

theorem add_lt_mul {b j n k : ℕ} (hb : b < n) (hj : j < k) : b * k + j < n * k := by
  have hle := Nat.mul_le_mul_right k (Nat.succ_le_of_lt hb)
  rw [Nat.succ_mul] at hle
  omega

theorem Stored.storageIndex_lt (h : Stored r inner) {i : ℕ} (hi : i < r.view.len) :
    r.view.storageIndex i < r.view.len := by
  obtain ⟨b, hb, j, hj, rfl⟩ := h.exists_serialIndex hi
  rw [h.storageIndex_serialIndex hb hj, h.len_eq]
  exact add_lt_mul hb hj

/-- Every cell of the storage is read out once. -/
theorem Stored.exists_storageIndex (h : Stored r inner) {t : ℕ} (ht : t < r.view.len) :
    ∃ i < r.view.len, r.view.storageIndex i = t := by
  rw [h.len_eq] at ht
  have hleaf : 0 < r.leafLen := Nat.pos_of_ne_zero fun h0 => by simp [h0] at ht
  have hb : t / r.leafLen < r.batches := (Nat.div_lt_iff_lt_mul hleaf).2 ht
  have hj : t % r.leafLen < r.leafLen := Nat.mod_lt _ hleaf
  refine ⟨serialIndex r.view.dims (initRank r) (t / r.leafLen) (t % r.leafLen), h.serialIndex_lt hb hj,
    ?_⟩
  rw [h.storageIndex_serialIndex hb hj, Nat.mul_comm]
  exact Nat.div_add_mod t r.leafLen

end Places

variable {V : Type} {m : LeafMath V}

/-- A stored value whose cells are those of the array elements reads out as the serial list. -/
theorem readOut_eq {r : ReadParam} {stored value : List V}
    (hlen : value.length = r.view.len)
    (h : ∀ i < r.view.len, stored.getD (r.view.storageIndex i) m.past = value.getD i m.past) :
    readOut m r.view stored = value := by
  refine List.ext_getElem (by rw [readOut, List.length_map, List.length_range, hlen]) fun i hi hi' => ?_
  rw [hlen] at hi'
  have hget := h i hi'
  rw [← getD_readOut hi' m.past, List.getD_eq_getElem _ _ hi, List.getD_eq_getElem _ _ (by omega)] at hget
  exact hget

/-! ## The arguments of a leaf -/

/-- Two lists of arguments that are the same for an element give it the same free value. -/
theorem unconstrainElement_congr {kind : TransformKind} {args args' : List (List V)} {j j' : ℕ} (x : V)
    (h : List.Forall₂ (fun a a' => ∀ what, argAt m a j what = argAt m a' j' what) args args') :
    unconstrainElement m kind args j x = unconstrainElement m kind args' j' x := by
  have hget : ∀ k what, argAt m (args.getD k []) j what = argAt m (args'.getD k []) j' what := by
    intro k what
    induction h generalizing k with
    | nil => rfl
    | cons ha _ ih =>
      cases k with
      | zero => exact ha what
      | succ k => exact ih k
  cases kind <;> simp only [unconstrainElement, needArgs, h.length_eq, hget]

/-- The parameter as the init section expects it. -/
def ReadParam.expected (r : ReadParam) : InitParam where
  name := r.view.name
  dims := r.view.dims
  constrainedLen := r.view.len
  freeLen := r.rawLen
  leafRank := initRank r

theorem Stored.initParam {r : ReadParam} {inner : ℕ} (h : Stored r inner) :
    initParam r = .ok r.expected := by
  rw [Init.initParam, if_neg (Nat.not_lt.2 h.rank.1)]
  rfl

section Leaf

variable {r : ReadParam} {inner : ℕ} {value ys part : List V} {bounds : List (List V)} {b : ℕ}

/-- The values of one array element. -/
def leafValues (m : LeafMath V) (r : ReadParam) (value : List V) (b : ℕ) : List V :=
  (List.range r.leafLen).map fun j =>
    value.getD (serialIndex r.view.dims (initRank r) b j) m.past

theorem getD_leafValues {j : ℕ} (hj : j < r.leafLen) :
    (leafValues m r value b).getD j m.past =
      value.getD (serialIndex r.view.dims (initRank r) b j) m.past := by
  rw [leafValues, List.getD_eq_getElem (n := j) _ _ (by simpa using hj), List.getElem_map,
    List.getElem_range]

/-- A gathered bound holds the bounds of the values of its leaf, in their order. -/
theorem argAt_gathered {e arg : List V} {name : String}
    (h : (if 1 < e.length then (List.range r.leafLen).mapM fun j =>
      boundAt m e (serialIndex r.view.dims (initRank r) b j) name else .ok []) = .ok arg)
    (he : 1 < e.length) {j : ℕ} (hj : j < r.leafLen) (what : String) :
    argAt m arg j what = .ok (serialBound m e (serialIndex r.view.dims (initRank r) b j)) := by
  rw [if_pos he] at h
  obtain ⟨hlen, h⟩ := mapM_range_eq_ok h
  have hget := h j m.past hj
  rw [boundAt] at hget
  split at hget
  · cases hget
  · rw [Except.ok.injEq] at hget
    rw [serialBound, if_pos he, hget, argAt]
    by_cases hone : arg.length = 1
    · obtain rfl : j = 0 := by omega
      rw [if_pos hone]
    · rw [if_neg hone, if_neg (by omega)]

/-- A batch is the free form of one array element, under the bounds of its values. -/
theorem freeBatch_eq_ok (h : freeBatch m r.expected r.kind value bounds b = .ok part) :
    ∃ args, unconstrainLeaf m r.kind (leafDims r.view.dims (initRank r)) (leafValues m r value b) args =
        .ok part ∧
      List.Forall₂ (fun e arg => ∀ j < r.leafLen, ∀ what, argAt m arg j what =
        .ok (serialBound m e (serialIndex r.view.dims (initRank r) b j))) bounds args := by
  simp only [freeBatch, bind_eq_ok_iff, mapError_eq_ok_iff] at h
  obtain ⟨gathered, hgathered, args, hargs, h⟩ := h
  refine ⟨args, h, ?_⟩
  rw [mapM_eq_ok_iff] at hgathered hargs
  clear h
  induction hgathered generalizing args with
  | nil =>
    cases hargs
    exact .nil
  | @cons e g bounds gathered hg _ ih =>
    rw [List.zip_cons_cons] at hargs
    cases hargs with
    | @cons _ arg _ args harg hargs =>
      refine .cons (fun j hj what => ?_) (ih _ hargs)
      by_cases he : 1 < e.length
      · rw [if_pos he, Except.ok.injEq] at harg
        rw [← harg]
        exact argAt_gathered hg he hj what
      · rw [if_neg he, scalarBound] at harg
        split at harg
        · cases harg
        · rw [← Except.ok.inj harg, argAt_singleton, serialBound, if_neg he]

/-- A free write, batch by batch. -/
theorem freeWrite_eq_ok (hs : Stored r inner) (h : freeWrite m r.expected r.kind value bounds = .ok ys) :
    ∃ parts, ys = parts.flatten ∧ (r.view.len = 0 → parts = []) ∧
      (0 < r.view.len → parts.length = r.batches) ∧
      ∀ b < parts.length, freeBatch m r.expected r.kind value bounds b = .ok (parts.getD b []) := by
  simp only [freeWrite, bind_eq_ok_iff, mapError_eq_ok_iff, pure, Except.pure, Except.ok.injEq] at h
  obtain ⟨-, -, parts, hparts, rfl⟩ := h
  change (List.range (if r.leafLen = 0 then 0 else r.view.len / r.leafLen)).mapM _ = _ at hparts
  obtain ⟨hlen, hget⟩ := mapM_range_eq_ok hparts
  refine ⟨parts, rfl, fun h0 => ?_, fun hpos => ?_, fun b hb => hget b [] (by rwa [← hlen])⟩
  · rw [h0, Nat.zero_div, ite_self] at hlen
    exact List.eq_nil_of_length_eq_zero hlen
  · rw [hs.len_eq] at hpos hlen
    have hleaf : 0 < r.leafLen := Nat.pos_of_mul_pos_left hpos
    rw [hlen, if_neg hleaf.ne', Nat.mul_div_cancel _ hleaf]

/-- An elementwise leaf keeps its length. -/
theorem Stored.inner_eq (hs : Stored r inner) (hkind : elementwise r.kind = true) :
    inner = r.leafLen := by
  have hfree := hs.free
  rw [freeLeafSize_of_elementwise hkind, product] at hfree
  split at hfree
  · cases hfree
  · rw [Except.ok.injEq, ← Nat.cast_list_prod] at hfree
    exact (Nat.cast_injective hfree).symm

/-- The values of an elementwise leaf, each under its own bounds. -/
theorem unconstrainLeaf_element {args : List (List V)} (hkind : elementwise r.kind = true)
    (h : unconstrainLeaf m r.kind (leafDims r.view.dims (initRank r)) (leafValues m r value b) args =
      .ok part)
    (hargs : List.Forall₂ (fun e arg => ∀ j < r.leafLen, ∀ what, argAt m arg j what =
      .ok (serialBound m e (serialIndex r.view.dims (initRank r) b j))) bounds args) :
    part.length = r.leafLen ∧ ∀ j < r.leafLen,
      unconstrainElement m r.kind ((bounds.map (serialBound m ·
          (serialIndex r.view.dims (initRank r) b j))).map ([·])) 0
        (value.getD (serialIndex r.view.dims (initRank r) b j) m.past) = .ok (part.getD j m.past) := by
  simp only [unconstrainLeaf, bind_eq_ok_iff, if_pos hkind] at h
  obtain ⟨-, -, h⟩ := h
  obtain ⟨hlen, hget⟩ := mapM_range_eq_ok h
  refine ⟨hlen, fun j hj => ?_⟩
  rw [← hget j m.past hj]
  rw [getD_leafValues hj]
  apply unconstrainElement_congr
  rw [List.map_map, List.forall₂_map_left_iff]
  exact hargs.imp fun e arg harg what => (harg j hj what).symm

/-- The free value of every element, where the element is stored. -/
theorem freeWrite_element (hs : Stored r inner) (hkind : elementwise r.kind = true)
    (h : freeWrite m r.expected r.kind value bounds = .ok ys) :
    ys.length = r.view.len ∧ ∀ i < r.view.len,
      unconstrainElement m r.kind ((bounds.map (serialBound m · i)).map ([·])) 0 (value.getD i m.past) =
        .ok (ys.getD (r.view.storageIndex i) m.past) := by
  obtain ⟨parts, rfl, hempty, hbatches, hparts⟩ := freeWrite_eq_ok hs h
  have hpart : ∀ b < parts.length, (parts.getD b []).length = r.leafLen ∧ ∀ j < r.leafLen,
      unconstrainElement m r.kind ((bounds.map (serialBound m ·
          (serialIndex r.view.dims (initRank r) b j))).map ([·])) 0
        (value.getD (serialIndex r.view.dims (initRank r) b j) m.past) =
          .ok ((parts.getD b []).getD j m.past) := by
    intro b hb
    obtain ⟨args, hleaf, hargs⟩ := freeBatch_eq_ok (hparts b hb)
    exact unconstrainLeaf_element hkind hleaf hargs
  have hlens : ∀ p ∈ parts, p.length = r.leafLen := by
    intro p hp
    obtain ⟨b, hb, rfl⟩ := List.mem_iff_getElem.1 hp
    rw [← List.getD_eq_getElem _ [] hb]
    exact (hpart b hb).1
  rcases Nat.eq_zero_or_pos r.view.len with h0 | hpos
  · rw [hempty h0, h0]
    exact ⟨rfl, fun i hi => absurd hi (Nat.not_lt_zero i)⟩
  · rw [length_flatten_of_forall hlens, hbatches hpos, hs.len_eq]
    refine ⟨rfl, fun i hi => ?_⟩
    rw [← hs.len_eq] at hi
    obtain ⟨b, hb, j, hj, rfl⟩ := hs.exists_serialIndex hi
    rw [hs.storageIndex_serialIndex hb hj, getD_flatten hlens hj]
    exact (hpart b (by rwa [hbatches hpos])).2 j hj

/-- The leaves of a structured parameter, one after the other, each undone by its op. -/
theorem freeWrite_leaf (hm : m.Inverse) (hs : Stored r inner) (hkind : isStructuredCheck r.kind = true)
    {leaf : ViewKind} {op : ConstrainOp} (hop : constrainOp r.kind leaf = .ok (some op))
    (hrank : op.OnRank (leafDims r.view.dims (initRank r)).length)
    (h : freeWrite m r.expected r.kind value bounds = .ok ys) :
    ∃ parts, ys = parts.flatten ∧ (r.view.len = 0 → parts = []) ∧
      (0 < r.view.len → parts.length = r.batches) ∧ ∀ b < parts.length,
        (parts.getD b []).length = inner ∧
          m.constrain op ((leafDims r.view.dims (initRank r)).map Nat.cast) (parts.getD b []) =
            .ok (leafValues m r value b) := by
  obtain ⟨parts, rfl, hempty, hbatches, hparts⟩ := freeWrite_eq_ok hs h
  refine ⟨parts, rfl, hempty, hbatches, fun b hb => ?_⟩
  obtain ⟨args, hleaf, -⟩ := freeBatch_eq_ok (hparts b hb)
  have hnot : ¬elementwise r.kind = true := by
    intro helementwise
    rw [isStructuredCheck_of_elementwise helementwise] at hkind
    cases hkind
  simp only [unconstrainLeaf, bind_eq_ok_iff, if_neg hnot, mapError_eq_ok_iff, pure, Except.pure,
    Except.ok.injEq, hs.free] at hleaf
  obtain ⟨freeLen, rfl, _, -, free, hfree, hpart⟩ := hleaf
  have hlen : (leafValues m r value b).length = (leafDims r.view.dims (initRank r)).prod := by
    rw [leafValues, List.length_map, List.length_range]
    rfl
  obtain ⟨hfreeLen, hcon⟩ := hm.leaf hkind hop hrank hs.free hlen hfree
  have hfreeLen : free.length = inner := Nat.cast_injective hfreeLen
  rw [Int.toNat_natCast, ← hfreeLen, map_getD_range_eq] at hpart
  rw [← hpart]
  exact ⟨hfreeLen, hcon⟩

end Leaf

/-! ## The way back -/

section Back

variable {r : ReadParam} {inner : ℕ} {value ys : List V} {bounds slots : List (List V)}

/-- The bounds of a value, on either side. -/
theorem bounds_eq (hs : Stored r inner) (h : List.Forall₂ (BoundAgrees m r.view) bounds slots) {i : ℕ}
    (hi : i < r.view.len) :
    slots.map (boundCell m · (r.view.storageIndex i)) = bounds.map (serialBound m · i) := by
  induction h with
  | nil => rfl
  | cons hb _ ih =>
    rw [List.map_cons, List.map_cons, ih, hb.boundCell (fun i hi => hs.storageIndex_lt hi) hi]

theorem getD_constrainElements (op : ConstrainOp) (slots : List (List V)) {i : ℕ}
    (hi : i < ys.length) :
    (constrainElements m op slots ys).getD i m.past =
      elementConstrain m op (ys.getD i m.past) (slots.map (boundCell m · i)) := by
  rw [constrainElements, List.getD_eq_getElem (n := i) _ _ (by rwa [List.length_mapIdx]),
    List.getElem_mapIdx, List.getD_eq_getElem _ _ hi]

/-- What the kernel of an elementwise parameter reads for a value, and what it stores. -/
theorem element_constrained (hm : m.Inverse) (hs : Stored r inner) (hkind : elementwise r.kind = true)
    (hagree : List.Forall₂ (BoundAgrees m r.view) bounds slots) {op : ConstrainOp} (hop : r.op = some op)
    (h : freeWrite m r.expected r.kind value bounds = .ok ys) {i : ℕ} (hi : i < r.view.len) :
    Passes m op ((kernelBounds m r.kind slots).map (boundCell m · (r.view.storageIndex i))) ∧
      (constrainElements m op (kernelBounds m r.kind slots) ys).getD (r.view.storageIndex i) m.past =
        value.getD i m.past := by
  obtain ⟨hlen, hfree⟩ := freeWrite_element hs hkind h
  obtain ⟨leaf, hleaf⟩ := hs.op
  rw [hop] at hleaf
  rw [getD_constrainElements _ _ (by rw [hlen]; exact hs.storageIndex_lt hi),
    map_boundCell_kernelBounds, bounds_eq hs hagree hi]
  exact constrain_unconstrain hm hleaf hkind (hfree i hi)

/-- A check of every entry of a slot. -/
theorem check_slot {f : V → Bool} {slot : List V} {name : ℕ → String} {len : ℕ}
    (hlen : slot.length ≤ 1 ∨ slot.length = len) (hpos : 0 < len)
    (h : ∀ t < len, f (boundCell m slot t) = true) :
    (List.range slot.length).mapM (fun i => failIf (f (slot.getD i m.past) = false) (name i)) =
      .ok ((List.range slot.length).map fun _ => ()) := by
  apply mapM_range_ok
  intro i hi
  rw [failIf, if_neg]
  have hcell : boundCell m slot i = slot.getD i m.past := by
    rw [boundCell]
    by_cases hmany : 1 < slot.length
    · rw [if_pos hmany, Nat.mul_one]
    · obtain rfl : i = 0 := by omega
      rw [Nat.zero_mul]
  rw [← hcell, h i (by omega)]
  simp

theorem checkLubBounds_ok {lb ub : List V} {n : ℕ} (hpos : 0 < n)
    (h : ∀ t < n, m.less (boundCell m lb t) (boundCell m ub t) = true) :
    checkLubBounds m lb ub n = .ok () := by
  rw [checkLubBounds]
  split
  · rfl
  split
  · rfl
  have hloop : (List.range (if (varies lb || varies ub) = true then n else 1)).mapM (fun i =>
      failIf (m.less (boundCell m lb i) (boundCell m ub i) = false)
        ("lub_constrain: " ++ elementName "lb" (varies lb || varies ub) i)) =
      .ok ((List.range (if (varies lb || varies ub) = true then n else 1)).map fun _ => ()) := by
    apply mapM_range_ok
    intro i hi
    have hlt : i < n := by
      split at hi <;> omega
    rw [failIf, if_neg]
    rw [h i hlt]
    simp
  dsimp only
  rw [hloop]
  rfl

theorem checkOffsetMultiplier_ok {mu sigma : List V} {n : ℕ} (hpos : 0 < n)
    (hmu : mu.length ≤ 1 ∨ mu.length = n) (hsigma : sigma.length ≤ 1 ∨ sigma.length = n)
    (h : ∀ t < n, m.finite (boundCell m mu t) = true ∧ m.positiveFinite (boundCell m sigma t) = true) :
    checkOffsetMultiplier m mu sigma = .ok () := by
  rw [checkOffsetMultiplier, check_slot hmu hpos fun t ht => (h t ht).1]
  simp only [bind, Except.bind]
  rw [check_slot hsigma hpos fun t ht => (h t ht).2]
  rfl

theorem getD_of_forall {P : List V → Prop} (hnil : P []) (h : ∀ slot ∈ slots, P slot) (k : ℕ) :
    P (slots.getD k []) := by
  by_cases hk : k < slots.length
  · rw [List.getD_eq_getElem _ _ hk]
    exact h _ (List.getElem_mem hk)
  · rw [List.getD_eq_default _ _ (by omega)]
    exact hnil

/-- The kernel reads slots of the parameter, or one number. -/
theorem forall_kernelBounds {P : List V → Prop} (hnil : P []) (hone : ∀ x, P [x])
    (h : ∀ slot ∈ slots, P slot) (kind : TransformKind) : ∀ slot ∈ kernelBounds m kind slots, P slot := by
  have hget := getD_of_forall hnil h
  cases kind <;> simp [kernelBounds, hone] <;> first | exact hget 0 | exact ⟨hget 0, hget 1⟩

theorem constrainOp_of_elementwise {kind : TransformKind} {leaf : ViewKind} {op : ConstrainOp}
    (hkind : elementwise kind = true) (hop : constrainOp kind leaf = .ok (some op)) :
    op = .lower ∨ op = .upper ∨ op = .lowerUpper ∨ op = .offsetMult := by
  cases kind with
  | identity => cases hop
  | lower | upper | lowerUpper | offset | multiplier | offsetMultiplier =>
    cases Except.ok.inj hop
    simp
  | _ => cases hkind

/-- The kernel of an elementwise parameter that has values accepts its bounds. -/
theorem constrainKernel_element (hm : m.Inverse) (hs : Stored r inner)
    (hkind : elementwise r.kind = true) (hagree : List.Forall₂ (BoundAgrees m r.view) bounds slots)
    {op : ConstrainOp} (hop : r.op = some op) (hpos : 0 < r.view.len)
    (h : freeWrite m r.expected r.kind value bounds = .ok ys) :
    constrainKernel m op r.idata (kernelBounds m r.kind slots) ys =
      .ok (constrainElements m op (kernelBounds m r.kind slots) ys) := by
  have hpasses : ∀ t < r.view.len,
      Passes m op ((kernelBounds m r.kind slots).map (boundCell m · t)) := by
    intro t ht
    obtain ⟨i, hi, rfl⟩ := hs.exists_storageIndex ht
    exact (element_constrained hm hs hkind hagree hop h hi).1
  have hslot : ∀ slot ∈ slots, slot.length ≤ 1 ∨ slot.length = r.view.len := by
    intro slot hslot
    obtain ⟨k, hk, rfl⟩ := List.mem_iff_getElem.1 hslot
    rcases (List.forall₂_iff_get.1 hagree).2 k (by rwa [hagree.length_eq]) hk with ⟨hone, heq⟩ | hmany
    · exact .inl (by rw [← List.get_eq_getElem (i := ⟨k, hk⟩), heq, hone])
    · exact .inr hmany.2.1
  have hlens := forall_kernelBounds (m := m) (P := fun slot => slot.length ≤ 1 ∨ slot.length = r.view.len)
    (.inl (Nat.zero_le 1)) (fun _ => .inl le_rfl) hslot r.kind
  have hlen := (freeWrite_element hs hkind h).1
  obtain ⟨leaf, hleaf⟩ := hs.op
  rw [hop] at hleaf
  rcases constrainOp_of_elementwise hkind hleaf with rfl | rfl | rfl | rfl
  · rfl
  · rfl
  · have hcheck : checkLubBounds m ((kernelBounds m r.kind slots).getD 0 [])
        ((kernelBounds m r.kind slots).getD 1 []) ys.length = .ok () := by
      apply checkLubBounds_ok (by rwa [hlen])
      intro t ht
      rw [boundCell_getD, boundCell_getD]
      exact hpasses t (by rwa [← hlen])
    rw [constrainKernel, hcheck]
    rfl
  · have hcheck : checkOffsetMultiplier m ((kernelBounds m r.kind slots).getD 0 [])
        ((kernelBounds m r.kind slots).getD 1 []) = .ok () := by
      apply checkOffsetMultiplier_ok hpos (getD_of_forall (.inl (Nat.zero_le 1)) hlens 0)
        (getD_of_forall (.inl (Nat.zero_le 1)) hlens 1)
      intro t ht
      rw [boundCell_getD, boundCell_getD]
      exact hpasses t ht
    rw [constrainKernel, hcheck]
    rfl

/-- The kernel of a structured parameter that has values gives its leaves back, one after the other. -/
theorem structuredFwd_eq {op : ConstrainOp} {parts : List (List V)}
    (htold : ToldLeaf op r.idata r.batches inner (leafDims r.view.dims (initRank r)))
    (hlen : parts.length = r.batches)
    (hparts : ∀ b < parts.length, (parts.getD b []).length = inner ∧
      m.constrain op ((leafDims r.view.dims (initRank r)).map Nat.cast) (parts.getD b []) =
        .ok (leafValues m r value b)) :
    structuredFwd m op r.idata parts.flatten =
      .ok ((List.range r.batches).map (leafValues m r value)).flatten := by
  have hidata : r.idata = (r.batches : ℤ) :: (inner : ℤ) ::
      (leafDims r.view.dims (initRank r)).map Nat.cast := by
    rcases htold with ⟨-, n, hleaf, hidata⟩ | ⟨-, rows, cols, hleaf, hidata⟩
    · rw [hidata, hleaf]
      rfl
    · rw [hidata, hleaf]
      rfl
  have hlens : ∀ p ∈ parts, p.length = inner := by
    intro p hp
    obtain ⟨b, hb, rfl⟩ := List.mem_iff_getElem.1 hp
    rw [← List.getD_eq_getElem _ [] hb]
    exact (hparts b hb).1
  have hstep : ∀ b < r.batches, structuredBatch m op inner r.leafLen
      ((leafDims r.view.dims (initRank r)).map Nat.cast) parts.flatten b =
        .ok (leafValues m r value b) := by
    intro b hb
    rw [← hlen] at hb
    obtain ⟨hinner, hcon⟩ := hparts b hb
    have hslice : (List.range inner).map (fun i => parts.flatten.getD (b * inner + i) m.past) =
        parts.getD b [] := by
      rw [← map_getD_range_eq (parts.getD b []) m.past, hinner]
      exact List.map_congr_left fun i hi => getD_flatten hlens (List.mem_range.1 hi) _
    have hleafLen : (leafValues m r value b).length = r.leafLen := by
      rw [leafValues, List.length_map, List.length_range]
    rw [structuredBatch, hslice, hcon, ← hleafLen]
    exact congrArg Except.ok (map_getD_range_eq _ _)
  have hcon : ((leafDims r.view.dims (initRank r)).map (Nat.cast : ℕ → ℤ)).prod.toNat = r.leafLen := by
    rw [← Nat.cast_list_prod, Int.toNat_natCast]
    rfl
  rw [structuredFwd, hidata]
  simp only [List.getD_cons_zero, List.getD_cons_succ, Int.toNat_natCast, List.drop_succ_cons,
    List.drop_zero]
  rw [hcon, mapM_range_ok hstep]
  rfl

theorem ToldLeaf.onRank {op : ConstrainOp} {idata : List ℤ} {nBatch : ℕ} {leaf : List ℕ}
    (h : ToldLeaf op idata nBatch inner leaf) : op.OnRank leaf.length := by
  rcases h with ⟨hop, n, rfl, -⟩ | ⟨hop, rows, cols, rfl, -⟩
  · exact .inl ⟨hop, rfl⟩
  · exact .inr ⟨hop, rfl⟩

/-- An elementwise parameter that has values. -/
theorem constrain_freeWrite_element (hm : m.Inverse) (hs : Stored r inner)
    (hkind : elementwise r.kind = true) (hlen : value.length = r.view.len) (hpos : 0 < r.view.len)
    (hagree : List.Forall₂ (BoundAgrees m r.view) bounds slots)
    (h : freeWrite m r.expected r.kind value bounds = .ok ys) :
    ∃ stored, constrainParam m r slots ys = .ok stored ∧ readOut m r.view stored = value := by
  rw [constrainParam]
  cases hop : r.op with
  | none =>
    refine ⟨ys, rfl, readOut_eq hlen fun i hi => ?_⟩
    obtain ⟨leaf, hleaf⟩ := hs.op
    have hfree := (freeWrite_element hs hkind h).2 i hi
    cases hk : r.kind <;> rw [hop, hk] at hleaf <;> cases hleaf
    rw [hk] at hfree
    exact (Except.ok.inj hfree).symm
  | some op =>
    refine ⟨_, constrainKernel_element hm hs hkind hagree hop hpos h, readOut_eq hlen fun i hi => ?_⟩
    exact (element_constrained hm hs hkind hagree hop h hi).2

/-- A structured parameter that has values. -/
theorem constrain_freeWrite_leaf (hm : m.Inverse) (hs : Stored r inner)
    (hkind : isStructuredCheck r.kind = true) (hlen : value.length = r.view.len) (hpos : 0 < r.view.len)
    (h : freeWrite m r.expected r.kind value bounds = .ok ys) :
    ys.length = r.batches * inner ∧
      ∃ stored, constrainParam m r slots ys = .ok stored ∧ readOut m r.view stored = value := by
  obtain ⟨op, hop, htold⟩ := hs.told hkind
  obtain ⟨leaf, hleaf⟩ := hs.op
  rw [hop] at hleaf
  obtain ⟨parts, rfl, -, hbatches, hparts⟩ := freeWrite_leaf hm hs hkind hleaf htold.onRank h
  have hlens : ∀ p ∈ parts, p.length = inner := by
    intro p hp
    obtain ⟨b, hb, rfl⟩ := List.mem_iff_getElem.1 hp
    rw [← List.getD_eq_getElem _ [] hb]
    exact (hparts b hb).1
  refine ⟨by rw [length_flatten_of_forall hlens, hbatches hpos], ?_⟩
  have hfwd := structuredFwd_eq htold (hbatches hpos) hparts
  have hkernel : constrainParam m r slots parts.flatten = structuredFwd m op r.idata parts.flatten := by
    rw [constrainParam, hop]
    rcases htold with ⟨ho, -⟩ | ⟨ho, -⟩ <;> cases op <;> first | rfl | cases ho
  refine ⟨_, hkernel.trans hfwd, readOut_eq hlen fun i hi => ?_⟩
  obtain ⟨b, hb, j, hj, rfl⟩ := hs.exists_serialIndex hi
  have hleafLens : ∀ p ∈ (List.range r.batches).map (leafValues m r value), p.length = r.leafLen := by
    intro p hp
    obtain ⟨b, -, rfl⟩ := List.mem_map.1 hp
    rw [leafValues, List.length_map, List.length_range]
  rw [hs.storageIndex_serialIndex hb hj, getD_flatten hleafLens hj,
    List.getD_eq_getElem (n := b) _ _ (by simpa using hb), List.getElem_map, List.getElem_range,
    getD_leafValues hj]

/-- One parameter: what a free write appends is the piece of the free vector that the lowering has
allocated, and from it the op and the read-out give the serial values back. -/
theorem constrain_freeWrite (hm : m.Inverse) (hs : Stored r inner) (hlen : value.length = r.view.len)
    (hagree : List.Forall₂ (BoundAgrees m r.view) bounds slots)
    (hempty : r.view.len = 0 → ∃ stored, constrainParam m r slots [] = .ok stored)
    (h : freeWrite m r.expected r.kind value bounds = .ok ys) :
    ys.length = r.rawLen ∧
      ∃ stored, constrainParam m r slots ys = .ok stored ∧ readOut m r.view stored = value := by
  have hraw : r.rawLen = r.batches * inner := hs.rawLen
  obtain ⟨leaf, hleaf⟩ := hs.op
  rcases Nat.eq_zero_or_pos r.view.len with h0 | hpos
  · obtain ⟨parts, rfl, hparts, -⟩ := freeWrite_eq_ok hs h
    rw [hparts h0] at h ⊢
    have hzero : r.rawLen = 0 := by
      rw [hraw]
      rw [hs.len_eq] at h0
      rcases Nat.mul_eq_zero.1 h0 with h0 | h0
      · rw [h0, Nat.zero_mul]
      · rw [hs.empty h0, Nat.mul_zero]
    obtain ⟨stored, hstored⟩ := hempty h0
    refine ⟨hzero.symm, stored, hstored, readOut_eq hlen fun i hi => ?_⟩
    omega
  · rcases elementwise_or_structured hleaf with hkind | hkind
    · rw [hraw, hs.inner_eq hkind, ← hs.len_eq]
      exact ⟨(freeWrite_element hs hkind h).1,
        constrain_freeWrite_element hm hs hkind hlen hpos hagree h⟩
    · rw [hraw]
      exact constrain_freeWrite_leaf hm hs hkind hlen hpos h

end Back

end Stanli.Init
