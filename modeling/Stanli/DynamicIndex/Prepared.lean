import Stanli.DynamicIndex.Positions

/-!
# The short ways

`indexPositions_eq_general`: the one-dimensional shortcut gives what validation and enumeration give.
`preparedPositions_eq` and `preparedPosition_eq`: after a first use that went through, the geometry of
a descriptor without runtime counts and extents stays valid as long as the buffers keep their lengths,
and checking the selector values alone gives the same positions and the same refusals.
-/

namespace Stanli

namespace DynamicIndex

variable {V : Type}

/-! ## Strides without runtime extents -/

/-- `arrayStrides`, as far as the descriptor alone decides it. -/
def checkStrides : ℤ → List Axis → Except Exc Unit
  | _, [] => .ok ()
  | k, a :: axes => do
    throwIf (a.stride ≠ k) (indexFault "invalid structured array stride")
    let k' ← mul k a.extent
    checkStrides k' axes

/-- The logical extent is the fixed one. -/
def FixedExtent (x : Axis × RuntimeAxis V) : Prop := (x.2.extent : ℤ) = x.1.extent

/-- The axis with the physical stride. -/
def physical (x : Axis × RuntimeAxis V) : RuntimeAxis V := { x.2 with stride := x.1.stride.toNat }

lemma arrayStrides_fixed {l : List (Axis × RuntimeAxis V)} (hl : ∀ x ∈ l, FixedExtent x) (k : ℤ) :
    arrayStrides k k l = (checkStrides k (l.map Prod.fst)).map fun _ => l.map physical := by
  induction l generalizing k with
  | nil => rfl
  | cons x l ih =>
    obtain ⟨a, r⟩ := x
    have hextent : (r.extent : ℤ) = a.extent := hl (a, r) (List.mem_cons_self ..)
    change _ = (checkStrides k (a :: l.map Prod.fst)).map _
    rw [arrayStrides, checkStrides, hextent]
    by_cases hk : a.stride = k
    · rw [throwIf_of_not (not_not.2 hk), ok_bind, ok_bind]
      cases hm : mul k a.extent with
      | error e => rfl
      | ok k' =>
        rw [ok_bind, ok_bind, ok_bind, ih fun y hy => hl y (List.mem_cons_of_mem _ hy)]
        cases hc : checkStrides k' (l.map Prod.fst) with
        | error e => rfl
        | ok u => simp [Except.map, physical, hk, pure, Except.pure]
    · rw [throwIf, if_pos hk]
      rfl

/-- `matrixStrides`, as far as the descriptor alone decides it. -/
def checkMatrix (a₀ a₁ : Axis) : Except Exc ℤ := do
  throwIf (a₀.stride ≠ 1 ∨ a₁.stride ≠ a₀.extent) (indexFault "invalid structured matrix stride")
  mul a₀.extent a₁.extent

/-- `leafStrides`, as far as the descriptor alone decides it. -/
def checkLeaf (leaf : List Axis) : Except Exc ℤ :=
  match leaf with
  | [a₀, a₁] => checkMatrix a₀ a₁
  | _ => .ok 1

lemma leafStrides_fixed {l : List (Axis × RuntimeAxis V)} (hl : ∀ x ∈ l, FixedExtent x)
    (hlen : l.length = 0 ∨ l.length = 2) :
    leafStrides l = (checkLeaf (l.map Prod.fst)).map fun k => (l.map physical, k, k) := by
  rcases l with - | ⟨⟨a₀, r₀⟩, - | ⟨⟨a₁, r₁⟩, - | ⟨x, l⟩⟩⟩
  · rfl
  · simp at hlen
  · have h₀ : (r₀.extent : ℤ) = a₀.extent := hl (a₀, r₀) (by simp)
    have h₁ : (r₁.extent : ℤ) = a₁.extent := hl (a₁, r₁) (by simp)
    change matrixStrides (a₀, r₀) (a₁, r₁) = (checkMatrix a₀ a₁).map _
    rw [matrixStrides, checkMatrix]
    by_cases hs : a₀.stride ≠ 1 ∨ a₁.stride ≠ a₀.extent
    · rw [throwIf, if_pos hs]
      rfl
    · rw [throwIf_of_not hs, ok_bind, ok_bind, h₀, h₁]
      rw [not_or, not_not, not_not] at hs
      cases hm : mul a₀.extent a₁.extent with
      | error e => rfl
      | ok k => simp [Except.map, physical, hs.1, hs.2, ← h₀, pure, Except.pure]
  · simp at hlen

/-- The strides of a descriptor without runtime extents. -/
lemma assignStrides_fixed {p : DynamicIndexSpec} {rs : List (RuntimeAxis V)}
    (hlen : rs.length = p.axes.length) (hleaf : ¬ (p.matrixLeaf = true ∧ p.axes.length < 2))
    (hrs : ∀ x ∈ p.axes.zip rs, FixedExtent x) :
    assignStrides p rs = (do
      let k ← checkLeaf (p.axes.drop (outerCount p))
      checkStrides k (p.axes.take (outerCount p)).reverse).map fun _ =>
        (p.axes.zip rs).map physical := by
  have hdrop : ((p.axes.zip rs).drop (outerCount p)).length = 0 ∨
      ((p.axes.zip rs).drop (outerCount p)).length = 2 := by
    rw [List.length_drop, List.length_zip, hlen, Nat.min_self]
    exact leaf_length hleaf
  have hleaf : ((p.axes.zip rs).drop (outerCount p)).map Prod.fst = p.axes.drop (outerCount p) := by
    rw [List.map_drop, List.map_fst_zip (Nat.le_of_eq hlen.symm)]
  have houter : ((p.axes.zip rs).take (outerCount p)).reverse.map Prod.fst =
      (p.axes.take (outerCount p)).reverse := by
    rw [List.map_reverse, List.map_take, List.map_fst_zip (Nat.le_of_eq hlen.symm)]
  rw [assignStrides, leafStrides_fixed (fun x hx => hrs x (List.mem_of_mem_drop hx)) hdrop, hleaf]
  cases checkLeaf (p.axes.drop (outerCount p)) with
  | error e => rfl
  | ok k =>
    change ((arrayStrides k k ((p.axes.zip rs).take (outerCount p)).reverse).bind _) =
      (checkStrides k (p.axes.take (outerCount p)).reverse).map _
    rw [arrayStrides_fixed fun x hx => hrs x (List.mem_of_mem_take (List.mem_reverse.1 hx)), houter]
    cases checkStrides k (p.axes.take (outerCount p)).reverse with
    | error e => rfl
    | ok u =>
      change Except.ok ((((p.axes.zip rs).take (outerCount p)).reverse.map physical).reverse ++
        ((p.axes.zip rs).drop (outerCount p)).map physical) = Except.ok _
      rw [List.map_reverse, List.reverse_reverse, ← List.map_append, List.take_append_drop]

/-! ## Calls of one geometry -/

/-- Two calls whose buffers have the same lengths. -/
structure SameGeometry (c₀ c : Ctx V) : Prop where
  ins : c₀.ins.map List.length = c.ins.map List.length
  out : c₀.outLen = c.outLen

lemma SameGeometry.length_ins {c₀ c : Ctx V} (h : SameGeometry c₀ c) :
    c₀.ins.length = c.ins.length := by
  have hlen := congrArg List.length h.ins
  rwa [List.length_map, List.length_map] at hlen

lemma SameGeometry.length_input {c₀ c : Ctx V} (h : SameGeometry c₀ c) (k : ℤ) :
    (c₀.input k).length = (c.input k).length := by
  have hlen : ∀ d : Ctx V, (d.input k).length = (d.ins.map List.length).getD k.toNat 0 := by
    intro d
    rw [Ctx.input, List.getD_eq_getElem?_getD, List.getD_eq_getElem?_getD, List.getElem?_map]
    cases d.ins[k.toNat]? <;> rfl
  rw [hlen, hlen, h.ins]

/-- No count and no extent of the axis is read at run time. -/
def StaticAxis (a : Axis) : Prop := a.countInputOffset < 0 ∧ a.extentInputOffset < 0

/-- The selector values of an axis. -/
def liveSelector (a : Axis) (c : Ctx V) : List V :=
  if a.kind = .all then [] else c.input a.selectorInput

/-! ## The form of the shortcut -/

/-- A descriptor of the shortcut's form, with one axis and one entry of it. -/
structure FixedScalar (p : DynamicIndexSpec) (a : Axis) (c : Ctx V) (update : Bool) : Prop where
  layout : indexInputLayout p update = some (if update then ⟨3, 2, 2⟩ else ⟨2, 2, -1⟩)
  ins : (c.ins.length : ℤ) = if update then 3 else 2
  axis : a.kind = .single ∧ a.count = 1 ∧ a.stride = 1 ∧ StaticAxis a
  extent : 0 ≤ a.extent ∧ a.extent ≤ exactLimit ∧ a.extent = (c.input 0).length
  selector : a.selectorInput = 1 ∧ 0 ≤ a.inputOffset ∧ a.inputOffset < (c.input 1).length
  storage : if update then (c.outLen : ℤ) = a.extent ∧ (c.input 2).length = 1 else c.outLen = 1

lemma FixedScalar.of_not {p : DynamicIndexSpec} {a : Axis} {c : Ctx V} {update : Bool}
    (h : ¬ NotFixedScalar p a c update) : FixedScalar p a c update := by
  simp only [NotFixedScalar, not_or, not_and_or, not_not, not_lt, not_le] at h
  obtain ⟨hins, hcount, hrhs, hkind, hone, hstride, hext0, hlimit, hext, hsel, hoff0, hoff, hc, he,
    hstorage⟩ := h
  cases update with
  | false =>
    simp only [Bool.false_eq_true, if_false, false_and] at hins hcount hrhs hstorage
    refine ⟨?_, hins, ⟨hkind, hone, hstride, hc, he⟩, ⟨hext0, hlimit, hext⟩, ⟨hsel, hoff0, hoff⟩, ?_⟩
    · rcases hcount with h0 | h2
      · simp [indexInputLayout, hrhs, h0]
      · simp [indexInputLayout, hrhs, h2]
    · simpa using hstorage
  | true =>
    simp only [if_true, true_and, not_or, not_not] at hins hcount hrhs hstorage
    refine ⟨?_, hins, ⟨hkind, hone, hstride, hc, he⟩, ⟨hext0, hlimit, hext⟩, ⟨hsel, hoff0, hoff⟩, ?_⟩
    · rcases hcount with h0 | h3
      · rw [if_neg (by simp [h0])] at hrhs
        simp [indexInputLayout, h0, hrhs]
      · simp [indexInputLayout, h3] at hrhs ⊢
        exact hrhs
    · simpa using hstorage

lemma FixedScalar.mul_extent {p : DynamicIndexSpec} {a : Axis} {c : Ctx V} {update : Bool}
    (h : FixedScalar p a c update) : mul 1 a.extent = .ok a.extent := by
  obtain ⟨hext0, hlimit, -⟩ := h.extent
  rw [mul, if_neg, Int.one_mul]
  rintro (h1 | h1 | ⟨hne, hlt⟩)
  · exact absurd h1 (by decide)
  · exact absurd hext0 (not_le.2 h1)
  · have hpos : 0 < a.extent := lt_of_le_of_ne hext0 (Ne.symm hne)
    have hdiv : 1 ≤ exactLimit / a.extent := (Int.le_ediv_iff_mul_le hpos).2 (by omega)
    exact absurd hlt (not_lt.2 hdiv)

lemma FixedScalar.not_storageFault {p : DynamicIndexSpec} {a : Axis} {c : Ctx V} {update : Bool}
    (h : FixedScalar p a c update) (hsize : p.selectedSize = 1) {axes : List (RuntimeAxis V)} :
    ¬ StorageFault p c update (if update then ⟨3, 2, 2⟩ else ⟨2, 2, -1⟩)
      ⟨axes, 1, a.extent, a.extent⟩ := by
  have hext := h.extent.2.2
  have hstorage := h.storage
  cases update
  · simp only [StorageFault, hsize, Bool.false_eq_true, if_false] at hstorage ⊢
    omega
  · simp only [StorageFault, hsize, if_true] at hstorage ⊢
    change ¬ (_ ∨ _ ∨ _ ∨ _ ∨ ((c.input 2).length : ℤ) ≠ 1)
    omega

/-! ## Validation after a first use -/

section Selectors

variable [Integral V]

lemma staticSelection_iff {p : DynamicIndexSpec} :
    staticSelection p = true ↔ ∀ a ∈ p.axes, StaticAxis a := by
  simp [staticSelection, StaticAxis]

/-- What validation checks of a static axis before the selector values, it checks of the lengths. -/
lemma AxisShape.of_static {c₀ c : Ctx V} {layout : InputLayout} {a : Axis} {extent count : ℤ}
    {selector : List V} (h : AxisShape c₀ layout a extent count selector) (ha : StaticAxis a)
    (hc : SameGeometry c₀ c) : extent = a.extent ∧ count = a.count ∧
      AxisShape c layout a a.extent a.count (liveSelector a c) := by
  have hextent : ∀ d : Ctx V, logicalAxisExtent a d = .ok a.extent := fun _ => if_pos ha.2
  have hcount : ∀ d : Ctx V, dynamicAxisCount a d = .ok a.count := fun _ => if_pos ha.1
  have he := h.extent_eq
  rw [hextent] at he
  have hk := h.count_eq
  rw [hcount] at hk
  have hlength : selector.length = (liveSelector a c).length := by
    by_cases hall : a.kind = .all
    · have hs := h.selector_eq
      rw [selectorOf, if_pos hall] at hs
      cases hs
      rw [liveSelector, if_pos hall]
    · rw [h.selector hall, liveSelector, if_neg hall, hc.length_input]
  refine ⟨(Except.ok.inj he).symm, (Except.ok.inj hk).symm, h.selector_valid, h.count_valid,
    h.extent_valid, hextent c, hcount c, h.offsets, ?_, ?_⟩
  · have hs := h.selector_eq
    rw [selectorOf] at hs ⊢
    rw [liveSelector]
    by_cases hall : a.kind = .all
    · rw [if_pos hall, if_pos hall]
    · rw [if_neg hall, indexInput] at hs
      rw [if_neg hall, if_neg hall, indexInput]
      split at hs
      · cases hs
      · rename_i hin
        rw [hc.length_ins] at hin
        rw [if_neg hin]
  · intro hfault
    apply h.shape
    rw [ShapeFault, hlength, hc.length_input, hc.length_input]
    exact hfault

/-- An axis before its stride is known. -/
def unstrided (r : RuntimeAxis V) : RuntimeAxis V := { r with stride := 0 }

/-- After a first use, the validation loop is the loop over the selector values. -/
lemma foldlM_static {c₀ c : Ctx V} {layout : InputLayout} (hc : SameGeometry c₀ c)
    {axes : List Axis} {st st' : Progress V} (h : axes.foldlM (validateAxis c₀ layout) st = .ok st')
    (hstatic : ∀ a ∈ axes, StaticAxis a) (rt : Runtime V) (hrt : (rt.selected : ℤ) = st.selected) :
    axes.foldlM (validateAxis c layout) { st with axes := rt.axes.map unstrided } =
      (axes.foldlM (preparedAxis c) rt).map (fun rt' => { st' with axes := rt'.axes.map unstrided }) ∧
    ∀ rt', axes.foldlM (preparedAxis c) rt = .ok rt' → (rt'.selected : ℤ) = st'.selected := by
  induction axes generalizing st rt with
  | nil =>
    cases h
    refine ⟨rfl, fun rt' h => ?_⟩
    cases h
    exact hrt
  | cons a axes ih =>
    rw [List.foldlM_cons, bind_eq_ok_iff] at h
    obtain ⟨st₁, h₁, h⟩ := h
    obtain ⟨extent, count, selector, hshape, -, hs, hcap, hl, -⟩ := validateAxis_eq_ok h₁
    obtain ⟨rfl, rfl, hlive⟩ := hshape.of_static (hstatic a (List.mem_cons_self ..)) hc
    have hround := @validateAxis_eq V _ c layout { st with axes := rt.axes.map unstrided } a _ _ _ _ _
      _ hlive hs hcap hl
    rw [List.foldlM_cons, List.foldlM_cons, hround, preparedAxis]
    change ((checkSelectors a (liveSelector a c) a.count a.extent).map _ >>= _) =
      Except.map _ ((checkSelectors a (liveSelector a c) a.count a.extent >>= _) >>= _) ∧
        ∀ rt', ((checkSelectors a (liveSelector a c) a.count a.extent >>= _) >>= _) = _ → _
    cases checkSelectors a (liveSelector a c) a.count a.extent with
    | error e =>
      refine ⟨rfl, fun rt' h => ?_⟩
      cases h
    | ok u =>
      obtain ⟨hsel, hcount, hmul⟩ := mul_eq_ok hs
      have hrt₁ : ((rt.selected * a.count.toNat : ℕ) : ℤ) = st₁.selected := by
        rw [hmul]
        push_cast
        rw [Int.toNat_of_nonneg hcount, hrt]
      have := ih h (fun b hb => hstatic b (List.mem_cons_of_mem _ hb))
        ⟨rt.axes ++ [⟨a.extent.toNat, a.count.toNat, a.stride.toNat, liveSelector a c⟩],
          rt.selected * a.count.toNat⟩ hrt₁
      rw [List.map_append] at this
      exact this

/-- What the loop over the selector values makes of an axis. -/
def preparedState (a : Axis) (c : Ctx V) : RuntimeAxis V :=
  ⟨a.extent.toNat, a.count.toNat, a.stride.toNat, liveSelector a c⟩

/-- The axes after the loop over the selector values. -/
lemma foldlM_preparedAxis {c : Ctx V} {axes : List Axis} {rt rt' : Runtime V}
    (h : axes.foldlM (preparedAxis c) rt = .ok rt') :
    rt'.axes = rt.axes ++ axes.map (preparedState · c) := by
  induction axes generalizing rt with
  | nil =>
    cases h
    exact (List.append_nil _).symm
  | cons a axes ih =>
    rw [List.foldlM_cons, bind_eq_ok_iff] at h
    obtain ⟨rt₁, h₁, h⟩ := h
    rw [preparedAxis, bind_eq_ok_iff] at h₁
    obtain ⟨u, -, h₁⟩ := h₁
    cases h₁
    rw [ih h, List.append_assoc]
    rfl

/-- After a first use, validation is the loop over the selector values. -/
theorem validateIndex_static {p : DynamicIndexSpec} {c₀ c : Ctx V} {update : Bool} {rt₀ : Runtime V}
    (hstatic : staticSelection p = true) (hc : SameGeometry c₀ c)
    (h : validateIndex p c₀ update = .ok rt₀) :
    validateIndex p c update = p.axes.foldlM (preparedAxis c) ⟨[], 1⟩ := by
  rw [staticSelection_iff] at hstatic
  rw [validateIndex, bind_eq_ok_iff] at h
  obtain ⟨layout, hlayout, h⟩ := h
  rw [throwIf_bind_eq_ok, bind_eq_ok_iff] at h
  obtain ⟨hdescriptor, st, hst, h⟩ := h
  rw [bind_eq_ok_iff] at h
  obtain ⟨axes, haxes, h⟩ := h
  rw [throwIf_bind_eq_ok] at h
  obtain ⟨hstorage, -⟩ := h
  obtain ⟨rs, hrs, hall, -⟩ := foldlM_validateAxis hst
  rw [List.nil_append] at hrs
  have hextent : ∀ x ∈ p.axes.zip st.axes, FixedExtent x := by
    intro x hx
    rw [hrs] at hx
    have hchecked := (List.forall₂_iff_zip.1 hall).2 hx
    exact (hchecked.1.of_static (hstatic _ (List.of_mem_zip hx).1) hc).1
  have hlen : st.axes.length = p.axes.length := by rw [hrs, hall.length_eq]
  rw [assignStrides_fixed hlen (not_or.1 hdescriptor).2 hextent, map_eq_ok] at haxes
  obtain ⟨u, hstrides, -⟩ := haxes
  obtain ⟨hfold, hselected⟩ := foldlM_static hc hst hstatic ⟨[], 1⟩ rfl
  rw [hc.length_ins] at hdescriptor
  rw [validateIndex, hlayout, ok_bind, throwIf_of_not hdescriptor, ok_bind]
  change (p.axes.foldlM (validateAxis c layout) ⟨[], 1, 1, 1⟩ >>= _) = _
  rw [List.map_nil] at hfold
  rw [hfold]
  cases hprepared : p.axes.foldlM (preparedAxis c) ⟨[], 1⟩ with
  | error e => rfl
  | ok rt =>
    have hrt : rt.axes = p.axes.map (preparedState · c) := by
      rw [foldlM_preparedAxis hprepared, List.nil_append]
    have hnonneg : ∀ a ∈ p.axes, 0 ≤ a.extent := by
      intro a ha
      rw [← List.map_fst_zip (Nat.le_of_eq hlen.symm)] at ha
      obtain ⟨x, hx, rfl⟩ := List.mem_map.1 ha
      have hnat : (x.2.extent : ℤ) = x.1.extent := hextent x hx
      omega
    have hzip : p.axes.zip (rt.axes.map unstrided) =
        p.axes.map fun a => (a, unstrided (preparedState a c)) := by
      rw [hrt, List.map_map, List.zip_map_right, List.zip_eq_zipWith, List.zipWith_self,
        List.map_map]
      rfl
    have hfixed : ∀ x ∈ p.axes.zip (rt.axes.map unstrided), FixedExtent x := by
      rw [hzip]
      intro x hx
      obtain ⟨a, ha, rfl⟩ := List.mem_map.1 hx
      exact Int.toNat_of_nonneg (hnonneg a ha)
    have hassign : assignStrides p (rt.axes.map unstrided) = .ok rt.axes := by
      rw [assignStrides_fixed (by simp [hrt]) (not_or.1 hdescriptor).2 hfixed, hstrides, hzip,
        List.map_map, hrt]
      rfl
    change (assignStrides p (rt.axes.map unstrided) >>= _) = _
    rw [hassign, ok_bind, throwIf_of_not, ok_bind, ← hselected rt hprepared]
    · rfl
    · intro hfault
      apply hstorage
      rw [StorageFault, hc.length_input, hc.length_input, hc.out]
      exact hfault

/-- The loop over the selector values gives the positions, and the refusals, of the whole way. -/
theorem preparedPositions_eq_general {p : DynamicIndexSpec} {c₀ c : Ctx V} {update : Bool}
    {rt₀ : Runtime V} (hstatic : staticSelection p = true) (hc : SameGeometry c₀ c)
    (h : validateIndex p c₀ update = .ok rt₀) :
    preparedPositions p c = generalPositions p c update := by
  rw [preparedPositions, generalPositions, validateIndex_static hstatic hc h]

/-! ## One position -/

/-- The single selector value of an axis. -/
lemma checkSelectors_single {a : Axis} (ha : a.kind = .single) (selector : List V) (count extent : ℤ) :
    checkSelectors a selector count extent =
      (readInt selector a.inputOffset 1 extent indexOutOfRange).map fun _ => () := by
  have hmulti : ¬ a.kind = .multi := by simp [ha]
  have hskip : ¬ (a.kind = .all ∨ (a.kind = .range ∧ count = 0)) := by simp [ha]
  have hrange : ¬ a.kind = .range := by simp [ha]
  rw [checkSelectors, if_neg hskip, if_neg hmulti, readInt, List.range_one]
  simp only [List.all_cons, List.all_nil, Bool.and_true, selectorOk, Int.natCast_zero, Int.add_zero,
    if_neg hrange]
  cases entry selector a.inputOffset with
  | none => rfl
  | some raw =>
    by_cases hraw : raw < 1 ∨ extent < raw
    · rw [throwIf, if_pos]
      · simp only [if_pos hraw, Except.map]
      · simp only [Bool.and_eq_false_iff, decide_eq_false_iff_not]
        omega
    · rw [throwIf_of_not]
      · simp only [if_neg hraw, Except.map]
      · simp only [Bool.and_eq_false_iff, decide_eq_false_iff_not]
        omega

lemma readInt_eq_ok {values : List V} {offset low high raw : ℤ} {e : Exc}
    (h : readInt values offset low high e = .ok raw) :
    entry values offset = some raw ∧ low ≤ raw ∧ raw ≤ high := by
  unfold readInt at h
  split at h
  · rename_i z hz
    split at h
    · cases h
    · cases h
      exact ⟨hz, by omega, by omega⟩
  · cases h

lemma single_of_singleSelection {p : DynamicIndexSpec} (h : singleSelection p = true) :
    p.selectedSize = 1 ∧ ∀ a ∈ p.axes, a.kind = .single ∧ a.count = 1 ∧ StaticAxis a := by
  simpa [singleSelection, StaticAxis, and_assoc] using h

/-- The sum `prepared_position` computes. -/
lemma foldlM_preparedStep {c : Ctx V} {axes : List Axis}
    (h : ∀ a ∈ axes, a.kind = .single ∧ 0 ≤ a.stride) (rt : Runtime V) (position : ℤ) :
    axes.foldlM (preparedStep c) position = (axes.foldlM (preparedAxis c) rt).map fun _ =>
      position + ((axes.map fun a => stepOf (a, preparedState a c)).sum : ℕ) := by
  induction axes generalizing rt position with
  | nil => exact congrArg Except.ok (Int.add_zero position).symm
  | cons a axes ih =>
    obtain ⟨ha, hstride⟩ := h a (List.mem_cons_self ..)
    have hall : ¬ a.kind = .all := by simp [ha]
    rw [List.foldlM_cons, List.foldlM_cons, preparedStep, preparedAxis, if_neg hall,
      checkSelectors_single ha]
    cases hraw : readInt (c.input a.selectorInput) a.inputOffset 1 a.extent indexOutOfRange with
    | error e => rfl
    | ok raw =>
      obtain ⟨hentry, hone, -⟩ := readInt_eq_ok hraw
      have hstep : (stepOf (a, preparedState a c) : ℤ) = (raw - 1) * a.stride := by
        have hfirst : rawIndex a (preparedState a c) 0 = some raw := by
          simp only [rawIndex, ha]
          rw [preparedState, liveSelector, if_neg hall, hentry]
        rw [stepOf, hfirst, Option.getD_some, preparedState, Int.natCast_mul,
          Int.toNat_of_nonneg (by omega), Int.toNat_of_nonneg hstride]
      change axes.foldlM (preparedStep c) (position + (raw - 1) * a.stride) =
        (axes.foldlM (preparedAxis c) _).map _
      rw [ih (fun b hb => h b (List.mem_cons_of_mem _ hb)), List.map_cons, List.sum_cons]
      push_cast
      rw [hstep, Int.add_assoc]

/-- What the calls of a loop are when its only position has been computed. -/
def Visits.ofPosition : Except Exc ℤ → Visits
  | .error e => Visits.thrown e
  | .ok position => ⟨(), [position.toNat], none⟩

/-- Validation refuses negative strides. -/
lemma Validated.stride_nonneg {p : DynamicIndexSpec} {c : Ctx V} {update : Bool} {rt : Runtime V}
    (h : Validated p c update rt) {a : Axis} (ha : a ∈ p.axes) : 0 ≤ a.stride := by
  obtain ⟨layout, hall⟩ := h.checked
  obtain ⟨r, hr⟩ := h.exists_zip ha
  have hoffsets : ¬ (a.stride < 0 ∨ _) := (hall _ hr).1.offsets
  exact not_lt.1 fun hlt => hoffsets (.inl hlt)

/-- The single read gives the position, and the refusals, of the whole way. -/
theorem preparedPosition_eq_general {p : DynamicIndexSpec} {c₀ c : Ctx V} {update : Bool}
    {rt₀ : Runtime V} (hsingle : singleSelection p = true) (hc : SameGeometry c₀ c)
    (h : validateIndex p c₀ update = .ok rt₀) :
    Visits.ofPosition (preparedPosition p c) = generalPositions p c update := by
  obtain ⟨-, hsingle⟩ := single_of_singleSelection hsingle
  have hstatic : staticSelection p = true := staticSelection_iff.2 fun a ha => (hsingle a ha).2.2
  have hstride : ∀ a ∈ p.axes, 0 ≤ a.stride := fun a => (validateIndex_eq_ok h).stride_nonneg
  rw [preparedPosition, foldlM_preparedStep (fun a ha => ⟨(hsingle a ha).1, hstride a ha⟩) ⟨[], 1⟩,
    generalPositions, validateIndex_static hstatic hc h]
  cases hprepared : p.axes.foldlM (preparedAxis c) ⟨[], 1⟩ with
  | error e => rfl
  | ok rt =>
    have haxes : rt.axes = p.axes.map (preparedState · c) := by
      rw [foldlM_preparedAxis hprepared, List.nil_append]
    have hv : Validated p c update rt := by
      apply validateIndex_eq_ok
      rw [validateIndex_static hstatic hc h, hprepared]
    have hselected : rt.selected = 1 := by
      rw [hv.selected, haxes, selectedCount, List.map_map]
      apply List.prod_eq_one
      intro n hn
      obtain ⟨a, ha, rfl⟩ := List.mem_map.1 hn
      simp [preparedState, (hsingle a ha).2.1]
    have hzip : p.axes.zip rt.axes = p.axes.map fun a => (a, preparedState a c) := by
      rw [haxes, List.zip_map_right, List.zip_eq_zipWith, List.zipWith_self, List.map_map]
      rfl
    have hsum : ((listed p (p.axes.zip rt.axes)).map stepOf).sum =
        (p.axes.map fun a => stepOf (a, preparedState a c)).sum := by
      rw [sum_listed, hzip, List.map_map]
      rfl
    have hposition : selectedPosition p rt 0 =
        .ok (p.axes.map fun a => stepOf (a, preparedState a c)).sum := by
      rw [selectedPosition, foldlM_consume_zero, hsum, Nat.zero_add]
      · rfl
      · intro x hx
        rw [mem_listed] at hx
        obtain ⟨layout, hall⟩ := hv.checked
        have hk : x.1.kind = .single := (hsingle _ (List.of_mem_zip hx).1).1
        exact (hall x hx).readsWithin (by simp [hk]) 0
          (hv.count_pos (by simp [hselected]) x hx)
    change (⟨(), [_], none⟩ : Visits) = selectedPositions p rt
    rw [selectedPositions, hselected, List.range_one,
      run_positionMachine (f := fun _ => (p.axes.map fun a => stepOf (a, preparedState a c)).sum),
      Int.zero_add, Int.toNat_natCast]
    · rfl
    · intro i hi
      rw [List.mem_singleton.1 hi, hposition]

/-- The single read computes no negative position. -/
lemma preparedPosition_nonneg {p : DynamicIndexSpec} {c₀ c : Ctx V} {update : Bool}
    {rt₀ : Runtime V} (hsingle : singleSelection p = true) (h : validateIndex p c₀ update = .ok rt₀)
    {position : ℤ} (hposition : preparedPosition p c = .ok position) : 0 ≤ position := by
  have hp : ∀ a ∈ p.axes, a.kind = .single ∧ 0 ≤ a.stride := fun a ha =>
    ⟨((single_of_singleSelection hsingle).2 a ha).1, (validateIndex_eq_ok h).stride_nonneg ha⟩
  rw [preparedPosition, foldlM_preparedStep hp ⟨[], 1⟩, map_eq_ok] at hposition
  obtain ⟨rt, -, rfl⟩ := hposition
  omega

/-! ## The one-dimensional shortcut -/

/-- The axis of the form passes every check before that of its value. -/
lemma FixedScalar.shape {p : DynamicIndexSpec} {a : Axis} {c : Ctx V} {update : Bool}
    (h : FixedScalar p a c update) :
    AxisShape c (if update then ⟨3, 2, 2⟩ else ⟨2, 2, -1⟩) a a.extent 1 (c.input 1) := by
  obtain ⟨hkind, hone, hstride, hc, he⟩ := h.axis
  obtain ⟨hsel, hoff0, hoff⟩ := h.selector
  have hall : ¬ a.kind = .all := by simp [hkind]
  have hvalid : validSelectorInput (if update then ⟨3, 2, 2⟩ else ⟨2, 2, -1⟩) a.selectorInput = true := by
    rw [hsel]
    cases update <;> rfl
  refine ⟨fun hs => ?_, fun hs => ?_, fun hs => ?_, if_pos he, ?_, ?_, ?_, ?_⟩
  · rw [hvalid] at hs
    exact absurd hs.2 (by decide)
  · omega
  · omega
  · rw [dynamicAxisCount, if_pos hc, hone]
  · rintro (hs | ⟨-, hs⟩) <;> omega
  · have hins := h.ins
    rw [selectorOf, if_neg hall, indexInput, hsel, if_neg]
    cases update
    · simp at hins
      omega
    · simp at hins
      omega
  · simp only [ShapeFault, selectorWidth, hkind, hone]
    rintro (⟨-, hs⟩ | ⟨hs, -⟩ | ⟨hs, -⟩ | ⟨-, hs⟩ | ⟨hs, -⟩)
    · omega
    · omega
    · omega
    · exact hs rfl
    · cases hs

/-- What validation makes of a descriptor of this form. -/
lemma FixedScalar.validateIndex_eq {p : DynamicIndexSpec} {a : Axis} {c : Ctx V} {update : Bool}
    (h : FixedScalar p a c update) (haxes : p.axes = [a]) (hleaf : ¬ p.matrixLeaf = true)
    (hsize : p.selectedSize = 1) :
    validateIndex p c update = (readInt (c.input 1) a.inputOffset 1 a.extent indexOutOfRange).map
      fun _ => ⟨[⟨a.extent.toNat, 1, 1, c.input 1⟩], 1⟩ := by
  have hone : mul 1 1 = .ok 1 := rfl
  have hextent := h.mul_extent
  have hround := @validateAxis_eq V _ c (if update then ⟨3, 2, 2⟩ else ⟨2, 2, -1⟩) ⟨[], 1, 1, 1⟩ a _ _ _
    _ _ _ h.shape hone hextent hextent
  have hdescriptor : ¬ ((c.ins.length : ℤ) ≠
      (if update then (⟨3, 2, 2⟩ : InputLayout) else ⟨2, 2, -1⟩).expected ∨
      (p.matrixLeaf = true ∧ p.axes.length < 2)) := by
    rw [not_or, not_not]
    refine ⟨?_, fun hm => hleaf hm.1⟩
    rw [h.ins]
    cases update <;> rfl
  rw [validateIndex, requireIndexInputLayout, h.layout, Option.elim_some, ok_bind,
    throwIf_of_not hdescriptor, ok_bind, haxes, List.foldlM_cons, hround,
    checkSelectors_single h.axis.1]
  cases readInt (c.input 1) a.inputOffset 1 a.extent indexOutOfRange with
  | error e => rfl
  | ok raw =>
    change (assignStrides p [⟨a.extent.toNat, 1, 0, c.input 1⟩] >>= _) = _
    have hcount : outerCount p = 1 := by simp [outerCount, haxes, hleaf]
    have hcheck : checkStrides 1 [a] = .ok () := by
      rw [checkStrides, throwIf_of_not (not_not.2 h.axis.2.2.1), ok_bind, hextent]
      rfl
    have hassign : assignStrides p [⟨a.extent.toNat, 1, 0, c.input 1⟩] =
        .ok [⟨a.extent.toNat, 1, 1, c.input 1⟩] := by
      rw [assignStrides_fixed (by simp [haxes]) (fun hm => hleaf hm.1)]
      · rw [hcount, haxes]
        change ((checkStrides 1 [a]).map _ : Except Exc _) = _
        rw [hcheck]
        simp [Except.map, physical, h.axis.2.2.1]
      · rw [haxes]
        intro x hx
        rw [List.zip_cons_cons, List.zip_nil_left, List.mem_singleton] at hx
        subst hx
        exact Int.toNat_of_nonneg h.extent.1
    rw [hassign, ok_bind, throwIf_of_not (h.not_storageFault hsize)]
    rfl

/-- The shortcut gives the position, and the refusals, of the whole way. -/
theorem indexPositions_eq_general (p : DynamicIndexSpec) (c : Ctx V) (update : Bool) :
    indexPositions p c update = generalPositions p c update := by
  rw [indexPositions]
  rcases haxes : p.axes with - | ⟨a, - | ⟨b, axes⟩⟩
  · rw [fixedScalarIndex, haxes]
  · by_cases hform : p.matrixLeaf = true ∨ p.selectedSize ≠ 1 ∨ NotFixedScalar p a c update
    · rw [fixedScalarIndex, haxes]
      simp only [if_pos hform]
    · have hfixed : fixedScalarIndex p c update =
          (readInt (c.input 1) a.inputOffset 1 a.extent indexOutOfRange).map
            fun raw => some (raw - 1).toNat := by
        rw [fixedScalarIndex, haxes]
        simp only [if_neg hform]
      rw [not_or, not_or, not_not] at hform
      obtain ⟨hleaf, hsize, hform⟩ := hform
      have h := FixedScalar.of_not hform
      rw [hfixed, generalPositions, h.validateIndex_eq haxes hleaf hsize]
      cases hraw : readInt (c.input 1) a.inputOffset 1 a.extent indexOutOfRange with
      | error e => rfl
      | ok raw =>
        obtain ⟨hentry, hlow, hhigh⟩ := readInt_eq_ok hraw
        have hcount : outerCount p = 1 := by simp [outerCount, haxes, hleaf]
        have hposition : selectedPosition p ⟨[⟨a.extent.toNat, 1, 1, c.input 1⟩], 1⟩ 0 =
            .ok (raw - 1).toNat := by
          rw [selectedPosition, listed, hcount, haxes]
          change ([(a, (⟨a.extent.toNat, 1, 1, c.input 1⟩ : RuntimeAxis V))].foldlM consume (0, 0)).map
            Prod.snd = _
          rw [foldlM_consume_zero]
          · simp [Except.map, stepOf, rawIndex, h.axis.1, hentry]
          · intro x hx
            rw [List.mem_singleton] at hx
            subst hx
            refine ⟨(raw - 1).toNat, by simp only; omega, ?_⟩
            simp only [rawIndex, h.axis.1, hentry, Option.some_inj]
            omega
        change (⟨(), [_], none⟩ : Visits) = selectedPositions p _
        rw [selectedPositions, List.range_one, run_positionMachine (f := fun _ => (raw - 1).toNat)]
        · rfl
        · intro i hi
          rw [List.mem_singleton.1 hi, hposition]
  · rw [fixedScalarIndex, haxes]

end Selectors

end DynamicIndex

end Stanli
