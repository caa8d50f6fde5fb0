import Mathlib.Algebra.BigOperators.Group.List.Basic
import Mathlib.Algebra.Order.Ring.Int
import Mathlib.Data.List.Forall2
import Stanli.DynamicIndex.Descriptor
import Stanli.Lib.Checks

/-!
# What a validated descriptor says

`AxisShape` collects what one round of the validation loop has checked of an axis before it looks at
the selector values; by `validateAxis_eq` the round then is the check of these values and the three
products, and by `validateAxis_eq_ok` a round that passes is nothing else.  `Validated` is the same
for the whole descriptor: one checked axis for each axis, the product of the counts, and strides that
are the products of the logical extents in the order the selection is listed.
-/

namespace Stanli

namespace DynamicIndex

variable {V : Type}

/-! ## Throwing -/

lemma map_eq_ok {α β : Type} {x : Except Exc α} {f : α → β} {b : β} :
    x.map f = .ok b ↔ ∃ a, x = .ok a ∧ f a = b := by
  cases x with
  | error e => simp [Except.map]
  | ok a => simp [Except.map]

attribute [simp] ok_bind

lemma throwIf_of_not {p : Prop} [Decidable p] {e : Exc} (h : ¬ p) : throwIf p e = .ok () := if_neg h

lemma throwIf_eq_ok {p : Prop} [Decidable p] {e : Exc} {u : Unit} : throwIf p e = .ok u ↔ ¬ p :=
  failIf_eq_ok

lemma throwIf_bind_eq_ok {p : Prop} [Decidable p] {e : Exc} {β : Type} {f : Unit → Except Exc β}
    {b : β} : (throwIf p e >>= f) = .ok b ↔ ¬ p ∧ f () = .ok b := by
  rw [bind_eq_ok_iff]
  constructor
  · rintro ⟨u, h, hb⟩
    exact ⟨throwIf_eq_ok.1 h, hb⟩
  · rintro ⟨h, hb⟩
    exact ⟨(), throwIf_of_not h, hb⟩

lemma mul_eq_ok {a b z : ℤ} (h : mul a b = .ok z) : 0 ≤ a ∧ 0 ≤ b ∧ z = a * b := by
  unfold mul at h
  split at h
  · cases h
  · rename_i hc
    rw [not_or, not_or] at hc
    exact ⟨not_lt.1 hc.1, not_lt.1 hc.2.1, (Except.ok.inj h).symm⟩

/-! ## Strides -/

/-- How many positions the axes select. -/
def selectedCount (rs : List (RuntimeAxis V)) : ℕ := (rs.map RuntimeAxis.count).prod

/-- The product of the logical extents. -/
def logicalCount (rs : List (RuntimeAxis V)) : ℕ := (rs.map RuntimeAxis.extent).prod

@[simp] lemma selectedCount_cons (r : RuntimeAxis V) (rs : List (RuntimeAxis V)) :
    selectedCount (r :: rs) = r.count * selectedCount rs := by
  simp [selectedCount]

@[simp] lemma logicalCount_cons (r : RuntimeAxis V) (rs : List (RuntimeAxis V)) :
    logicalCount (r :: rs) = r.extent * logicalCount rs := by
  simp [logicalCount]

lemma selectedCount_pos {rs : List (RuntimeAxis V)} :
    0 < selectedCount rs ↔ ∀ r ∈ rs, 0 < r.count := by
  rw [selectedCount, List.prod_pos_iff_forall_pos_nat, List.forall_mem_map]

/-- Strides that are the products of the extents before them. -/
def Strided : ℕ → List (RuntimeAxis V) → Prop
  | _, [] => True
  | k, r :: rs => r.stride = k ∧ Strided (k * r.extent) rs

lemma strided_append {k : ℕ} {rs rs' : List (RuntimeAxis V)} :
    Strided k (rs ++ rs') ↔ Strided k rs ∧ Strided (k * logicalCount rs) rs' := by
  induction rs generalizing k with
  | nil => simp [Strided, logicalCount]
  | cons r rs ih =>
    rw [List.cons_append, Strided, Strided, ih, logicalCount_cons, Nat.mul_assoc]
    exact and_assoc.symm

/-- Two axes that differ in nothing but the stride. -/
def SameButStride (r r' : RuntimeAxis V) : Prop := r' = { r with stride := r'.stride }

/-- What does not look at the strides does not see their assignment. -/
lemma map_eq_of_sameButStride {β : Type} {f : RuntimeAxis V → β}
    (hf : ∀ r k, f { r with stride := k } = f r) {rs rs' : List (RuntimeAxis V)}
    (h : List.Forall₂ SameButStride rs rs') : rs'.map f = rs.map f := by
  induction h with
  | nil => rfl
  | @cons r r' rs rs' hr _ ih =>
    have hr' : f r' = f r := by
      rw [hr]
      exact hf r r'.stride
    rw [List.map_cons, List.map_cons, ih, hr']

/-- The strides of the arrays. -/
lemma arrayStrides_eq_ok {k l : ℤ} {both : List (Axis × RuntimeAxis V)} {rs : List (RuntimeAxis V)}
    (h : arrayStrides k l both = .ok rs) :
    Strided l.toNat rs ∧ List.Forall₂ SameButStride (both.map Prod.snd) rs := by
  induction both generalizing k l rs with
  | nil =>
    cases h
    exact ⟨trivial, .nil⟩
  | cons x both ih =>
    obtain ⟨a, r⟩ := x
    rw [arrayStrides, throwIf_bind_eq_ok, bind_eq_ok_iff] at h
    obtain ⟨-, k', -, h⟩ := h
    rw [bind_eq_ok_iff] at h
    obtain ⟨l', hl, h⟩ := h
    rw [bind_eq_ok_iff] at h
    obtain ⟨rest, hrest, h⟩ := h
    cases h
    obtain ⟨hs, hall⟩ := ih hrest
    obtain ⟨hl0, -, rfl⟩ := mul_eq_ok hl
    refine ⟨⟨rfl, ?_⟩, .cons rfl hall⟩
    rwa [Int.toNat_mul hl0 (Int.natCast_nonneg _), Int.toNat_natCast] at hs

/-- The strides of a leaf. -/
lemma leafStrides_eq_ok {leaf : List (Axis × RuntimeAxis V)} {rs : List (RuntimeAxis V)} {k l : ℤ}
    (hlen : leaf.length = 0 ∨ leaf.length = 2) (h : leafStrides leaf = .ok (rs, k, l)) :
    Strided 1 rs ∧ l = logicalCount rs ∧ List.Forall₂ SameButStride (leaf.map Prod.snd) rs := by
  rcases leaf with - | ⟨a₀, - | ⟨a₁, - | ⟨a₂, leaf⟩⟩⟩
  · cases h
    exact ⟨trivial, rfl, .nil⟩
  · simp at hlen
  · rw [leafStrides, matrixStrides, throwIf_bind_eq_ok, bind_eq_ok_iff] at h
    obtain ⟨-, k', -, h⟩ := h
    rw [bind_eq_ok_iff] at h
    obtain ⟨l', hl, h⟩ := h
    cases h
    obtain ⟨-, -, rfl⟩ := mul_eq_ok hl
    refine ⟨⟨rfl, Nat.one_mul _ |>.symm, trivial⟩, ?_, .cons rfl (.cons rfl .nil)⟩
    simp [logicalCount]
  · simp at hlen

lemma mem_listed {α : Type*} {p : DynamicIndexSpec} {l : List α} {x : α} :
    x ∈ listed p l ↔ x ∈ l := by
  rw [listed, List.mem_append, List.mem_reverse, or_comm, ← List.mem_append, List.take_append_drop]

lemma map_listed {α β : Type*} (p : DynamicIndexSpec) (l : List α) (f : α → β) :
    (listed p l).map f = listed p (l.map f) := by
  rw [listed, listed, List.map_append, List.map_drop, List.map_reverse, List.map_take]

/-- The product over the axes does not depend on the order they are listed in. -/
lemma prod_listed {α : Type*} (p : DynamicIndexSpec) (l : List α) (f : α → ℕ) :
    ((listed p l).map f).prod = (l.map f).prod := by
  rw [listed, List.map_append, List.prod_append, List.map_reverse, List.prod_reverse, Nat.mul_comm,
    ← List.prod_append, ← List.map_append, List.take_append_drop]

lemma sum_listed {α : Type*} (p : DynamicIndexSpec) (l : List α) (f : α → ℕ) :
    ((listed p l).map f).sum = (l.map f).sum := by
  rw [listed, List.map_append, List.sum_append, List.map_reverse, List.sum_reverse, Nat.add_comm,
    ← List.sum_append, ← List.map_append, List.take_append_drop]

/-- A leaf has no axes of its own, or two. -/
lemma leaf_length {p : DynamicIndexSpec} (h : ¬ (p.matrixLeaf = true ∧ p.axes.length < 2)) :
    p.axes.length - outerCount p = 0 ∨ p.axes.length - outerCount p = 2 := by
  rw [outerCount]
  by_cases hm : p.matrixLeaf = true
  · rw [if_pos hm]
    have h2 : ¬ p.axes.length < 2 := fun hlt => h ⟨hm, hlt⟩
    omega
  · rw [if_neg hm]
    omega

/-- The strides validation computes. -/
lemma assignStrides_eq_ok {p : DynamicIndexSpec} {axes rs : List (RuntimeAxis V)}
    (hlen : axes.length = p.axes.length) (hleaf : ¬ (p.matrixLeaf = true ∧ p.axes.length < 2))
    (h : assignStrides p axes = .ok rs) :
    Strided 1 (listed p rs) ∧ List.Forall₂ SameButStride axes rs := by
  rw [assignStrides, bind_eq_ok_iff] at h
  obtain ⟨⟨leaf, k, l⟩, hl, h⟩ := h
  rw [bind_eq_ok_iff] at h
  obtain ⟨outer, ho, h⟩ := h
  cases h
  have hzip : (p.axes.zip axes).length = p.axes.length := by
    rw [List.length_zip, hlen, Nat.min_self]
  have hsnd : (p.axes.zip axes).map Prod.snd = axes :=
    List.map_snd_zip (Nat.le_of_eq hlen)
  have hdrop : ((p.axes.zip axes).drop (outerCount p)).length = 0 ∨
      ((p.axes.zip axes).drop (outerCount p)).length = 2 := by
    rw [List.length_drop, hzip]
    exact leaf_length hleaf
  obtain ⟨hls, hll, hlall⟩ := leafStrides_eq_ok hdrop hl
  obtain ⟨hos, hoall⟩ := arrayStrides_eq_ok ho
  rw [List.map_drop, hsnd] at hlall
  rw [List.map_reverse, List.map_take, hsnd] at hoall
  have hall : List.Forall₂ SameButStride (axes.take (outerCount p)) outer.reverse := by
    have := List.forall₂_reverse_iff.2 hoall
    rwa [List.reverse_reverse] at this
  have hcount : outer.reverse.length = outerCount p := by
    rw [← hall.length_eq, List.length_take, hlen]
    exact Nat.min_eq_left (Nat.sub_le _ _)
  constructor
  · rw [listed, List.drop_left' hcount, List.take_left' hcount, List.reverse_reverse, strided_append]
    refine ⟨hls, ?_⟩
    rw [hll, Int.toNat_natCast] at hos
    rwa [Nat.one_mul]
  · conv_lhs => rw [← List.take_append_drop (outerCount p) axes]
    exact List.rel_append hall hlall

section Selectors

variable [Integral V]

/-! ## One axis -/

/-- What the validation loop has checked of an axis when it comes to the selector values. -/
structure AxisShape (c : Ctx V) (layout : InputLayout) (a : Axis) (extent count : ℤ)
    (selector : List V) : Prop where
  selector_valid : ¬ (a.kind ≠ .all ∧ validSelectorInput layout a.selectorInput = false)
  count_valid : ¬ (0 ≤ a.countInputOffset ∧ validSelectorInput layout a.countInput = false)
  extent_valid : ¬ (0 ≤ a.extentInputOffset ∧ validSelectorInput layout a.extentInput = false)
  extent_eq : logicalAxisExtent a c = .ok extent
  count_eq : dynamicAxisCount a c = .ok count
  offsets : ¬ (a.stride < 0 ∨ (a.kind ≠ .all ∧ a.inputOffset < 0))
  selector_eq : selectorOf a c = .ok selector
  shape : ¬ ShapeFault a c selector

/-- One round of the loop is the check of the selector values. -/
lemma validateAxis_eq {c : Ctx V} {layout : InputLayout} {st : Progress V} {a : Axis}
    {extent count selected capacity logicalSize : ℤ} {selector : List V}
    (h : AxisShape c layout a extent count selector) (hs : mul st.selected count = .ok selected)
    (hc : mul st.capacity a.extent = .ok capacity)
    (hl : mul st.logicalSize extent = .ok logicalSize) :
    validateAxis c layout st a = (checkSelectors a selector count extent).map fun _ =>
      ⟨st.axes ++ [⟨extent.toNat, count.toNat, 0, selector⟩], selected, capacity, logicalSize⟩ := by
  unfold validateAxis
  rw [throwIf_of_not h.selector_valid, ok_bind, throwIf_of_not h.count_valid, ok_bind,
    throwIf_of_not h.extent_valid, ok_bind, h.extent_eq, ok_bind, h.count_eq, ok_bind, hs, ok_bind,
    hc, ok_bind, hl, ok_bind, throwIf_of_not h.offsets, ok_bind, h.selector_eq, ok_bind,
    throwIf_of_not h.shape, ok_bind]
  cases checkSelectors a selector count extent <;> rfl

/-- What a round that passes has checked. -/
lemma validateAxis_eq_ok {c : Ctx V} {layout : InputLayout} {st st' : Progress V} {a : Axis}
    (h : validateAxis c layout st a = .ok st') : ∃ extent count selector,
      AxisShape c layout a extent count selector ∧ checkSelectors a selector count extent = .ok () ∧
        mul st.selected count = .ok st'.selected ∧ mul st.capacity a.extent = .ok st'.capacity ∧
        mul st.logicalSize extent = .ok st'.logicalSize ∧
        st'.axes = st.axes ++ [⟨extent.toNat, count.toNat, 0, selector⟩] := by
  unfold validateAxis at h
  simp only [bind_eq_ok_iff, throwIf_eq_ok] at h
  obtain ⟨-, h1, -, h2, -, h3, extent, he, count, hc, selected, hs, capacity, hcap, logical, hl, -, h4,
    selector, hsel, -, h5, u, hu, hst⟩ := h
  cases hst
  exact ⟨extent, count, selector, ⟨h1, h2, h3, he, hc, h4, hsel, h5⟩, hu, hs, hcap, hl, rfl⟩

/-! ## All axes -/

/-- An axis of the descriptor and what validation made of it. -/
def AxisChecked (c : Ctx V) (layout : InputLayout) (a : Axis) (r : RuntimeAxis V) : Prop :=
  AxisShape c layout a r.extent r.count r.selector ∧
    checkSelectors a r.selector r.count r.extent = .ok ()

/-- What the whole loop has checked and computed. -/
lemma foldlM_validateAxis {c : Ctx V} {layout : InputLayout} {axes : List Axis} {st st' : Progress V}
    (h : axes.foldlM (validateAxis c layout) st = .ok st') : ∃ rs,
      st'.axes = st.axes ++ rs ∧ List.Forall₂ (AxisChecked c layout) axes rs ∧
        st'.selected = st.selected * selectedCount rs ∧
        st'.logicalSize = st.logicalSize * logicalCount rs := by
  induction axes generalizing st with
  | nil =>
    rw [List.foldlM_nil] at h
    cases h
    exact ⟨[], by simp, .nil, by simp [selectedCount], by simp [logicalCount]⟩
  | cons a axes ih =>
    rw [List.foldlM_cons, bind_eq_ok_iff] at h
    obtain ⟨st₁, h₁, h⟩ := h
    obtain ⟨extent, count, selector, hshape, hsel, hs, -, hl, haxes⟩ := validateAxis_eq_ok h₁
    obtain ⟨rs, hrs, hall, hselected, hlogical⟩ := ih h
    obtain ⟨-, hcount, hs⟩ := mul_eq_ok hs
    obtain ⟨-, hextent, hl⟩ := mul_eq_ok hl
    have hchecked : AxisChecked c layout a ⟨extent.toNat, count.toNat, 0, selector⟩ := by
      rw [AxisChecked, Int.toNat_of_nonneg hextent, Int.toNat_of_nonneg hcount]
      exact ⟨hshape, hsel⟩
    refine ⟨⟨extent.toNat, count.toNat, 0, selector⟩ :: rs, ?_, .cons hchecked hall, ?_, ?_⟩
    · rw [hrs, haxes, List.append_assoc]
      rfl
    · rw [hselected, hs, selectedCount_cons]
      push_cast
      rw [Int.toNat_of_nonneg hcount, Int.mul_assoc]
    · rw [hlogical, hl, logicalCount_cons]
      push_cast
      rw [Int.toNat_of_nonneg hextent, Int.mul_assoc]

/-! ## The whole descriptor -/

/-- What validation has made sure of. -/
structure Validated (p : DynamicIndexSpec) (c : Ctx V) (update : Bool) (rt : Runtime V) : Prop where
  axes : ∃ layout, indexInputLayout p update = some layout ∧
    List.Forall₂ (AxisChecked c layout) p.axes rt.axes
  selected : rt.selected = selectedCount rt.axes
  strided : Strided 1 (listed p rt.axes)
  leaf : p.matrixLeaf = true → 2 ≤ p.axes.length
  fits : logicalCount rt.axes ≤ (c.input 0).length
  room : (rt.selected : ℤ) ≤ p.selectedSize
  out : update = false → (c.outLen : ℤ) = p.selectedSize
  base : update = true → c.outLen = (c.input 0).length
  rhs : update = true → ∀ layout, indexInputLayout p update = some layout →
    ((c.input layout.rhs).length : ℤ) = p.selectedSize

lemma requireIndexInputLayout_eq_ok {p : DynamicIndexSpec} {update : Bool} {layout : InputLayout} :
    requireIndexInputLayout p update = .ok layout ↔ indexInputLayout p update = some layout := by
  rw [requireIndexInputLayout]
  cases indexInputLayout p update with
  | none =>
    constructor
    · intro h
      cases h
    · intro h
      cases h
  | some l =>
    constructor
    · intro h
      cases h
      rfl
    · intro h
      cases h
      rfl

/-- The inputs of a call validation accepts. -/
lemma validateIndex_layout {p : DynamicIndexSpec} {c : Ctx V} {update : Bool} {rt : Runtime V}
    (h : validateIndex p c update = .ok rt) :
    ∃ layout, indexInputLayout p update = some layout ∧ (c.ins.length : ℤ) = layout.expected := by
  rw [validateIndex, bind_eq_ok_iff] at h
  obtain ⟨layout, hlayout, h⟩ := h
  rw [throwIf_bind_eq_ok, not_or, not_not] at h
  exact ⟨layout, requireIndexInputLayout_eq_ok.1 hlayout, h.1.1⟩

/-- A descriptor validation accepts. -/
lemma validateIndex_eq_ok {p : DynamicIndexSpec} {c : Ctx V} {update : Bool} {rt : Runtime V}
    (h : validateIndex p c update = .ok rt) : Validated p c update rt := by
  rw [validateIndex, bind_eq_ok_iff] at h
  obtain ⟨layout, hlayout, h⟩ := h
  rw [requireIndexInputLayout_eq_ok] at hlayout
  rw [throwIf_bind_eq_ok, bind_eq_ok_iff] at h
  obtain ⟨hdescriptor, st, hst, h⟩ := h
  rw [bind_eq_ok_iff] at h
  obtain ⟨axes, haxes, h⟩ := h
  rw [throwIf_bind_eq_ok] at h
  obtain ⟨hstorage, h⟩ := h
  cases h
  obtain ⟨rs, hrs, hall, hselected, hlogical⟩ := foldlM_validateAxis hst
  rw [List.nil_append] at hrs
  rw [hrs] at haxes
  rw [Int.one_mul] at hselected hlogical
  rw [not_or] at hdescriptor
  obtain ⟨hstrided, hsame⟩ := assignStrides_eq_ok hall.length_eq.symm hdescriptor.2 haxes
  have hcounts : selectedCount axes = selectedCount rs :=
    congrArg List.prod (map_eq_of_sameButStride (fun _ _ => rfl) hsame)
  have hextents : logicalCount axes = logicalCount rs :=
    congrArg List.prod (map_eq_of_sameButStride (fun _ _ => rfl) hsame)
  have hselected' : st.selected.toNat = selectedCount rs := by
    rw [hselected, Int.toNat_natCast]
  simp only [StorageFault, not_or] at hstorage
  obtain ⟨hcapacity, hfits, hroom, hbuffers⟩ := hstorage
  refine ⟨⟨layout, hlayout, forall₂_trans ?_ hall hsame⟩, hselected'.trans hcounts.symm, hstrided,
    fun hm => not_lt.1 fun hlt => hdescriptor.2 ⟨hm, hlt⟩, ?_, ?_, fun hu => ?_, fun hu => ?_,
    fun hu => ?_⟩
  · intro a r r' har hr
    rw [hr]
    exact har
  · rw [hextents]
    omega
  · change ((st.selected.toNat : ℕ) : ℤ) ≤ _
    rw [hselected', ← hselected]
    exact not_lt.1 hroom
  · rw [if_neg (by rw [hu]; decide)] at hbuffers
    exact not_not.1 hbuffers
  · rw [if_pos hu, not_or, not_not, not_not] at hbuffers
    omega
  · intro layout' hlayout'
    rw [if_pos hu, not_or, not_not, not_not] at hbuffers
    rw [hlayout] at hlayout'
    cases hlayout'
    exact hbuffers.2

end Selectors

end DynamicIndex

end Stanli
