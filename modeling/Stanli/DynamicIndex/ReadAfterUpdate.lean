import Stanli.DynamicIndex.KernelsSound

/-!
# Reading what an update wrote

The read through the selectors of an update has the updated buffer for its base and no right-hand
side.  Validation looks at nothing but the selectors and the lengths, so it makes of the read what it
made of the update (`validateIndex_reading`), and the read returns to each entry what was written last
to its cell (`indexForward_reading`).
-/

namespace Stanli

namespace DynamicIndex

open Scatter

variable {V : Type}

/-- The descriptor of the read through the selectors of an update. -/
def readingSpec (p : DynamicIndexSpec) : DynamicIndexSpec :=
  { p with
    inputCount := if p.inputCount = 0 then 0 else p.inputCount - 1
    rhsInput := -1 }

/-- The buffers of the read: the updated one, and the selectors of the update. -/
def readingCtx (p : DynamicIndexSpec) (c : Ctx V) (out : List V) : Ctx V :=
  ⟨out :: (c.ins.drop 1).take (c.ins.length - 2), p.selectedSize.toNat⟩

/-- The inputs of the read are those of the update without the right-hand side. -/
lemma indexInputLayout_reading {p : DynamicIndexSpec} {layout : InputLayout}
    (h : indexInputLayout p true = some layout) :
    layout.expected = layout.selectorEnd + 1 ∧ 2 ≤ layout.selectorEnd ∧
      indexInputLayout (readingSpec p) false = some ⟨layout.selectorEnd, layout.selectorEnd, -1⟩ := by
  rw [indexInputLayout] at h
  split at h
  · cases h
  · rename_i hrange
    rw [if_neg (by decide)] at h
    split at h
    · rename_i h0
      split at h
      · cases h
      · cases h
        refine ⟨rfl, by decide, ?_⟩
        simp [indexInputLayout, readingSpec, h0]
    · rename_i h0
      split at h
      · cases h
      · rename_i hrhs
        cases h
        refine ⟨by simp only; omega, by simp only; omega, ?_⟩
        simp only [indexInputLayout, readingSpec, if_neg h0]
        rw [if_neg (by omega), if_pos trivial, if_neg (by omega), if_neg (by omega), if_neg (by omega)]
        congr 1
        simp only [InputLayout.mk.injEq, and_true]
        omega

/-- The selector inputs of two calls are the same. -/
def SameSelectors (c c' : Ctx V) (selectorEnd : ℤ) : Prop :=
  ∀ k, 1 ≤ k → k < selectorEnd →
    c'.input k = c.input k ∧ ∀ what, indexInput c' k what = indexInput c k what

lemma sameSelectors_reading (p : DynamicIndexSpec) (c : Ctx V) (out : List V) {selectorEnd : ℤ}
    (h : (c.ins.length : ℤ) = selectorEnd + 1) :
    SameSelectors c (readingCtx p c out) selectorEnd := by
  intro k hk hlt
  obtain ⟨n, rfl⟩ : ∃ n : ℕ, k = (n + 1 : ℕ) := ⟨(k - 1).toNat, by omega⟩
  have hinput : (readingCtx p c out).input ((n + 1 : ℕ) : ℤ) = c.input ((n + 1 : ℕ) : ℤ) := by
    rw [Ctx.input, Ctx.input, Int.toNat_natCast, readingCtx, List.getD_eq_getElem?_getD,
      List.getD_eq_getElem?_getD, List.getElem?_cons_succ, List.getElem?_take, if_pos (by omega),
      List.getElem?_drop, Nat.add_comm 1 n]
  refine ⟨hinput, fun what => ?_⟩
  have hlen : (readingCtx p c out).ins.length = c.ins.length - 1 := by
    rw [readingCtx, List.length_cons, List.length_take, List.length_drop]
    omega
  rw [indexInput, indexInput, hlen, hinput, if_neg (by omega), if_neg (by omega)]

variable [Integral V]

lemma indexInteger_congr {c c' : Ctx V} {k offset upper : ℤ} {what : String}
    (h : indexInput c' k what = indexInput c k what) :
    indexInteger c' k offset upper what = indexInteger c k offset upper what := by
  rw [indexInteger, indexInteger, h]

/-- Validation looks at the selector inputs only. -/
lemma validateAxis_congr {c c' : Ctx V} {layout layout' : InputLayout}
    (hend : layout'.selectorEnd = layout.selectorEnd)
    (hc : SameSelectors c c' layout.selectorEnd) (st : Progress V) (a : Axis) :
    validateAxis c' layout' st a = validateAxis c layout st a := by
  have hvalid : ∀ k, validSelectorInput layout' k = validSelectorInput layout k := by
    intro k
    rw [validSelectorInput, validSelectorInput, hend]
  have hread : ∀ k, validSelectorInput layout k ≠ false → c'.input k = c.input k ∧
      ∀ what, indexInput c' k what = indexInput c k what := by
    intro k hk
    simp only [validSelectorInput, ne_eq, Bool.not_eq_false, Bool.and_eq_true,
      decide_eq_true_eq] at hk
    exact hc k hk.1 hk.2
  rw [validateAxis, validateAxis, hvalid, hvalid, hvalid]
  by_cases h1 : a.kind ≠ .all ∧ validSelectorInput layout a.selectorInput = false
  · rw [throwIf, if_pos h1]
    rfl
  by_cases h2 : 0 ≤ a.countInputOffset ∧ validSelectorInput layout a.countInput = false
  · rw [throwIf_of_not h1, ok_bind, ok_bind, throwIf, if_pos h2]
    rfl
  by_cases h3 : 0 ≤ a.extentInputOffset ∧ validSelectorInput layout a.extentInput = false
  · rw [throwIf_of_not h1, ok_bind, ok_bind, throwIf_of_not h2, ok_bind, ok_bind, throwIf, if_pos h3]
    rfl
  have hsel : a.kind ≠ .all → _ := fun hk => hread a.selectorInput fun h => h1 ⟨hk, h⟩
  have hcnt : 0 ≤ a.countInputOffset → _ := fun hk => hread a.countInput fun h => h2 ⟨hk, h⟩
  have hext : 0 ≤ a.extentInputOffset → _ := fun hk => hread a.extentInput fun h => h3 ⟨hk, h⟩
  have hextent : logicalAxisExtent a c' = logicalAxisExtent a c := by
    rw [logicalAxisExtent, logicalAxisExtent]
    split
    · rfl
    · exact indexInteger_congr ((hext (by omega)).2 _)
  have hcount : dynamicAxisCount a c' = dynamicAxisCount a c := by
    rw [dynamicAxisCount, dynamicAxisCount]
    split
    · rfl
    · rw [runtimeCount, runtimeCount, indexInteger_congr ((hcnt (by omega)).2 _)]
      by_cases hk : a.kind = .range
      · have hrange : rangeCount a c' = rangeCount a c := by
          funext last
          rw [rangeCount, rangeCount, (hsel (by simp [hk])).2]
        rw [hrange]
      · simp only [if_neg hk]
  have hselector : selectorOf a c' = selectorOf a c := by
    rw [selectorOf, selectorOf]
    split
    · rfl
    · rename_i hk
      exact (hsel hk).2 _
  have hshape : ∀ selector, ShapeFault a c' selector ↔ ShapeFault a c selector := by
    intro selector
    rw [ShapeFault, ShapeFault]
    have hcount : (0 ≤ a.countInputOffset ∧ ((c'.input a.countInput).length : ℤ) ≤ a.countInputOffset) ↔
        (0 ≤ a.countInputOffset ∧ ((c.input a.countInput).length : ℤ) ≤ a.countInputOffset) :=
      and_congr_right fun hk => by rw [(hcnt hk).1]
    have hextent : (0 ≤ a.extentInputOffset ∧
        ((c'.input a.extentInput).length : ℤ) ≤ a.extentInputOffset) ↔
        (0 ≤ a.extentInputOffset ∧ ((c.input a.extentInput).length : ℤ) ≤ a.extentInputOffset) :=
      and_congr_right fun hk => by rw [(hext hk).1]
    rw [hcount, hextent]
  rw [hextent, hcount, hselector]
  simp only [throwIf, hshape]

/-- Validation makes of the read what it made of the update. -/
theorem validateIndex_reading {p : DynamicIndexSpec} {c : Ctx V} {rt : Runtime V}
    (h : validateIndex p c true = .ok rt) {out : List V} (hout : out.length = (c.input 0).length) :
    validateIndex (readingSpec p) (readingCtx p c out) false = .ok rt := by
  have hv := validateIndex_eq_ok h
  rw [validateIndex, bind_eq_ok_iff] at h
  obtain ⟨layout, hlayout, h⟩ := h
  rw [requireIndexInputLayout_eq_ok] at hlayout
  obtain ⟨hexpected, htwo, hreading⟩ := indexInputLayout_reading hlayout
  rw [throwIf_bind_eq_ok, bind_eq_ok_iff] at h
  obtain ⟨hdescriptor, st, hst, h⟩ := h
  rw [bind_eq_ok_iff] at h
  obtain ⟨axes, haxes, h⟩ := h
  rw [throwIf_bind_eq_ok] at h
  obtain ⟨hstorage, h⟩ := h
  rw [not_or, not_not] at hdescriptor
  have hins : (c.ins.length : ℤ) = layout.selectorEnd + 1 := hdescriptor.1.trans hexpected
  have hround : validateAxis (readingCtx p c out) ⟨layout.selectorEnd, layout.selectorEnd, -1⟩ =
      validateAxis c layout := by
    funext st a
    exact validateAxis_congr rfl (sameSelectors_reading p c out hins) st a
  have hlen : ((readingCtx p c out).ins.length : ℤ) = layout.selectorEnd := by
    rw [readingCtx, List.length_cons, List.length_take, List.length_drop]
    omega
  have hdescriptor' : ¬ (((readingCtx p c out).ins.length : ℤ) ≠ layout.selectorEnd ∨
      ((readingSpec p).matrixLeaf = true ∧ (readingSpec p).axes.length < 2)) := by
    rw [not_or, not_not]
    exact ⟨hlen, hdescriptor.2⟩
  rw [validateIndex, requireIndexInputLayout_eq_ok.2 hreading, ok_bind,
    throwIf_of_not hdescriptor', ok_bind, hround]
  change (p.axes.foldlM (validateAxis c layout) ⟨[], 1, 1, 1⟩ >>= _) = _
  rw [hst, ok_bind]
  change (assignStrides p st.axes >>= _) = _
  rw [haxes, ok_bind, throwIf_of_not, ok_bind]
  · exact h
  · have hrhs := hv.rhs rfl layout hlayout
    simp only [StorageFault, if_pos, not_or, not_not] at hstorage
    obtain ⟨hcapacity, hlogical, hselected, -⟩ := hstorage
    have hbase : (readingCtx p c out).input 0 = out := rfl
    have hsize : ((readingCtx p c out).outLen : ℤ) = p.selectedSize := Int.toNat_of_nonneg (by omega)
    rw [StorageFault, hbase, hout, if_neg (by decide), hsize]
    rintro (hf | hf | hf | hf)
    · exact hf hcapacity
    · exact hlogical hf
    · exact hselected hf
    · exact hf rfl

/-- The positions of the read are those of the update. -/
lemma indexPositions_reading {p : DynamicIndexSpec} {c : Ctx V} {visited : List ℕ}
    (h : indexPositions p c true = ⟨(), visited, none⟩) {out : List V}
    (hout : out.length = (c.input 0).length) :
    indexPositions (readingSpec p) (readingCtx p c out) false = ⟨(), visited, none⟩ := by
  obtain ⟨rt, hrt, hpositions⟩ := validated_of_visits h
  rw [indexPositions_eq_general, generalPositions, validateIndex_reading hrt hout]
  exact hpositions

/-- A selected cell lies in the base, and its entry in the output of the read. -/
lemma visited_lt {p : DynamicIndexSpec} {c : Ctx V} {update : Bool} {visited : List ℕ}
    (h : indexPositions p c update = ⟨(), visited, none⟩) {i cell : ℕ} (hi : visited[i]? = some cell) :
    cell < (c.input 0).length ∧ (i : ℤ) < p.selectedSize := by
  obtain ⟨rt, hrt, hpositions⟩ := validated_of_visits h
  have hv := validateIndex_eq_ok hrt
  obtain ⟨hf, hvisited⟩ := hv.visited_eq hpositions
  obtain ⟨hlen, -⟩ := selectedPosition_of_log hpositions
  have hlt : i < visited.length := (List.getElem?_eq_some_iff.1 hi).1
  have hroom := hv.room
  refine ⟨hv.position_lt hf ?_, by omega⟩
  rw [← hvisited]
  exact List.mem_of_getElem? hi

/-- Reading after an update returns what was written last. -/
theorem indexForward_reading [Zero V] {p : DynamicIndexSpec} {c : Ctx V} {layout : InputLayout}
    {visited : List ℕ} (h : indexPositions p c true = ⟨(), visited, none⟩) :
    ∃ read, indexForward (readingSpec p)
        (readingCtx p c (updateOutput c (c.input layout.rhs) visited)) = .ok read ∧
      ∀ i cell : ℕ, visited[i]? = some cell → ∃ j, lastIndex visited cell = some j ∧
        read[i]? = some ((c.input layout.rhs).getD j 0) := by
  have hout : (updateOutput c (c.input layout.rhs) visited).length = (c.input 0).length := by
    rw [updateOutput, List.length_map, List.length_range]
  refine ⟨_, indexForward_eq (indexPositions_reading h hout), fun i cell hi => ?_⟩
  obtain ⟨hcell, hsize⟩ := visited_lt h hi
  have hwritten : lastIndex visited cell ≠ none := by
    rw [ne_eq, lastIndex_eq_none_iff, not_not]
    exact List.mem_of_getElem? hi
  obtain ⟨j, hj⟩ := Option.ne_none_iff_exists'.1 hwritten
  refine ⟨j, hj, ?_⟩
  have hread : i < (readingCtx p c (updateOutput c (c.input layout.rhs) visited)).outLen := by
    change i < p.selectedSize.toNat
    omega
  have hentry : (updateOutput c (c.input layout.rhs) visited).getD cell 0 =
      (c.input layout.rhs).getD j 0 := by
    rw [updateOutput, List.getD_eq_getElem?_getD, List.getElem?_map, List.getElem?_range hcell,
      Option.map_some, updateSource, hj]
    rfl
  rw [readOutput, List.getElem?_map, List.getElem?_range hread, Option.map_some, hi]
  exact congrArg some hentry

end DynamicIndex

end Stanli
