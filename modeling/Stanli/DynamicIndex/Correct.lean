import Stanli.DynamicIndex.ReadAfterUpdate

/-!
# Dynamic indexing

`IndexingCorrect` collects what dynamic indexing is for: the positions of a call are those of its
multi-index selection or the call throws before the first of them, the short ways agree with the whole
one, an update can be read back, and each adjoint goes where its value came from.  All of it but the
first holds of every descriptor and every call.  The first fails for whole axes, whose count validation
compares with the capacity and not with the logical extent (`Fits`): then the loop throws in the middle.
-/

namespace Stanli

namespace DynamicIndex

open Scatter

variable {V : Type} [Integral V]

/-- The positions of a call are those of its multi-index selection, each inside the base; or else it
throws before the first of them. -/
def Enumerates (p : DynamicIndexSpec) (c : Ctx V) (update : Bool) : Prop :=
  (∃ e, indexPositions p c update = Visits.thrown e) ∨
    ∃ l, Selects p c l ∧ indexPositions p c update = ⟨(), positions l, none⟩ ∧
      ∀ cell ∈ positions l, cell < (c.input 0).length

/-- A first use of the descriptor on buffers of these lengths went through. -/
def FirstUse (p : DynamicIndexSpec) (c : Ctx V) (update : Bool) : Prop :=
  ∃ c₀, SameGeometry c₀ c ∧ (indexPositions p c₀ update).error = none

/-- An update through these positions: each selected cell holds what was written there last and the
others what they held, the read through the same selectors returns what was written last, and each
output adjoint goes to the cell or the entry its value came from. -/
structure Updates [Zero V] (p : DynamicIndexSpec) (c : Ctx V) (rhs : List V) (visited : List ℕ)
    (out : List V) (scratch : List ℤ) : Prop where
  length_eq : out.length = (c.input 0).length
  written : ∀ cell j, lastIndex visited cell = some j → out.getD cell 0 = rhs.getD j 0
  unchanged : ∀ cell, cell ∉ visited → out.getD cell 0 = (c.input 0).getD cell 0
  read : ∃ read, indexForward (readingSpec p) (readingCtx p c out) = .ok read ∧
    ∀ i cell : ℕ, visited[i]? = some cell → ∃ j, lastIndex visited cell = some j ∧
      read[i]? = some (rhs.getD j 0)
  backward : ∀ (A : Type) [Add A] (baseAdj rhsAdj : Option ℕ) (outAdj mem : ℕ → A),
    setIndexBackward p c scratch baseAdj rhsAdj outAdj mem = .ok (routed c.outLen
      (fun i => (updateSource visited i).adjoint baseAdj rhsAdj) outAdj mem)

/-- What dynamic indexing is for. -/
structure IndexingCorrect [Zero V] (p : DynamicIndexSpec) (c : Ctx V) : Prop where
  enumerates : ∀ update, Enumerates p c update
  shortcut : ∀ update, indexPositions p c update = generalPositions p c update
  prepared_positions : ∀ update, staticSelection p = true → FirstUse p c update →
    preparedPositions p c = indexPositions p c update
  prepared_position : ∀ update, singleSelection p = true → FirstUse p c update →
    Visits.ofPosition (preparedPosition p c) = indexPositions p c update ∧
      ∀ position, preparedPosition p c = .ok position → 0 ≤ position
  prepared_read : singleSelection p = true → FirstUse p c false →
    preparedIndexRead p c = indexForward p c
  reads : ∀ visited, indexPositions p c false = ⟨(), visited, none⟩ →
    indexForward p c = .ok (readOutput c visited)
  reads_backward : ∀ visited, indexPositions p c false = ⟨(), visited, none⟩ →
    ∀ (A : Type) [Add A] (baseAdj : Option ℕ) (outAdj mem : ℕ → A),
      indexBackward p c baseAdj outAdj mem = .ok (routed c.outLen
        (fun i => visited[i]?.bind (cellOf baseAdj)) outAdj mem)
  updates : ∀ visited scratch, indexPositions p c true = ⟨(), visited, none⟩ →
    ∃ layout out scratch', indexInputLayout p true = some layout ∧
      setIndexForward p c scratch = .ok (out, scratch') ∧
      Updates p c (c.input layout.rhs) visited out scratch'

/-- Validation accepts the call. -/
def Accepted (p : DynamicIndexSpec) (c : Ctx V) (update : Bool) : Prop :=
  ∃ rt, validateIndex p c update = .ok rt

/-- Whole axes have no more entries than their logical extents, unless some axis has no entries or some
whole axis no extent. -/
def Fits (p : DynamicIndexSpec) (c : Ctx V) : Prop :=
  (∃ a ∈ p.axes, dynamicAxisCount a c = .ok 0) ∨
    (∃ a ∈ p.axes, a.kind = .all ∧ logicalAxisExtent a c = .ok 0) ∨
    ∀ a ∈ p.axes, a.kind = .all → ∀ extent count, logicalAxisExtent a c = .ok extent →
      dynamicAxisCount a c = .ok count → count ≤ extent

/-- The condition, in terms of what validation has read. -/
lemma Validated.fits_iff {p : DynamicIndexSpec} {c : Ctx V} {update : Bool} {rt : Runtime V}
    (h : Validated p c update rt) : Fits p c ↔
      rt.selected = 0 ∨ (∃ x ∈ p.axes.zip rt.axes, x.1.kind = .all ∧ x.2.extent = 0) ∨
        ∀ x ∈ p.axes.zip rt.axes, x.1.kind = .all → x.2.count ≤ x.2.extent := by
  obtain ⟨layout, hall⟩ := h.checked
  have hextent : ∀ x ∈ p.axes.zip rt.axes, logicalAxisExtent x.1 c = .ok (x.2.extent : ℤ) :=
    fun x hx => (hall x hx).1.extent_eq
  have hcount : ∀ x ∈ p.axes.zip rt.axes, dynamicAxisCount x.1 c = .ok (x.2.count : ℤ) :=
    fun x hx => (hall x hx).1.count_eq
  have hzero : (∃ a ∈ p.axes, dynamicAxisCount a c = .ok 0) ↔ rt.selected = 0 := by
    constructor
    · rintro ⟨a, ha, h0⟩
      by_contra hsel
      obtain ⟨r, hr⟩ := h.exists_zip ha
      have hpos : 0 < r.count := h.count_pos hsel _ hr
      rw [hcount _ hr] at h0
      have h0 : (r.count : ℤ) = 0 := Except.ok.inj h0
      omega
    · intro h0
      by_contra hnone
      have hpos : 0 < selectedCount rt.axes := by
        rw [selectedCount_pos]
        intro r hr
        rw [← List.map_snd_zip (Nat.le_of_eq h.length_eq.symm)] at hr
        obtain ⟨x, hx, rfl⟩ := List.mem_map.1 hr
        apply Nat.pos_of_ne_zero
        intro hc
        refine hnone ⟨x.1, (List.of_mem_zip hx).1, ?_⟩
        rw [hcount x hx, hc]
        rfl
      rw [← h.selected] at hpos
      omega
  have hflat : (∃ a ∈ p.axes, a.kind = .all ∧ logicalAxisExtent a c = .ok 0) ↔
      ∃ x ∈ p.axes.zip rt.axes, x.1.kind = .all ∧ x.2.extent = 0 := by
    constructor
    · rintro ⟨a, ha, hk, h0⟩
      obtain ⟨r, hr⟩ := h.exists_zip ha
      rw [hextent _ hr] at h0
      exact ⟨_, hr, hk, Int.natCast_eq_zero.1 (Except.ok.inj h0)⟩
    · rintro ⟨x, hx, hk, h0⟩
      refine ⟨x.1, (List.of_mem_zip hx).1, hk, ?_⟩
      rw [hextent x hx, h0]
      rfl
  rw [Fits, hzero, hflat]
  refine or_congr_right (or_congr_right ?_)
  constructor
  · intro hle x hx hk
    exact Int.ofNat_le.1 (hle x.1 (List.of_mem_zip hx).1 hk _ _ (hextent x hx) (hcount x hx))
  · intro hle a ha hk extent count he hc
    obtain ⟨r, hr⟩ := h.exists_zip ha
    rw [hextent _ hr] at he
    rw [hcount _ hr] at hc
    cases he
    cases hc
    exact Int.ofNat_le.2 (hle _ hr hk)

/-- The positions are those of the selection exactly when the whole axes fit. -/
theorem enumerates_iff (p : DynamicIndexSpec) (c : Ctx V) (update : Bool) :
    Enumerates p c update ↔ (Accepted p c update → Fits p c) := by
  rw [Enumerates, indexPositions_eq_general, generalPositions]
  cases hrt : validateIndex p c update with
  | error e =>
    refine iff_of_true (.inl ⟨e, rfl⟩) ?_
    rintro ⟨rt, hok⟩
    rw [hrt] at hok
    cases hok
  | ok rt =>
    have hv := validateIndex_eq_ok hrt
    constructor
    · intro h _
      rw [hv.fits_iff]
      by_contra hfits
      rw [not_or, not_or, not_exists] at hfits
      obtain ⟨hsel, hflat, hbad⟩ := hfits
      have hlog := hv.log_ne_nil hsel fun x hx hk h0 => hflat x ⟨hx, hk, h0⟩
      have herror := hv.error_ne_none (fun hf => hf.elim hsel hbad)
      rcases h with ⟨e, he⟩ | ⟨l, -, hl, -⟩
      · exact hlog (congrArg Outcome.log he)
      · exact herror (congrArg Outcome.error hl)
    · intro hfits
      have hdone : AllFits p rt → (∃ e, selectedPositions p rt = Visits.thrown e) ∨
          ∃ l, Selects p c l ∧ selectedPositions p rt = ⟨(), positions l, none⟩ ∧
            ∀ cell ∈ positions l, cell < (c.input 0).length := fun hf =>
        .inr ⟨choices p rt, hv.selects hf, hv.selectedPositions_eq hf, fun _ => hv.position_lt hf⟩
      rcases hv.fits_iff.1 (hfits ⟨rt, hrt⟩) with h0 | ⟨x, hx, hk, h0⟩ | hle
      · exact hdone (.inl h0)
      · by_cases hsel : rt.selected = 0
        · exact hdone (.inl hsel)
        · exact .inl ⟨_, hv.thrown_of_extent_zero hsel hx hk h0⟩
      · exact hdone (.inr hle)

/-- A first use that went through has been validated. -/
lemma FirstUse.validated {p : DynamicIndexSpec} {c : Ctx V} {update : Bool}
    (h : FirstUse p c update) :
    ∃ c₀ rt₀, SameGeometry c₀ c ∧ validateIndex p c₀ update = .ok rt₀ := by
  obtain ⟨c₀, hc, hnone⟩ := h
  have hvisits : indexPositions p c₀ update = ⟨(), (indexPositions p c₀ update).log, none⟩ := by
    rw [← hnone]
  obtain ⟨rt₀, hrt₀, -⟩ := validated_of_visits hvisits
  exact ⟨c₀, rt₀, hc, hrt₀⟩

/-- An update does what it is for. -/
theorem updates_of_positions [Zero V] {p : DynamicIndexSpec} {c : Ctx V} {visited : List ℕ}
    (h : indexPositions p c true = ⟨(), visited, none⟩) (scratch : List ℤ) :
    ∃ layout out scratch', indexInputLayout p true = some layout ∧
      setIndexForward p c scratch = .ok (out, scratch') ∧
      Updates p c (c.input layout.rhs) visited out scratch' := by
  obtain ⟨rt, hrt, -⟩ := validated_of_visits h
  obtain ⟨layout, hlayout, -⟩ := validateIndex_layout hrt
  refine ⟨layout, _, _, hlayout, setIndexForward_eq hlayout h scratch, ?_, fun cell j hj => ?_,
    fun cell hcell => ?_, indexForward_reading h, fun A _ baseAdj rhsAdj outAdj mem => ?_⟩
  · rw [updateOutput, List.length_map, List.length_range]
  · have hlt := (visited_lt h (lastIndex_eq_some_iff.1 hj).1).1
    rw [updateOutput, List.getD_eq_getElem?_getD, List.getElem?_map, List.getElem?_range hlt,
      Option.map_some, updateSource, hj]
    rfl
  · by_cases hlt : cell < (c.input 0).length
    · rw [updateOutput, List.getD_eq_getElem?_getD, List.getElem?_map, List.getElem?_range hlt,
        Option.map_some, updateSource, lastIndex_eq_none_iff.2 hcell]
      rfl
    · rw [List.getD_eq_default _ _ (not_lt.1 hlt), List.getD_eq_default]
      rw [updateOutput, List.length_map, List.length_range]
      exact not_lt.1 hlt
  · apply setIndexBackward_eq h
    intro hp
    simp [hp]

/-- Dynamic indexing is correct exactly where the whole axes of the calls it accepts fit. -/
theorem indexingCorrect_iff [Zero V] (p : DynamicIndexSpec) (c : Ctx V) :
    IndexingCorrect p c ↔ ∀ update, Accepted p c update → Fits p c := by
  constructor
  · intro h update
    exact (enumerates_iff p c update).1 (h.enumerates update)
  · intro h
    refine ⟨fun update => (enumerates_iff p c update).2 (h update), indexPositions_eq_general p c,
      fun update hp huse => ?_, fun update hp huse => ?_, fun hp huse => ?_,
      fun visited hv => indexForward_eq hv, fun visited hv A _ => indexBackward_eq hv,
      fun visited scratch hv => updates_of_positions hv scratch⟩
    · obtain ⟨c₀, rt₀, hc, hrt₀⟩ := huse.validated
      rw [preparedPositions_eq_general hp hc hrt₀, indexPositions_eq_general]
    · obtain ⟨c₀, rt₀, hc, hrt₀⟩ := huse.validated
      rw [preparedPosition_eq_general hp hc hrt₀, indexPositions_eq_general]
      exact ⟨rfl, fun position => preparedPosition_nonneg hp hrt₀⟩
    · obtain ⟨c₀, rt₀, hc, hrt₀⟩ := huse.validated
      exact preparedIndexRead_eq hp hc hrt₀

/-! ## A whole axis that does not fit -/

instance : Integral ℤ := ⟨some⟩

/-- All of a vector of capacity three, whose logical extent is read at run time. -/
def wholeVector : DynamicIndexSpec where
  axes := [{ kind := .all, extent := 3, stride := 1, count := 3, extentInputOffset := 0 }]
  selectedSize := 3
  inputCount := 2

/-- A vector of three, of which two are there. -/
def shortVector : Ctx ℤ := ⟨[[10, 11, 12], [2]], 3⟩

/-- The call is accepted, two positions are handed on, and then it throws. -/
theorem not_indexingCorrect_wholeVector :
    indexPositions wholeVector shortVector false = ⟨(), [0, 1], some indexOutOfRange⟩ ∧
      ¬ IndexingCorrect wholeVector shortVector := by
  have hvisits : indexPositions wholeVector shortVector false =
      ⟨(), [0, 1], some indexOutOfRange⟩ := rfl
  refine ⟨hvisits, fun h => ?_⟩
  rcases h.enumerates false with ⟨e, he⟩ | ⟨l, -, hl, -⟩
  · rw [hvisits] at he
    cases congrArg Outcome.log he
  · rw [hvisits] at hl
    cases congrArg Outcome.error hl

end DynamicIndex

end Stanli
