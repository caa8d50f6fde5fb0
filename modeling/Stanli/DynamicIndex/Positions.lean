import Stanli.DynamicIndex.Validate
import Stanli.Lib.MixedRadix

/-!
# The positions of a selection

A selection names, for each axis, a list of coordinates (`AxisSelects`); the positions are the numbers
of their choices in the mixed radix of the logical extents, the rows of a matrix leaf first, then its
columns, then the arrays from the innermost on.

`selectedPositions_eq`: where every whole axis has no more entries than its extent, the loop over a
validated descriptor hands on exactly these, each inside the base.  Nothing checks that of a whole
axis; `selectedPositions_partial` says what happens when it fails.
-/

namespace Stanli

namespace DynamicIndex

open MixedRadix

variable {V : Type} [Integral V]

/-! ## What an axis selects -/

/-- The coordinate, counted from zero, that the `j`-th entry of an axis names. -/
def coordinate (a : Axis) (c : Ctx V) (j : ℕ) : Option ℤ :=
  match a.kind with
  | .all => some j
  | .single => (entry (c.input a.selectorInput) a.inputOffset).map (· - 1)
  | .multi => (entry (c.input a.selectorInput) (a.inputOffset + j)).map (· - 1)
  | .range => (entry (c.input a.selectorInput) a.inputOffset).map (· - 1 + (j : ℤ))

/-- An axis selects these coordinates of this many. -/
structure AxisSelects (c : Ctx V) (a : Axis) (s : List ℕ × ℕ) : Prop where
  extent : logicalAxisExtent a c = .ok (s.2 : ℤ)
  count : dynamicAxisCount a c = .ok (s.1.length : ℤ)
  coordinates : ∀ j (h : j < s.1.length), coordinate a c j = some (s.1[j] : ℤ)

/-- A multi-index selection: what each axis selects, and every multi-index lies in the box. -/
structure Selects (p : DynamicIndexSpec) (c : Ctx V) (l : List (List ℕ × ℕ)) : Prop where
  axes : List.Forall₂ (AxisSelects c) (listed p p.axes) l
  inside : ∀ t ∈ product (l.map Prod.fst), List.Forall₂ (· < ·) t (l.map Prod.snd)

/-- The positions of a selection, in the order it is listed. -/
def positions (l : List (List ℕ × ℕ)) : List ℕ :=
  (product (l.map Prod.fst)).map (number (l.map Prod.snd))

/-! ## What the loop reads -/

/-- The entries of an axis the loop can read are indices of it. -/
def ReadsWithin (x : Axis × RuntimeAxis V) : Prop :=
  ∀ j < x.2.count, ∃ d < x.2.extent, rawIndex x.1 x.2 j = some (d + 1 : ℤ)

/-- The coordinates the loop reads from an axis, and the extent of it. -/
def choice (x : Axis × RuntimeAxis V) : List ℕ × ℕ :=
  ((List.range x.2.count).map fun j => ((rawIndex x.1 x.2 j).getD 1 - 1).toNat, x.2.extent)

/-- The choices of a descriptor. -/
def choices (p : DynamicIndexSpec) (rt : Runtime V) : List (List ℕ × ℕ) :=
  (listed p (p.axes.zip rt.axes)).map choice

@[simp] lemma length_choice (x : Axis × RuntimeAxis V) : (choice x).1.length = x.2.count := by
  simp [choice]

lemma choice_getElem {x : Axis × RuntimeAxis V} {j : ℕ} (h : j < (choice x).1.length) {d : ℕ}
    (hd : rawIndex x.1 x.2 j = some (d + 1 : ℤ)) : (choice x).1[j] = d := by
  simp [choice, hd]

/-- The selector values that validation has read. -/
lemma AxisShape.selector {c : Ctx V} {layout : InputLayout} {a : Axis} {extent count : ℤ}
    {selector : List V} (h : AxisShape c layout a extent count selector) (ha : a.kind ≠ .all) :
    selector = c.input a.selectorInput := by
  have hs := h.selector_eq
  rw [selectorOf, if_neg ha, indexInput] at hs
  split at hs
  · cases hs
  · exact (Except.ok.inj hs).symm

lemma selectorOk_eq_true {a : Axis} {selector : List V} {count extent : ℤ} {j : ℕ}
    (h : selectorOk a selector count extent j = true) : ∃ raw,
      entry selector (a.inputOffset + j) = some raw ∧ 1 ≤ raw ∧
        (if a.kind = .range then raw + (count - 1) else raw) ≤ extent := by
  unfold selectorOk at h
  split at h
  · rename_i raw hraw
    rw [Bool.and_eq_true, decide_eq_true_eq, decide_eq_true_eq] at h
    exact ⟨raw, hraw, h⟩
  · cases h

lemma checkSelectors_eq_ok {a : Axis} {selector : List V} {count extent : ℤ}
    (h : checkSelectors a selector count extent = .ok ()) (ha : a.kind ≠ .all)
    (hr : ¬ (a.kind = .range ∧ count = 0)) :
    ∀ j < (if a.kind = .multi then count.toNat else 1),
      selectorOk a selector count extent j = true := by
  rw [checkSelectors, if_neg (not_or.2 ⟨ha, hr⟩), throwIf_eq_ok, Bool.not_eq_false,
    List.all_eq_true] at h
  exact fun j hj => h j (List.mem_range.2 hj)

/-- The selector values of an axis that is not whole have been checked. -/
lemma AxisChecked.readsWithin {c : Ctx V} {layout : InputLayout} {a : Axis} {r : RuntimeAxis V}
    (h : AxisChecked c layout a r) (ha : a.kind ≠ .all) : ReadsWithin (a, r) := by
  intro j hj
  replace hj : j < r.count := hj
  have hcheck := checkSelectors_eq_ok h.2 ha (by omega)
  cases hk : a.kind with
  | all => exact absurd hk ha
  | single =>
    obtain ⟨raw, hraw, h1, h2⟩ := selectorOk_eq_true (hcheck 0 (by simp [hk]))
    rw [if_neg (by simp [hk])] at h2
    refine ⟨(raw - 1).toNat, by change _ < r.extent; omega, ?_⟩
    simp only [rawIndex, hk]
    rw [← Int.add_zero a.inputOffset]
    rw [Int.natCast_zero] at hraw
    rw [hraw, Option.some_inj]
    omega
  | multi =>
    obtain ⟨raw, hraw, h1, h2⟩ := selectorOk_eq_true (hcheck j (by simp [hk, hj]))
    rw [if_neg (by simp [hk])] at h2
    refine ⟨(raw - 1).toNat, by change _ < r.extent; omega, ?_⟩
    simp only [rawIndex, hk]
    rw [hraw, Option.some_inj]
    omega
  | range =>
    obtain ⟨raw, hraw, h1, h2⟩ := selectorOk_eq_true (hcheck 0 (by simp [hk]))
    rw [if_pos hk] at h2
    refine ⟨(raw + j - 1).toNat, by change _ < r.extent; omega, ?_⟩
    simp only [rawIndex, hk]
    rw [← Int.add_zero a.inputOffset]
    rw [Int.natCast_zero] at hraw
    rw [hraw, Option.map_some, Option.some_inj]
    omega

/-- A whole axis reads within its extent when it has no more entries. -/
lemma readsWithin_of_all {x : Axis × RuntimeAxis V} (ha : x.1.kind = .all)
    (hle : x.2.count ≤ x.2.extent) : ReadsWithin x := by
  intro j hj
  refine ⟨j, by omega, ?_⟩
  simp only [rawIndex, ha]

/-- What the loop reads is what the axis selects. -/
lemma AxisChecked.selects {c : Ctx V} {layout : InputLayout} {a : Axis} {r : RuntimeAxis V}
    (h : AxisChecked c layout a r) : AxisSelects c a (choice (a, r)) := by
  refine ⟨h.1.extent_eq, ?_, fun j hj => ?_⟩
  · rw [length_choice]
    exact h.1.count_eq
  · rw [length_choice] at hj
    cases hk : a.kind with
    | all =>
      have hraw : rawIndex a r j = some (j + 1 : ℤ) := by simp only [rawIndex, hk]
      rw [choice_getElem (by rwa [length_choice]) hraw]
      simp only [coordinate, hk]
    | single | multi =>
      obtain ⟨d, -, hd⟩ := h.readsWithin (by simp [hk]) j hj
      rw [choice_getElem (by rwa [length_choice]) hd]
      simp only [rawIndex, hk, h.1.selector (by simp [hk])] at hd
      simp [coordinate, hk, hd]
    | range =>
      obtain ⟨d, -, hd⟩ := h.readsWithin (by simp [hk]) j hj
      rw [choice_getElem (by rwa [length_choice]) hd]
      simp only [rawIndex, hk, h.1.selector (by simp [hk])] at hd
      simp only [coordinate, hk]
      obtain ⟨raw, hraw, hd⟩ := Option.map_eq_some_iff.1 hd
      rw [hraw, Option.map_some, Option.some_inj]
      omega

/-! ## One position -/

/-- One axis of a position. -/
lemma consume_eq {x : Axis × RuntimeAxis V} (h : ReadsWithin x) (hpos : 0 < x.2.count) (n acc : ℕ) :
    consume (n, acc) x = .ok (n / (choice x).1.length,
      acc + (choice x).1.getD (n % (choice x).1.length) 0 * x.2.stride) := by
  have hlt : n % x.2.count < x.2.count := Nat.mod_lt n hpos
  obtain ⟨d, hd, hraw⟩ := h _ hlt
  have hdigit : (choice x).1.getD (n % x.2.count) 0 = d := by
    rw [List.getD_eq_getElem _ _ (by rwa [length_choice]), choice_getElem (by rwa [length_choice]) hraw]
  rw [length_choice, hdigit]
  simp only [consume, hraw]
  rw [if_neg (by omega), Int.add_sub_cancel, Int.toNat_natCast]

/-- A position is an entry of the selection. -/
lemma foldlM_consume {l : List (Axis × RuntimeAxis V)} {k : ℕ} (hs : Strided k (l.map Prod.snd))
    (h : ∀ x ∈ l, ReadsWithin x ∧ 0 < x.2.count) (n acc : ℕ) :
    ∃ q, l.foldlM consume (n, acc) = .ok (q, acc + k * entryAt (l.map choice) n) := by
  induction l generalizing k n acc with
  | nil => exact ⟨n, by simp [entryAt, pure, Except.pure]⟩
  | cons x l ih =>
    obtain ⟨hstride, hs⟩ := hs
    obtain ⟨hx, hpos⟩ := h x (List.mem_cons_self ..)
    rw [List.foldlM_cons, consume_eq hx hpos, ok_bind]
    obtain ⟨q, hq⟩ := ih hs (fun y hy => h y (List.mem_cons_of_mem _ hy)) (n / (choice x).1.length)
      (acc + (choice x).1.getD (n % (choice x).1.length) 0 * x.2.stride)
    refine ⟨q, ?_⟩
    rw [hq, hstride]
    change _ = Except.ok (q, acc + k * ((choice x).1.getD (n % (choice x).1.length) 0 +
      x.2.extent * entryAt (l.map choice) (n / (choice x).1.length)))
    rw [Nat.mul_add, Nat.add_assoc, Nat.mul_comm k (List.getD ..), Nat.mul_assoc k]

/-- A digit that no index answers to makes the loop throw. -/
lemma exists_consume_error {l : List (Axis × RuntimeAxis V)} {x : Axis × RuntimeAxis V} (hx : x ∈ l)
    {o : ℕ} (ho : o < x.2.count)
    (hbad : ∀ n acc, n % x.2.count = o → consume (n, acc) x = .error indexOutOfRange)
    (hpos : ∀ y ∈ l, 0 < y.2.count) :
    ∃ m, o * m < selectedCount (l.map Prod.snd) ∧
      ∀ acc, l.foldlM consume (o * m, acc) = .error indexOutOfRange := by
  induction l with
  | nil => cases hx
  | cons y l ih =>
    have hrest : ∀ z ∈ l, 0 < z.2.count := fun z hz => hpos z (List.mem_cons_of_mem _ hz)
    rw [List.map_cons, selectedCount_cons]
    rcases List.mem_cons.1 hx with rfl | hx
    · refine ⟨1, ?_, fun acc => ?_⟩
      · rw [Nat.mul_one]
        refine Nat.lt_of_lt_of_le ho (Nat.le_mul_of_pos_right _ ?_)
        exact selectedCount_pos.2 fun r hr => by
          obtain ⟨z, hz, rfl⟩ := List.mem_map.1 hr
          exact hrest z hz
      · rw [Nat.mul_one, List.foldlM_cons, hbad o acc (Nat.mod_eq_of_lt ho)]
        rfl
    · obtain ⟨m, hm, herror⟩ := ih hx hrest
      have hy : 0 < y.2.count := hpos y (List.mem_cons_self ..)
      refine ⟨y.2.count * m, ?_, fun acc => ?_⟩
      · rw [Nat.mul_left_comm]
        exact Nat.mul_lt_mul_of_pos_left hm hy
      · rw [Nat.mul_left_comm, List.foldlM_cons]
        unfold consume
        rw [Nat.mul_mod_right, Nat.mul_div_cancel_left _ hy]
        split
        · split
          · rfl
          · exact herror _
        · rfl

/-- How far the first entry of an axis moves the position. -/
def stepOf (x : Axis × RuntimeAxis V) : ℕ :=
  ((rawIndex x.1 x.2 0).getD 1 - 1).toNat * x.2.stride

/-- The first position, where every axis has a first coordinate. -/
lemma foldlM_consume_zero {l : List (Axis × RuntimeAxis V)}
    (h : ∀ x ∈ l, ∃ d < x.2.extent, rawIndex x.1 x.2 0 = some (d + 1 : ℤ)) (acc : ℕ) :
    l.foldlM consume (0, acc) = .ok (0, acc + (l.map stepOf).sum) := by
  induction l generalizing acc with
  | nil => rfl
  | cons x l ih =>
    obtain ⟨d, hd, hraw⟩ := h x (List.mem_cons_self ..)
    have hstep : consume (0, acc) x = .ok (0, acc + stepOf x) := by
      simp only [consume, Nat.zero_mod, Nat.zero_div, hraw, stepOf, Option.getD_some]
      rw [if_neg (by omega)]
    rw [List.foldlM_cons, hstep, ok_bind, ih fun y hy => h y (List.mem_cons_of_mem _ hy),
      List.map_cons, List.sum_cons, Nat.add_assoc]

/-! ## The loop over the positions -/

lemma step_ok {p : DynamicIndexSpec} {rt : Runtime V} {i position : ℕ}
    (h : selectedPosition p rt i = .ok position) :
    (positionMachine p rt).step i () = .ok ((), position) :=
  congrArg (Except.map _) h

lemma step_error {p : DynamicIndexSpec} {rt : Runtime V} {i : ℕ} {e : Exc}
    (h : selectedPosition p rt i = .error e) : (positionMachine p rt).step i () = .error e :=
  congrArg (Except.map _) h

/-- A loop in which no round throws. -/
lemma run_positionMachine {p : DynamicIndexSpec} {rt : Runtime V} {is : List ℕ} {f : ℕ → ℕ}
    (h : ∀ i ∈ is, selectedPosition p rt i = .ok (f i)) :
    (positionMachine p rt).run is () = ⟨(), is.map f, none⟩ := by
  induction is with
  | nil => rfl
  | cons i is ih =>
    rw [Machine.run_cons_ok (step_ok (h i (List.mem_cons_self ..))), ih fun j hj => h j (List.mem_cons_of_mem _ hj)]
    rfl

/-- A loop that throws nothing has handed on the position of each round. -/
lemma forall₂_of_run_positionMachine {p : DynamicIndexSpec} {rt : Runtime V} {is : List ℕ}
    (h : ((positionMachine p rt).run is ()).error = none) :
    List.Forall₂ (fun i position => selectedPosition p rt i = .ok position) is
      ((positionMachine p rt).run is ()).log := by
  induction is with
  | nil => exact .nil
  | cons i is ih =>
    cases hi : selectedPosition p rt i with
    | error e =>
      rw [Machine.run_cons_error (step_error hi)] at h
      cases h
    | ok position =>
      rw [Machine.run_cons_ok (step_ok hi)] at h ⊢
      exact .cons hi (ih h)

/-- The positions of a loop that throws nothing, one by one. -/
lemma selectedPosition_of_log {p : DynamicIndexSpec} {rt : Runtime V} {visited : List ℕ}
    (h : selectedPositions p rt = ⟨(), visited, none⟩) : visited.length = rt.selected ∧
      ∀ i (hi : i < visited.length), selectedPosition p rt i = .ok visited[i] := by
  have hall : List.Forall₂ (fun i position => selectedPosition p rt i = .ok position)
      (List.range rt.selected) visited := by
    have hnone : (selectedPositions p rt).error = none := by rw [h]
    have hrun := forall₂_of_run_positionMachine hnone
    rwa [show (positionMachine p rt).run (List.range rt.selected) () = _ from h] at hrun
  have hlen : visited.length = rt.selected := by
    rw [← hall.length_eq, List.length_range]
  refine ⟨hlen, fun i hi => ?_⟩
  have hget := hall.get (by rwa [List.length_range, ← hlen]) hi
  simpa using hget

/-- Every whole axis has no more entries than its extent, or the selection is empty. -/
def AllFits (p : DynamicIndexSpec) (rt : Runtime V) : Prop :=
  rt.selected = 0 ∨ ∀ x ∈ p.axes.zip rt.axes, x.1.kind = .all → x.2.count ≤ x.2.extent

section Validated

variable {p : DynamicIndexSpec} {c : Ctx V} {update : Bool} {rt : Runtime V}

lemma Validated.length_eq (h : Validated p c update rt) : p.axes.length = rt.axes.length := by
  obtain ⟨layout, -, hall⟩ := h.axes
  exact hall.length_eq

/-- Each axis with what validation made of it. -/
lemma Validated.checked (h : Validated p c update rt) :
    ∃ layout, ∀ x ∈ p.axes.zip rt.axes, AxisChecked c layout x.1 x.2 := by
  obtain ⟨layout, -, hall⟩ := h.axes
  exact ⟨layout, fun x hx => (List.forall₂_iff_zip.1 hall).2 hx⟩

/-- Every axis has been given something. -/
lemma Validated.exists_zip (h : Validated p c update rt) {a : Axis} (ha : a ∈ p.axes) :
    ∃ r, (a, r) ∈ p.axes.zip rt.axes := by
  rw [← List.map_fst_zip (Nat.le_of_eq h.length_eq)] at ha
  obtain ⟨⟨b, r⟩, hx, rfl⟩ := List.mem_map.1 ha
  exact ⟨r, hx⟩

lemma Validated.map_fst_listed (h : Validated p c update rt) :
    (listed p (p.axes.zip rt.axes)).map Prod.fst = listed p p.axes := by
  rw [map_listed, List.map_fst_zip (Nat.le_of_eq h.length_eq)]

lemma Validated.map_snd_listed (h : Validated p c update rt) :
    (listed p (p.axes.zip rt.axes)).map Prod.snd = listed p rt.axes := by
  rw [map_listed, List.map_snd_zip (Nat.le_of_eq h.length_eq.symm)]

lemma Validated.size_choices (h : Validated p c update rt) : size (choices p rt) = rt.selected := by
  have hmap : (choices p rt).map (fun s => s.1.length) = (listed p rt.axes).map RuntimeAxis.count := by
    rw [← h.map_snd_listed, choices, List.map_map, List.map_map]
    exact List.map_congr_left fun x _ => length_choice x
  rw [size, hmap, prod_listed, h.selected]
  rfl

lemma Validated.prod_choices (h : Validated p c update rt) :
    ((choices p rt).map Prod.snd).prod = logicalCount rt.axes := by
  have hmap : (choices p rt).map Prod.snd = (listed p rt.axes).map RuntimeAxis.extent := by
    rw [← h.map_snd_listed, choices, List.map_map, List.map_map]
    rfl
  rw [hmap, prod_listed]
  rfl

lemma Validated.positions_choices (h : Validated p c update rt) :
    positions (choices p rt) = (List.range rt.selected).map (entryAt (choices p rt)) := by
  rw [positions, product_map_number, h.size_choices]

/-- Where the selection is not empty, no axis is. -/
lemma Validated.count_pos (h : Validated p c update rt) (hsel : rt.selected ≠ 0) :
    ∀ x ∈ p.axes.zip rt.axes, 0 < x.2.count := by
  intro x hx
  rw [h.selected] at hsel
  exact selectedCount_pos.1 (Nat.pos_of_ne_zero hsel) _ (List.of_mem_zip hx).2

/-- Every axis reads within its extent. -/
lemma Validated.readsWithin (h : Validated p c update rt)
    (hf : ∀ x ∈ p.axes.zip rt.axes, x.1.kind = .all → x.2.count ≤ x.2.extent) :
    ∀ x ∈ p.axes.zip rt.axes, ReadsWithin x := by
  intro x hx
  obtain ⟨layout, hall⟩ := h.checked
  by_cases ha : x.1.kind = .all
  · exact readsWithin_of_all ha (hf x hx ha)
  · exact (hall x hx).readsWithin ha

/-- What the axes read lies in the box of the extents. -/
lemma Validated.inside_choices (h : Validated p c update rt)
    (hf : ∀ x ∈ p.axes.zip rt.axes, x.1.kind = .all → x.2.count ≤ x.2.extent) :
    Inside (choices p rt) := by
  intro s hs d hd
  obtain ⟨x, hx, rfl⟩ := List.mem_map.1 hs
  obtain ⟨j, hj, rfl⟩ := List.getElem_of_mem hd
  rw [length_choice] at hj
  obtain ⟨d, hlt, hraw⟩ := h.readsWithin hf x (mem_listed.1 hx) j hj
  rw [choice_getElem (by rwa [length_choice]) hraw]
  exact hlt

/-- The choices are what the axes select. -/
theorem Validated.selects (h : Validated p c update rt) (hf : AllFits p rt) :
    Selects p c (choices p rt) := by
  refine ⟨?_, fun t ht => ?_⟩
  · obtain ⟨layout, hall⟩ := h.checked
    rw [← h.map_fst_listed, choices, List.forall₂_map_left_iff, List.forall₂_map_right_iff,
      List.forall₂_same]
    exact fun x hx => (hall x (mem_listed.1 hx)).selects
  · rcases hf with h0 | hf
    · have hempty : positions (choices p rt) = [] := by
        rw [h.positions_choices, h0]
        rfl
      rw [positions, List.map_eq_nil_iff] at hempty
      rw [hempty] at ht
      cases ht
    · exact forall₂_lt_of_mem_product (h.inside_choices hf) ht

/-- The position of one entry. -/
lemma Validated.selectedPosition_eq (h : Validated p c update rt) (hf : AllFits p rt) {i : ℕ}
    (hi : i < rt.selected) : selectedPosition p rt i = .ok (entryAt (choices p rt) i) := by
  have hsel : rt.selected ≠ 0 := Nat.ne_of_gt (Nat.zero_lt_of_lt hi)
  have hf : ∀ x ∈ p.axes.zip rt.axes, x.1.kind = .all → x.2.count ≤ x.2.extent :=
    hf.resolve_left hsel
  have hstrided : Strided 1 ((listed p (p.axes.zip rt.axes)).map Prod.snd) := by
    rw [h.map_snd_listed]
    exact h.strided
  obtain ⟨q, hq⟩ := foldlM_consume hstrided (fun x hx => ⟨h.readsWithin hf x (mem_listed.1 hx),
    h.count_pos hsel x (mem_listed.1 hx)⟩) i 0
  rw [selectedPosition, hq, Nat.zero_add, Nat.one_mul]
  rfl

/-- The loop hands on the positions of the selection. -/
theorem Validated.selectedPositions_eq (h : Validated p c update rt) (hf : AllFits p rt) :
    selectedPositions p rt = ⟨(), positions (choices p rt), none⟩ := by
  rw [h.positions_choices]
  apply run_positionMachine
  intro i hi
  exact h.selectedPosition_eq hf (List.mem_range.1 hi)

/-- The positions of the selection lie in the base. -/
theorem Validated.position_lt (h : Validated p c update rt) (hf : AllFits p rt) {at_ : ℕ}
    (hat : at_ ∈ positions (choices p rt)) : at_ < (c.input 0).length := by
  rw [h.positions_choices] at hat
  obtain ⟨i, hi, rfl⟩ := List.mem_map.1 hat
  rw [List.mem_range] at hi
  have hf := hf.resolve_left (Nat.ne_of_gt (Nat.zero_lt_of_lt hi))
  have hlt : entryAt (choices p rt) i < logicalCount rt.axes := by
    rw [← h.prod_choices]
    apply entryAt_lt (h.inside_choices hf)
    rwa [h.size_choices]
  exact Nat.lt_of_lt_of_le hlt h.fits

/-! ## A whole axis that does not fit -/

/-- A whole axis with more entries than its extent makes the loop throw. -/
lemma Validated.error_ne_none (h : Validated p c update rt) (hf : ¬ AllFits p rt) :
    (selectedPositions p rt).error ≠ none := by
  intro hnone
  rw [AllFits, not_or] at hf
  obtain ⟨hsel, hf⟩ := hf
  push Not at hf
  obtain ⟨x, hx, ha, hlt⟩ := hf
  have hbad : ∀ n acc, n % x.2.count = x.2.extent →
      consume (n, acc) x = .error indexOutOfRange := by
    intro n acc hn
    simp only [consume, rawIndex, ha, hn]
    rw [if_pos (by omega)]
  obtain ⟨m, hm, herror⟩ := exists_consume_error (mem_listed.2 hx) hlt hbad
    fun y hy => h.count_pos hsel y (mem_listed.1 hy)
  rw [h.map_snd_listed, selectedCount, prod_listed, ← selectedCount, ← h.selected] at hm
  have hlog : selectedPositions p rt = ⟨(), (selectedPositions p rt).log, none⟩ := by
    rw [← hnone]
  obtain ⟨hlen, hposition⟩ := selectedPosition_of_log hlog
  have hok := hposition (x.2.extent * m) (by rwa [hlen])
  rw [selectedPosition, herror] at hok
  cases hok

/-- With a whole axis of extent zero the loop throws in its first round. -/
lemma Validated.thrown_of_extent_zero (h : Validated p c update rt) (hsel : rt.selected ≠ 0)
    {x : Axis × RuntimeAxis V} (hx : x ∈ p.axes.zip rt.axes) (ha : x.1.kind = .all)
    (h0 : x.2.extent = 0) : selectedPositions p rt = Visits.thrown indexOutOfRange := by
  have hbad : ∀ n acc, n % x.2.count = 0 → consume (n, acc) x = .error indexOutOfRange := by
    intro n acc hn
    simp only [consume, rawIndex, ha, hn]
    rw [if_pos (by omega)]
  obtain ⟨m, -, herror⟩ := exists_consume_error (mem_listed.2 hx) (h.count_pos hsel x hx) hbad
    fun y hy => h.count_pos hsel y (mem_listed.1 hy)
  have herror : selectedPosition p rt 0 = .error indexOutOfRange := by
    have h0 := herror 0
    rw [Nat.zero_mul] at h0
    rw [selectedPosition, h0]
    rfl
  obtain ⟨n, hn⟩ := Nat.exists_eq_succ_of_ne_zero hsel
  rw [selectedPositions, hn, List.range_succ_eq_map]
  exact Machine.run_cons_error (step_error herror) _

/-- Without one the first round hands on a position. -/
lemma Validated.log_ne_nil (h : Validated p c update rt) (hsel : rt.selected ≠ 0)
    (hpos : ∀ x ∈ p.axes.zip rt.axes, x.1.kind = .all → x.2.extent ≠ 0) :
    (selectedPositions p rt).log ≠ [] := by
  have hfirst : ∀ x ∈ listed p (p.axes.zip rt.axes),
      ∃ d < x.2.extent, rawIndex x.1 x.2 0 = some (d + 1 : ℤ) := by
    intro x hx
    rw [mem_listed] at hx
    obtain ⟨layout, hall⟩ := h.checked
    by_cases ha : x.1.kind = .all
    · exact ⟨0, Nat.pos_of_ne_zero (hpos x hx ha), by simp only [rawIndex, ha]⟩
    · exact (hall x hx).readsWithin ha 0 (h.count_pos hsel x hx)
  have hok : ∃ q, selectedPosition p rt 0 = .ok q := by
    rw [selectedPosition, foldlM_consume_zero hfirst]
    exact ⟨_, rfl⟩
  obtain ⟨q, hok⟩ := hok
  obtain ⟨n, hn⟩ := Nat.exists_eq_succ_of_ne_zero hsel
  rw [selectedPositions, hn, List.range_succ_eq_map, Machine.run_cons_ok (step_ok hok)]
  exact List.cons_ne_nil _ _

end Validated

end DynamicIndex

end Stanli
