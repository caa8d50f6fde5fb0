import Mathlib.Data.List.Nodup
import Stanli.InputRanges.Compact

/-!
# The scatter plan

`scatter_plan` of `input_ranges.hpp` splits each import where the number of its readers changes
between one and several.  The pieces visit the coordinates of the imports in their order
(`flatMap_coords_pieces`), and a piece is exclusive where no other import reaches.
-/

namespace Stanli

/-! ## Runs -/

namespace Import

/-- The coordinates of an import: where it reads, and where the child keeps it. -/
def coords (im : Import) : List (ℕ × ℕ) :=
  (List.range im.len).map fun j => (im.parent + j, im.localStart + j)

/-- The import reads the parent coordinate. -/
def covers (im : Import) (p : ℕ) : Bool := decide (im.parent ≤ p) && decide (p < im.parent + im.len)

theorem mem_coords_iff {im : Import} {p : ℕ} : (∃ l, (p, l) ∈ im.coords) ↔ im.covers p = true := by
  simp only [coords, covers, List.mem_map, List.mem_range, Prod.mk.injEq, Bool.and_eq_true,
    decide_eq_true_iff]
  constructor
  · rintro ⟨l, j, hj, rfl, -⟩
    omega
  · rintro ⟨hle, hlt⟩
    exact ⟨im.localStart + (p - im.parent), p - im.parent, by omega, by omega, rfl⟩

end Import

/-! ## Readers -/

/-- `++readers.at(p)`. -/
def addReader (readers : List ℕ) (p : ℕ) : Option (List ℕ) :=
  if p < readers.length then some (readers.modify p (· + 1)) else none

/-- The number of imports that read each parent coordinate. -/
def countReaders (imports : List (List Import)) (parentSize : ℕ) : Option (List ℕ) :=
  (imports.flatten.flatMap fun im => im.coords.map Prod.fst).foldlM addReader
    (List.replicate parentSize 0)

/-- Where the run of coordinates with this mark ends. -/
def runEnd (mark : ℕ → Bool) (value : Bool) : ℕ → ℕ → ℕ
  | 0, stop => stop
  | rest + 1, stop => if mark stop = value then runEnd mark value rest (stop + 1) else stop

/-- The pieces of an import from `start` on, one for each run. -/
def pieces (mark : ℕ → Bool) (im : Import) : ℕ → ℕ → List Import
  | 0, _ => []
  | fuel + 1, start =>
    if start < im.len then
      let exclusive := mark (im.parent + start)
      let stop := runEnd (fun j => mark (im.parent + j)) exclusive (im.len - (start + 1)) (start + 1)
      ⟨im.parent + start, im.localStart + start, stop - start, exclusive⟩ :: pieces mark im fuel stop
    else []

/-- `scatter_plan`. -/
def scatterPlan (imports : List (List Import)) (parentSize : ℕ) : Option (List (List Import)) :=
  (countReaders imports parentSize).map fun readers =>
    imports.map fun child =>
      child.flatMap fun im => pieces (fun p => readers.getD p 0 == 1) im im.len 0

/-! ## Pieces -/

theorem runEnd_spec (mark : ℕ → Bool) (value : Bool) (rest stop : ℕ) :
    stop ≤ runEnd mark value rest stop ∧ runEnd mark value rest stop ≤ stop + rest ∧
      ∀ j, stop ≤ j → j < runEnd mark value rest stop → mark j = value := by
  induction rest generalizing stop with
  | zero => exact ⟨Nat.le_refl _, Nat.le_refl _, fun j hle hlt => absurd hlt (by simp [runEnd]; omega)⟩
  | succ rest ih =>
    rw [runEnd]
    split
    · rename_i hstop
      obtain ⟨hle, hlt, hall⟩ := ih (stop + 1)
      refine ⟨by omega, by omega, fun j hj hjlt => ?_⟩
      rcases Nat.eq_or_lt_of_le hj with rfl | hj
      · exact hstop
      · exact hall j hj hjlt
    · exact ⟨Nat.le_refl _, by omega, fun j hle hlt => absurd hlt (by omega)⟩

/-- The pieces list the rest of the coordinates, in order. -/
theorem flatMap_coords_pieces (mark : ℕ → Bool) (im : Import) {fuel start : ℕ}
    (hfuel : im.len - start ≤ fuel) :
    (pieces mark im fuel start).flatMap Import.coords = im.coords.drop start := by
  have hdrop : ∀ a, im.coords.drop a =
      (List.range' a (im.len - a)).map fun j => (im.parent + j, im.localStart + j) := by
    intro a
    rw [Import.coords, ← List.map_drop, List.range_eq_range', List.drop_range']
    simp
  induction fuel generalizing start with
  | zero =>
    rw [hdrop, Nat.le_zero.1 hfuel]
    rfl
  | succ fuel ih =>
    rw [pieces]
    split
    · rename_i hlt
      dsimp only
      set stop := runEnd (fun j => mark (im.parent + j)) (mark (im.parent + start))
        (im.len - (start + 1)) (start + 1) with hstop
      obtain ⟨hle, hub, -⟩ := runEnd_spec (fun j => mark (im.parent + j)) (mark (im.parent + start))
        (im.len - (start + 1)) (start + 1)
      rw [← hstop] at hle hub
      rw [List.flatMap_cons, ih (by omega), hdrop, hdrop]
      have hsplit : List.range' start (im.len - start) =
          List.range' start (stop - start) ++ List.range' stop (im.len - stop) := by
        rw [show im.len - start = (stop - start) + (im.len - stop) by omega, ← List.range'_append,
          Nat.one_mul, show start + (stop - start) = stop by omega]
      rw [hsplit, List.map_append]
      congr 1
      rw [Import.coords, List.range'_eq_map_range, List.map_map]
      exact List.map_congr_left fun j _ => by simp [Nat.add_assoc]
    · rename_i hlt
      rw [hdrop, show im.len - start = 0 by omega]
      rfl

/-- Every coordinate of a piece has the piece's mark. -/
theorem mark_of_mem_pieces {mark : ℕ → Bool} {im : Import} {fuel start : ℕ} {piece : Import}
    (hpiece : piece ∈ pieces mark im fuel start) {p l : ℕ} (hp : (p, l) ∈ piece.coords) :
    mark p = piece.exclusive := by
  induction fuel generalizing start with
  | zero => cases hpiece
  | succ fuel ih =>
    rw [pieces] at hpiece
    split at hpiece
    · dsimp only at hpiece
      rcases List.mem_cons.1 hpiece with rfl | hpiece
      · obtain ⟨j, hj, heq⟩ := List.mem_map.1 hp
        obtain ⟨rfl, -⟩ := Prod.mk.inj heq
        rw [List.mem_range] at hj
        dsimp only at hj ⊢
        obtain ⟨hle, -, hall⟩ := runEnd_spec (fun j => mark (im.parent + j))
          (mark (im.parent + start)) (im.len - (start + 1)) (start + 1)
        rw [Nat.add_assoc]
        rcases Nat.eq_zero_or_pos j with rfl | hpos
        · rfl
        · exact hall (start + j) (by omega) (by omega)
      · exact ih hpiece
    · cases hpiece

/-! ## Counting readers -/

theorem foldlM_addReader {ps readers : List ℕ} (hps : ∀ p ∈ ps, p < readers.length) :
    ∃ counted, ps.foldlM addReader readers = some counted ∧ counted.length = readers.length ∧
      ∀ p < readers.length, counted.getD p 0 = readers.getD p 0 + ps.count p := by
  induction ps generalizing readers with
  | nil => exact ⟨readers, rfl, rfl, by simp⟩
  | cons q ps ih =>
    have hlength : (readers.modify q (· + 1)).length = readers.length := List.length_modify ..
    have hq : q < readers.length := hps q (List.mem_cons_self ..)
    obtain ⟨counted, hcounted, hlen, hcount⟩ := @ih (readers.modify q (· + 1))
      (fun p hp => hlength ▸ hps p (List.mem_cons_of_mem _ hp))
    refine ⟨counted, ?_, hlen.trans hlength, fun p hp => ?_⟩
    · rw [List.foldlM_cons, addReader, if_pos hq]
      exact hcounted
    · rw [hcount p (hlength ▸ hp), List.count_cons]
      have hmod : (readers.modify q (· + 1)).getD p 0 =
          readers.getD p 0 + if q == p then 1 else 0 := by
        rw [List.getD_eq_getElem _ _ (hlength ▸ hp), List.getElem_modify,
          List.getD_eq_getElem _ _ hp]
        by_cases hqp : q = p <;> simp [hqp]
      rw [hmod]
      omega

theorem lt_length_of_foldlM_addReader {ps readers counted : List ℕ}
    (h : ps.foldlM addReader readers = some counted) : ∀ p ∈ ps, p < readers.length := by
  induction ps generalizing readers with
  | nil => simp
  | cons q ps ih =>
    rw [List.foldlM_cons, addReader] at h
    split at h
    · rename_i hq
      intro p hp
      rcases List.mem_cons.1 hp with rfl | hp
      · exact hq
      · have hlt := ih h p hp
        rwa [List.length_modify] at hlt
    · cases h

/-- The number of imports that read a parent coordinate. -/
def readerCount (imports : List (List Import)) (p : ℕ) : ℕ :=
  (imports.flatten.filter fun im => im.covers p).length

theorem count_coords (im : Import) (p : ℕ) :
    (im.coords.map Prod.fst).count p = if im.covers p = true then 1 else 0 := by
  have hfst : im.coords.map Prod.fst = (List.range im.len).map fun j => im.parent + j := by
    rw [Import.coords, List.map_map]
    rfl
  have hnodup : (im.coords.map Prod.fst).Nodup := by
    rw [hfst]
    exact List.nodup_range.map fun i j hij => Nat.add_left_cancel hij
  split
  · rename_i hcov
    obtain ⟨l, hl⟩ := Import.mem_coords_iff.2 hcov
    exact Nat.le_antisymm (List.nodup_iff_count_le_one.1 hnodup p)
      (List.count_pos_iff.2 (List.mem_map.2 ⟨_, hl, rfl⟩))
  · rename_i hcov
    apply List.count_eq_zero_of_not_mem
    intro hmem
    obtain ⟨⟨p', l⟩, hl, rfl⟩ := List.mem_map.1 hmem
    exact hcov (Import.mem_coords_iff.1 ⟨l, hl⟩)

theorem count_readers (imports : List (List Import)) (p : ℕ) :
    (imports.flatten.flatMap fun im => im.coords.map Prod.fst).count p = readerCount imports p := by
  unfold readerCount
  induction imports.flatten with
  | nil => rfl
  | cons im ims ih =>
    rw [List.flatMap_cons, List.count_append, ih, count_coords, List.filter_cons]
    split <;> simp [Nat.add_comm]

/-! ## The plan -/

/-- Every import lies inside the parent. -/
def ImportsFit (imports : List (List Import)) (parentSize : ℕ) : Prop :=
  ∀ child ∈ imports, ∀ im ∈ child, im.len = 0 ∨ im.parent + im.len ≤ parentSize

/-- The plan visits every coordinate of every import once, child by child in import order, and its
pieces tell the coordinates that one import reads from the others. -/
structure PlanExact (imports plan : List (List Import)) : Prop where
  visits : plan.map (fun child => child.flatMap Import.coords) =
    imports.map fun child => child.flatMap Import.coords
  exclusive : ∀ child ∈ plan, ∀ piece ∈ child, ∀ p, piece.covers p = true →
    (piece.exclusive = true ↔ readerCount imports p = 1)

theorem importsFit_iff {imports : List (List Import)} {parentSize : ℕ} :
    (∀ p ∈ imports.flatten.flatMap fun im => im.coords.map Prod.fst, p < parentSize) ↔
      ImportsFit imports parentSize := by
  constructor
  · intro h child hchild im him
    by_cases hlen : im.len = 0
    · exact .inl hlen
    · right
      have hlast := h (im.parent + (im.len - 1)) (List.mem_flatMap.2
        ⟨im, List.mem_flatten.2 ⟨child, hchild, him⟩, List.mem_map.2
          ⟨_, List.mem_map.2 ⟨im.len - 1, List.mem_range.2 (by omega), rfl⟩, rfl⟩⟩)
      omega
  · intro h p hp
    obtain ⟨im, him, hp⟩ := List.mem_flatMap.1 hp
    obtain ⟨child, hchild, him⟩ := List.mem_flatten.1 him
    obtain ⟨⟨q, l⟩, hl, rfl⟩ := List.mem_map.1 hp
    have hcov := Import.mem_coords_iff.1 ⟨l, hl⟩
    simp only [Import.covers, Bool.and_eq_true, decide_eq_true_iff] at hcov
    rcases h child hchild im him with h0 | hle <;> dsimp only <;> omega

/-- `scatter_plan` throws when an import leaves the parent, and otherwise returns an exact plan. -/
theorem scatterPlan_spec (imports : List (List Import)) (parentSize : ℕ) :
    (ImportsFit imports parentSize → ∃ plan, scatterPlan imports parentSize = some plan) ∧
      ∀ plan, scatterPlan imports parentSize = some plan →
        ImportsFit imports parentSize ∧ PlanExact imports plan := by
  have hlen : (List.replicate parentSize 0).length = parentSize := List.length_replicate
  have hinside : ImportsFit imports parentSize →
      ∀ p ∈ imports.flatten.flatMap fun im => im.coords.map Prod.fst,
        p < (List.replicate parentSize 0).length := by
    intro hfit p hp
    rw [hlen]
    exact importsFit_iff.2 hfit p hp
  constructor
  · intro hfit
    obtain ⟨counted, hcounted, -⟩ := foldlM_addReader (hinside hfit)
    exact ⟨_, by rw [scatterPlan, countReaders, hcounted]; rfl⟩
  · intro plan hplan
    rw [scatterPlan, Option.map_eq_some_iff] at hplan
    obtain ⟨counted, hcounted, rfl⟩ := hplan
    have hfit : ImportsFit imports parentSize :=
      importsFit_iff.1 fun p hp => hlen ▸ lt_length_of_foldlM_addReader hcounted p hp
    obtain ⟨counted', hcounted', -, hcount⟩ := foldlM_addReader (hinside hfit)
    rw [countReaders, hcounted'] at hcounted
    obtain rfl := Option.some.inj hcounted
    refine ⟨hfit, ?_, ?_⟩
    · rw [List.map_map]
      apply List.map_congr_left
      intro child _
      rw [Function.comp_apply, List.flatMap_assoc]
      apply List.flatMap_congr
      intro im _
      rw [flatMap_coords_pieces _ _ (Nat.sub_le _ _), List.drop_zero]
    · intro child hchild piece hpiece p hcov
      obtain ⟨old, hold, rfl⟩ := List.mem_map.1 hchild
      obtain ⟨im, him, hpiece⟩ := List.mem_flatMap.1 hpiece
      obtain ⟨l, hl⟩ := Import.mem_coords_iff.2 hcov
      rw [← mark_of_mem_pieces hpiece hl, beq_iff_eq]
      have hp : p < parentSize := by
        have hmem : (p, l) ∈ im.coords := by
          rw [← List.drop_zero (l := im.coords),
            ← flatMap_coords_pieces (fun p => counted'.getD p 0 == 1) im (Nat.sub_le _ 0)]
          exact List.mem_flatMap.2 ⟨piece, hpiece, hl⟩
        exact importsFit_iff.2 hfit p (List.mem_flatMap.2
          ⟨im, List.mem_flatten.2 ⟨old, hold, him⟩, List.mem_map.2 ⟨_, hmem, rfl⟩⟩)
      rw [hcount p (hlen.symm ▸ hp), count_readers]
      simp [hp]

end Stanli
