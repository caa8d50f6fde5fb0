import Stanli.InputRanges.CompactReverse
import Stanli.InputRanges.ScatterPlan

/-!
# Binding a compacted graph to its parent

The parameter slots of a graph hold its parameter vector, one after the other.  A compacted graph is
bound to the coordinates its imports name (`importedParams`), its other slots to the cells behind
their offsets, and its adjoints go back the same way (`scatterBack`).
-/

namespace Stanli

variable {U V S W : Type*}

/-! ## Parameter vectors -/

/-- The number of parameters of a list of slots. -/
def paramSize : List Slot → ℕ
  | [] => 0
  | slot :: slots => (if slot.isParam then slot.len else 0) + paramSize slots

/-- Where a slot stands in the parameter vector. -/
def Graph.paramOffset (g : Graph U) (s : ℕ) : ℕ := paramSize (g.slots.take s)

/-- The cells of the parameter slots from slot `s` on, one after the other. -/
def packFrom (adj : Arena V) : ℕ → List Slot → List V
  | _, [] => []
  | s, slot :: slots =>
    (if slot.isParam then (List.range slot.len).map (adj s) else []) ++ packFrom adj (s + 1) slots

/-- The adjoints of the parameter vector. -/
def Graph.packed (g : Graph U) (adj : Arena V) : List V := packFrom adj 0 g.slots

theorem packFrom_congr {a a' : Arena V} {s : ℕ} {slots : List Slot}
    (ha : ∀ k slot, slots[k]? = some slot → ∀ e < slot.len, a (s + k) e = a' (s + k) e) :
    packFrom a s slots = packFrom a' s slots := by
  induction slots generalizing s with
  | nil => rfl
  | cons slot slots ih =>
    rw [packFrom, packFrom, ih fun k slot' hk e he => by
      have hcell := ha (k + 1) slot' hk e he
      rwa [show s + (k + 1) = s + 1 + k by omega] at hcell]
    congr 2
    exact List.map_congr_left fun e he => ha 0 slot rfl e (List.mem_range.1 he)

variable [AddCommMonoid V]

/-- The arena a callback graph starts from: the parameter slots hold the parameter vector, the others
their fills, and what is bound to them where they have none. -/
def Graph.childArena (g : Graph U) (fills : Fills V) (θ : List V) (data : Arena V) : Arena V :=
  fun s e => if g.isParam s = true then θ.getD (g.paramOffset s + e) 0 else fills.apply data s e

/-- The coordinates of the parent's parameter vector that the imports name. -/
def importedParams (imports : List Import) (θ : List V) : List V :=
  imports.flatMap fun im => (List.range im.len).map fun j => θ.getD (im.parent + j) 0

/-- The cells of the data slots that the offsets name. -/
def importedData (offsets : List ℕ) (data : Arena V) : Arena V :=
  fun s e => data s (offsets.getD s 0 + e)

/-- One import of the scatter. -/
def scatterImport (adj : List V) (out : ℕ → V) (im : Import) : ℕ → V := fun i =>
  if im.covers i = true then out i + adj.getD (im.localStart + (i - im.parent)) 0 else out i

/-- The adjoints of a child's parameter vector, added to the parent's through the imports. -/
def scatterBack (imports : List Import) (adj : List V) : ℕ → V :=
  imports.foldl (scatterImport adj) fun _ => 0

/-! ## Slots cut to their hulls -/

section Cut

variable {h : Hull} {slots : List Slot} {s parent start : ℕ}

/-- The slots from slot `s` on, cut to their hulls. -/
def cutSlots (h : Hull) (s : ℕ) (slots : List Slot) : List Slot :=
  (slots.zipIdx s).map fun p => { p.1 with len := h.len p.2 }

@[simp] lemma cutSlots_cons (slot : Slot) :
    cutSlots h s (slot :: slots) = { slot with len := h.len s } :: cutSlots h (s + 1) slots := by
  rw [cutSlots, List.zipIdx_cons]
  rfl

/-- The hulls lie inside the slots. -/
def HullsFit (h : Hull) (s : ℕ) (slots : List Slot) : Prop :=
  ∀ k slot, slots[k]? = some slot → h.lo (s + k) ≤ h.hi (s + k) ∧ h.hi (s + k) ≤ slot.len

lemma HullsFit.head {slot : Slot} (hfit : HullsFit h s (slot :: slots)) :
    h.lo s ≤ h.hi s ∧ h.hi s ≤ slot.len := hfit 0 slot rfl

lemma HullsFit.tail {slot : Slot} (hfit : HullsFit h s (slot :: slots)) :
    HullsFit h (s + 1) slots := by
  intro k slot' hk
  have hcons := hfit (k + 1) slot' hk
  rwa [show s + (k + 1) = s + 1 + k by omega] at hcons

/-- The imports of a parameter slot. -/
lemma importsFrom_param {slot : Slot} (hparam : slot.isParam = true) :
    Graph.importsFrom h s parent start (slot :: slots) =
      (if h.len s = 0 then [] else [⟨parent + h.lo s, start, h.len s, false⟩]) ++
        Graph.importsFrom h (s + 1) (parent + slot.len) (start + h.len s) slots := by
  rw [Graph.importsFrom, if_pos hparam]

lemma importsFrom_data {slot : Slot} (hdata : slot.isParam = false) :
    Graph.importsFrom h s parent start (slot :: slots) =
      Graph.importsFrom h (s + 1) parent start slots := by
  rw [Graph.importsFrom, if_neg (by simp [hdata])]

/-- The block of imported parameters of one slot. -/
lemma importedParams_block (θ : List V) :
    importedParams (if h.len s = 0 then [] else [⟨parent + h.lo s, start, h.len s, false⟩]) θ =
      (List.range (h.len s)).map fun j => θ.getD (parent + h.lo s + j) 0 := by
  split
  · rename_i h0
    rw [h0]
    rfl
  · simp [importedParams]

/-- A cell of a parameter slot is the parameter it was cut out of. -/
theorem getD_importedParams (θ : List V) {k : ℕ} {slot : Slot} (hk : slots[k]? = some slot)
    (hparam : slot.isParam = true) {e : ℕ} (he : e < h.len (s + k)) :
    (importedParams (Graph.importsFrom h s parent start slots) θ).getD
        (paramSize ((cutSlots h s slots).take k) + e) 0 =
      θ.getD (parent + paramSize (slots.take k) + h.lo (s + k) + e) 0 := by
  induction slots generalizing s parent start k with
  | nil => simp at hk
  | cons slot' slots ih =>
    have happend : ∀ (ims ims' : List Import), importedParams (ims ++ ims') θ =
        importedParams ims θ ++ importedParams ims' θ := fun ims ims' => List.flatMap_append
    cases hp : slot'.isParam with
    | true =>
      rw [importsFrom_param hp, happend, importedParams_block]
      cases k with
      | zero =>
        rw [Nat.add_zero] at he ⊢
        rw [List.getD_append _ _ _ _ (by simpa [paramSize] using he)]
        simp [paramSize, he]
      | succ k =>
        rw [cutSlots_cons, List.take_succ_cons, List.take_succ_cons, paramSize, paramSize,
          if_pos hp, if_pos hp, List.getD_append_right _ _ _ _ (by simp; omega)]
        have htail := @ih (s + 1) (parent + slot'.len) (start + h.len s) k (by simpa using hk)
          (by rwa [show s + 1 + k = s + (k + 1) by omega])
        rw [show s + 1 + k = s + (k + 1) by omega] at htail
        simp only [List.length_map, List.length_range]
        rw [show h.len s + paramSize ((cutSlots h (s + 1) slots).take k) + e - h.len s =
          paramSize ((cutSlots h (s + 1) slots).take k) + e by omega, htail]
        congr 1
        omega
    | false =>
      rw [importsFrom_data hp]
      cases k with
      | zero =>
        obtain rfl : slot' = slot := by simpa using hk
        rw [hp] at hparam
        cases hparam
      | succ k =>
        rw [cutSlots_cons, List.take_succ_cons, List.take_succ_cons, paramSize, paramSize,
          if_neg (by simp [hp]), if_neg (by simp [hp]), Nat.zero_add, Nat.zero_add]
        have htail := @ih (s + 1) parent start k (by simpa using hk)
          (by rwa [show s + 1 + k = s + (k + 1) by omega])
        rw [show s + 1 + k = s + (k + 1) by omega] at htail
        exact htail

/-- What a scatter hands to a cell of a slot: the adjoint of the cell it was cut to. -/
def spread (h : Hull) (adj : Arena V) : Arena V := fun s e =>
  if h.lo s ≤ e ∧ e < h.hi s then adj s (e - h.lo s) else 0

/-- What the imports of a list of slots add to the parent. -/
theorem foldl_scatterImport (adj : Arena V) {packed : List V}
    (hpacked : packed.drop start = packFrom adj s (cutSlots h s slots))
    (hfit : HullsFit h s slots) (out : ℕ → V) (i : ℕ) :
    (Graph.importsFrom h s parent start slots).foldl (scatterImport packed) out i =
      out i + if parent ≤ i then (packFrom (spread h adj) s slots).getD (i - parent) 0 else 0 := by
  induction slots generalizing s parent start out with
  | nil => simp [Graph.importsFrom, packFrom]
  | cons slot slots ih =>
    rw [cutSlots_cons, packFrom] at hpacked
    cases hp : slot.isParam with
    | true =>
      obtain ⟨hle, hub⟩ := hfit.head
      rw [if_pos (by exact hp)] at hpacked
      have hdrop : packed.drop (start + h.len s) = packFrom adj (s + 1) (cutSlots h (s + 1) slots) := by
        rw [← List.drop_drop, hpacked]
        exact List.drop_left' (by simp)
      have hcell : ∀ j < h.len s, packed.getD (start + j) 0 = adj s j := by
        intro j hj
        have hget : (packed.drop start).getD j 0 = packed.getD (start + j) 0 := by
          simp [List.getD_eq_getElem?_getD]
        rw [← hget, hpacked, List.getD_append _ _ _ _ (by simpa using hj)]
        simp [hj]
      rw [importsFrom_param hp, List.foldl_append, ih hdrop hfit.tail, packFrom, if_pos hp]
      have hhead : (if h.len s = 0 then [] else
            [(⟨parent + h.lo s, start, h.len s, false⟩ : Import)]).foldl (scatterImport packed) out i =
          out i + if parent ≤ i ∧ i < parent + slot.len then spread h adj s (i - parent) else 0 := by
        have hspread : ∀ e, spread h adj s e = if h.lo s ≤ e ∧ e < h.hi s then
            packed.getD (start + (e - h.lo s)) 0 else 0 := by
          intro e
          unfold spread
          by_cases hin : h.lo s ≤ e ∧ e < h.hi s
          · rw [if_pos hin, if_pos hin, hcell _ (by unfold Hull.len; omega)]
          · rw [if_neg hin, if_neg hin]
        rw [hspread]
        by_cases h0 : h.len s = 0
        · unfold Hull.len at h0
          simp [Hull.len, h0, show ¬ (h.lo s ≤ i - parent ∧ i - parent < h.hi s) by omega]
        · rw [if_neg h0]
          change scatterImport packed out ⟨parent + h.lo s, start, h.len s, false⟩ i = _
          have hsum : h.lo s + h.len s = h.hi s := by
            unfold Hull.len
            omega
          have hcov : Import.covers ⟨parent + h.lo s, start, h.len s, false⟩ i = true ↔
              parent + h.lo s ≤ i ∧ i < parent + h.hi s := by
            simp only [Import.covers, Bool.and_eq_true, decide_eq_true_iff]
            omega
          unfold scatterImport
          by_cases hin : parent + h.lo s ≤ i ∧ i < parent + h.hi s
          · rw [if_pos (hcov.2 hin), if_pos (by omega), if_pos (by omega)]
            dsimp only
            rw [show i - (parent + h.lo s) = i - parent - h.lo s by omega]
          · rw [if_neg fun hx => hin (hcov.1 hx)]
            by_cases hslot : parent ≤ i ∧ i < parent + slot.len
            · rw [if_pos hslot, if_neg (by omega), add_zero]
            · rw [if_neg hslot, add_zero]
      rw [hhead, add_assoc]
      congr 1
      by_cases hlow : parent ≤ i
      · rw [if_pos hlow]
        by_cases hslot : i < parent + slot.len
        · rw [if_pos ⟨hlow, hslot⟩, if_neg (by omega), add_zero,
            List.getD_append _ _ _ _ (by simp; omega)]
          simp [show i - parent < slot.len by omega]
        · rw [if_neg fun hx => hslot hx.2, if_pos (by omega), zero_add,
            List.getD_append_right _ _ _ _ (by simp; omega)]
          simp only [List.length_map, List.length_range]
          rw [show i - (parent + slot.len) = i - parent - slot.len by omega]
      · rw [if_neg hlow, if_neg fun hx => hlow hx.1, if_neg (by omega), add_zero]
    | false =>
      rw [if_neg (by exact Bool.eq_false_iff.1 hp), List.nil_append] at hpacked
      rw [importsFrom_data hp, ih hpacked hfit.tail, packFrom, if_neg (Bool.eq_false_iff.1 hp),
        List.nil_append]

end Cut

end Stanli
