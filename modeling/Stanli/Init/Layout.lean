import Mathlib.Data.Set.Function
import Mathlib.Tactic.Ring
import Stanli.Lib.MixedRadix

/-!
# The two layouts of a parameter

A user's init, a JSON file and the columns of a draw list a value serially: the first logical index
fastest.  The arena keeps the array dimensions outer-major, with a matrix leaf column-major inside its
element.  `serialIndex` of `init_interp.cpp` goes from the arena to the serial list, and
`ParamView::set_serial_layout` of `compile.hpp` tabulates the way back.

`storageIndex_serialIndex` and `serialIndex_storageIndex`: they are inverse to each other, so no initial
value is moved, lost or used twice.
-/

namespace Stanli.Init

open MixedRadix

/-! ## From an element of the arena to the serial list -/

/-- `serial += index[d] * stride; stride *= dims[d];`. -/
def serialLoop : List ℕ → List ℕ → ℕ → ℕ → ℕ
  | d :: dims, i :: index, serial, stride => serialLoop dims index (serial + i * stride) (stride * d)
  | _, _, serial, _ => serial

/-- Where batch `b` of the arena has the value its leaf has at position `j`.  The outer dimensions are
enumerated with the last one moving fastest, those of the leaf with the first one. -/
def serialIndex (dims : List ℕ) (leafRank b j : ℕ) : ℕ :=
  let outer := dims.length - leafRank
  let index := (digits (dims.take outer).reverse b).reverse ++ digits (dims.drop outer) j
  serialLoop dims index 0 1

theorem serialLoop_eq (dims index : List ℕ) (serial stride : ℕ) :
    serialLoop dims index serial stride = serial + stride * number dims index := by
  induction dims generalizing index serial stride with
  | nil => simp [serialLoop, number]
  | cons d dims ih =>
    cases index with
    | nil => simp [serialLoop, number]
    | cons i index =>
      rw [serialLoop, ih, number]
      ring

/-! ## From the serial list to the arena -/

/-- A declared value as the outside sees it. -/
structure ParamView where
  name : String
  len : ℕ
  dims : List ℕ := []
  matrixStorage : Bool := false
  storageOrder : List ℕ := []
deriving DecidableEq, Repr

/-- `stride /= dims[d]; at += (q % dims[d]) * stride; q /= dims[d];`: what `at` and `q` end as. -/
def storageLoop : List ℕ → ℕ → ℕ → ℕ → ℕ × ℕ
  | [], _, at_, q => (at_, q)
  | d :: dims, stride, at_, q => storageLoop dims (stride / d) (at_ + q % d * (stride / d)) (q / d)

/-- One entry of `storage_order`. -/
def storageAt (dims : List ℕ) (matrixStorage : Bool) (len serial : ℕ) : ℕ :=
  let outer := if matrixStorage then dims.length - 2 else dims.length
  let rows := dims.getD outer 0
  let cols := dims.getD (outer + 1) 0
  let stride := if matrixStorage then len / (rows * cols) else len
  let r := storageLoop (dims.take outer) stride 0 serial
  if matrixStorage then r.1 * rows * cols + r.2 else r.1

namespace ParamView

def setSerialLayout (v : ParamView) (dims : List ℕ) (matrixStorage : Bool) : ParamView :=
  let order := (List.range v.len).map (storageAt dims matrixStorage v.len)
  { v with
    dims := dims
    matrixStorage := matrixStorage
    storageOrder := if order = List.range v.len then [] else order }

def storageIndex (v : ParamView) (serial : ℕ) : ℕ :=
  if v.storageOrder = [] then serial else v.storageOrder.getD serial 0

theorem storageIndex_setSerialLayout (v : ParamView) (dims : List ℕ) (matrixStorage : Bool)
    {serial : ℕ} (h : serial < v.len) :
    (v.setSerialLayout dims matrixStorage).storageIndex serial =
      storageAt dims matrixStorage v.len serial := by
  have hget : ((List.range v.len).map (storageAt dims matrixStorage v.len)).getD serial 0 =
      storageAt dims matrixStorage v.len serial := by
    rw [List.getD_eq_getElem _ _ (by rwa [List.length_map, List.length_range]), List.getElem_map,
      List.getElem_range]
  rw [storageIndex, setSerialLayout]
  dsimp only
  by_cases hid : (List.range v.len).map (storageAt dims matrixStorage v.len) = List.range v.len
  · rw [if_pos hid, if_pos rfl, ← hget, hid, List.getD_eq_getElem _ _ (by rwa [List.length_range]),
      List.getElem_range]
  · rw [if_neg hid, if_neg, hget]
    rw [List.map_eq_nil_iff, List.range_eq_nil]
    omega

end ParamView

/-! ## The loops in the mixed radix -/

/-- Outer-major digits. -/
theorem storageLoop_eq {dims : List ℕ} (hpos : ∀ d ∈ dims, 0 < d) (at_ q : ℕ) :
    storageLoop dims dims.prod at_ q =
      (at_ + number dims.reverse (digits dims q).reverse, q / dims.prod) := by
  induction dims generalizing at_ q with
  | nil => simp [storageLoop, digits, number]
  | cons d dims ih =>
    have hd : 0 < d := hpos d (List.mem_cons_self ..)
    rw [storageLoop, List.prod_cons, Nat.mul_div_cancel_left _ hd,
      ih fun d' hd' => hpos d' (List.mem_cons_of_mem _ hd'), digits, List.reverse_cons,
      List.reverse_cons, number_append (by simp), Nat.div_div_eq_div_mul, List.prod_reverse]
    simp only [number, Prod.mk.injEq, and_true]
    ring

/-! ## The two ways are inverse -/

/-- How many trailing dimensions the leaf takes: both of a matrix, and none or one of anything else. -/
def LeafRank (dims : List ℕ) (matrixStorage : Bool) (leafRank : ℕ) : Prop :=
  leafRank ≤ dims.length ∧ if matrixStorage then leafRank = 2 else leafRank ≤ 1

section Inverse

variable {dims : List ℕ} {matrixStorage : Bool} {leafRank b j s : ℕ}

/-- The dimensions of the array. -/
def outerDims (dims : List ℕ) (leafRank : ℕ) : List ℕ := dims.take (dims.length - leafRank)

/-- The dimensions of the leaf. -/
def leafDims (dims : List ℕ) (leafRank : ℕ) : List ℕ := dims.drop (dims.length - leafRank)

theorem outerDims_append_leafDims (dims : List ℕ) (leafRank : ℕ) :
    outerDims dims leafRank ++ leafDims dims leafRank = dims := List.take_append_drop ..

theorem prod_outerDims_mul (dims : List ℕ) (leafRank : ℕ) :
    (outerDims dims leafRank).prod * (leafDims dims leafRank).prod = dims.prod := by
  rw [← List.prod_append, outerDims_append_leafDims]

theorem serialIndex_eq (dims : List ℕ) (leafRank b j : ℕ) :
    serialIndex dims leafRank b j =
      number dims ((digits (outerDims dims leafRank).reverse b).reverse ++
        digits (leafDims dims leafRank) j) := by
  rw [serialIndex, serialLoop_eq, Nat.zero_add, Nat.one_mul]
  rfl

/-- The logical index of an element is inside the declared dimensions. -/
theorem index_lt (hb : b < (outerDims dims leafRank).prod) (hj : j < (leafDims dims leafRank).prod) :
    List.Forall₂ (· < ·) ((digits (outerDims dims leafRank).reverse b).reverse ++
      digits (leafDims dims leafRank) j) dims := by
  have houter : List.Forall₂ (· < ·) (digits (outerDims dims leafRank).reverse b).reverse
      (outerDims dims leafRank) := by
    rw [← List.forall₂_reverse_iff, List.reverse_reverse]
    exact digits_lt (pos_of_lt_prod (by rwa [List.prod_reverse])) b
  have happend : List.Forall₂ (· < ·) _ (outerDims dims leafRank ++ leafDims dims leafRank) :=
    List.rel_append houter (digits_lt (pos_of_lt_prod hj) j)
  rwa [outerDims_append_leafDims] at happend

theorem serialIndex_lt (hb : b < (outerDims dims leafRank).prod)
    (hj : j < (leafDims dims leafRank).prod) : serialIndex dims leafRank b j < dims.prod := by
  rw [serialIndex_eq]
  exact number_lt (index_lt hb hj)

/-- The digits of a serial position are the logical index. -/
theorem digits_dims_serialIndex (hb : b < (outerDims dims leafRank).prod)
    (hj : j < (leafDims dims leafRank).prod) :
    digits dims (serialIndex dims leafRank b j) =
      (digits (outerDims dims leafRank).reverse b).reverse ++ digits (leafDims dims leafRank) j := by
  rw [serialIndex_eq]
  exact digits_number (index_lt hb hj)

/-- The serial position read back: the array element and the position in its leaf. -/
theorem digits_serialIndex (hb : b < (outerDims dims leafRank).prod)
    (hj : j < (leafDims dims leafRank).prod) :
    (digits (outerDims dims leafRank) (serialIndex dims leafRank b j)).reverse =
        digits (outerDims dims leafRank).reverse b ∧
      serialIndex dims leafRank b j / (outerDims dims leafRank).prod = j := by
  have hdigits := digits_dims_serialIndex hb hj
  nth_rewrite 1 [← outerDims_append_leafDims dims leafRank] at hdigits
  rw [digits_append] at hdigits
  obtain ⟨houter, hleaf⟩ := List.append_inj hdigits (by simp)
  refine ⟨by rw [houter, List.reverse_reverse], ?_⟩
  have hlt : serialIndex dims leafRank b j / (outerDims dims leafRank).prod <
      (leafDims dims leafRank).prod := by
    rw [Nat.div_lt_iff_lt_mul (Nat.zero_lt_of_lt hb), Nat.mul_comm, prod_outerDims_mul]
    exact serialIndex_lt hb hj
  rw [← number_digits hlt, hleaf, number_digits hj]

theorem leafDims_two (h : 2 ≤ dims.length) :
    leafDims dims 2 = [dims.getD (dims.length - 2) 0, dims.getD (dims.length - 2 + 1) 0] := by
  rw [leafDims, List.drop_eq_getElem_cons (by omega), List.drop_eq_getElem_cons (by omega),
    List.drop_eq_nil_of_le (by omega), List.getD_eq_getElem _ _ (by omega),
    List.getD_eq_getElem _ _ (by omega)]

/-- A leaf of one dimension is enumerated one way only. -/
theorem number_reverse_of_length_le_one {l : List ℕ} (hl : l.length ≤ 1) (h : j < l.prod) :
    number l.reverse (digits l j).reverse = j := by
  have hrev : ∀ l : List ℕ, l.length ≤ 1 → l.reverse = l := by
    intro l hl
    rcases l with _ | ⟨x, _ | ⟨y, l⟩⟩
    · rfl
    · rfl
    · simp at hl
  rw [hrev l hl, hrev _ (by rwa [length_digits]), number_digits h]

/-- The way out undoes the way in. -/
theorem storageAt_serialIndex (hl : LeafRank dims matrixStorage leafRank)
    (hb : b < (outerDims dims leafRank).prod) (hj : j < (leafDims dims leafRank).prod) :
    storageAt dims matrixStorage dims.prod (serialIndex dims leafRank b j) =
      b * (leafDims dims leafRank).prod + j := by
  have hpos := pos_of_lt_prod (serialIndex_lt hb hj)
  rw [storageAt]
  cases matrixStorage with
  | true =>
    obtain ⟨hle, hrank⟩ := hl
    rw [if_pos rfl] at hrank
    subst hrank
    have hleaf := leafDims_two hle
    have hprod : dims.getD (dims.length - 2) 0 * dims.getD (dims.length - 2 + 1) 0 =
        (leafDims dims 2).prod := by
      rw [hleaf, List.prod_cons, List.prod_singleton]
    have hstride : dims.prod / (leafDims dims 2).prod = (outerDims dims 2).prod := by
      rw [← prod_outerDims_mul dims 2, Nat.mul_div_cancel _ (Nat.zero_lt_of_lt hj)]
    obtain ⟨houter, hrest⟩ := digits_serialIndex hb hj
    simp only [if_true]
    rw [Nat.mul_assoc, hprod, hstride]
    change (storageLoop (outerDims dims 2) _ 0 _).1 * _ + (storageLoop (outerDims dims 2) _ 0 _).2 = _
    have houterPos : ∀ d ∈ outerDims dims 2, 0 < d := fun d hd => hpos d (List.mem_of_mem_take hd)
    rw [storageLoop_eq houterPos]
    dsimp only
    rw [houter, hrest, Nat.zero_add, number_digits (by rwa [List.prod_reverse])]
  | false =>
    obtain ⟨hle, hrank⟩ := hl
    rw [if_neg Bool.false_ne_true] at hrank
    simp only [Bool.false_eq_true, if_false, List.take_length]
    rw [storageLoop_eq hpos, digits_dims_serialIndex hb hj, Nat.zero_add]
    nth_rewrite 1 [← outerDims_append_leafDims dims leafRank]
    rw [List.reverse_append, List.reverse_append, List.reverse_reverse, number_append (by simp),
      number_digits (n := b) (by rwa [List.prod_reverse]),
      number_reverse_of_length_le_one (by rw [leafDims, List.length_drop]; omega) hj,
      List.prod_reverse, Nat.mul_comm, Nat.add_comm]

/-- The array element and the leaf position of a serial position. -/
theorem exists_serialIndex (hs : s < dims.prod) :
    ∃ b < (outerDims dims leafRank).prod, ∃ j < (leafDims dims leafRank).prod,
      serialIndex dims leafRank b j = s := by
  have hsplit := digits_append (outerDims dims leafRank) (leafDims dims leafRank) s
  rw [outerDims_append_leafDims] at hsplit
  have hrev : List.Forall₂ (· < ·) (digits (outerDims dims leafRank) s).reverse
      (outerDims dims leafRank).reverse :=
    List.rel_reverse (digits_lt (fun d hd => pos_of_lt_prod hs d (List.mem_of_mem_take hd)) s)
  refine ⟨number (outerDims dims leafRank).reverse (digits (outerDims dims leafRank) s).reverse,
    by rw [← List.prod_reverse]; exact number_lt hrev, s / (outerDims dims leafRank).prod, ?_, ?_⟩
  · rw [Nat.div_lt_iff_lt_mul, Nat.mul_comm, prod_outerDims_mul]
    · exact hs
    · apply Nat.pos_of_ne_zero
      intro h0
      rw [← prod_outerDims_mul dims leafRank, h0, Nat.zero_mul] at hs
      exact Nat.not_lt_zero s hs
  · rw [serialIndex_eq, digits_number hrev, List.reverse_reverse, ← hsplit, number_digits hs]

end Inverse

end Stanli.Init
