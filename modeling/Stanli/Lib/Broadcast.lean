import Mathlib.Algebra.BigOperators.Field
import Mathlib.Algebra.BigOperators.Group.Finset.Piecewise
import Mathlib.Algebra.CharZero.Defs
import Mathlib.Data.Nat.Cast.Defs
import Mathlib.Tactic.Common

/-!
# Broadcast arithmetic

A view is one number for all positions, or an array with one number for each (`View`).  Arithmetic
combines views coefficient by coefficient, a scalar standing for every position.

A sum over `N` positions is read off the sum of a view in two ways: a view that has an entry for every
position is summed as it is (`sum_of_covers`), and any other one is scaled by the number of positions
over its size (`sum_scaled`).  An argument that is shared collects what its positions contribute
(`View.collect`).
-/

namespace Broadcast

open Finset

variable {α β γ : Type*}

/-- A value that stands for every position, or an array. -/
inductive View (α : Type*)
  | scalar (x : α)
  | array (n : ℕ) (f : ℕ → α)

namespace View

def isScalar : View α → Bool
  | scalar _ => true
  | array _ _ => false

def size : View α → ℕ
  | scalar _ => 1
  | array n _ => n

/-- The entry at a position. -/
def entry : View α → ℕ → α
  | scalar x, _ => x
  | array _ f, i => f i

/-- The place of a position's entry. -/
def slot (v : View α) (i : ℕ) : ℕ := if v.isScalar then 0 else i

def map (f : α → β) : View α → View β
  | scalar x => scalar (f x)
  | array n g => array n fun i => f (g i)

def zipWith (f : α → β → γ) : View α → View β → View γ
  | scalar x, scalar y => scalar (f x y)
  | scalar x, array n h => array n fun i => f x (h i)
  | array n g, scalar y => array n fun i => f (g i) y
  | array n g, array _ h => array n fun i => f (g i) (h i)

/-- Whether every entry passes a test. -/
def all (p : α → Bool) : View α → Bool
  | scalar x => p x
  | array n f => (List.range n).all fun i => p (f i)

/-- The sum of the entries. -/
def sum [AddCommMonoid α] : View α → α
  | scalar x => x
  | array n f => ∑ i ∈ range n, f i

instance [Neg α] : Neg (View α) := ⟨map fun x => -x⟩
instance [Inv α] : Inv (View α) := ⟨map fun x => x⁻¹⟩
instance [Add α] : Add (View α) := ⟨zipWith fun x y => x + y⟩
instance [Sub α] : Sub (View α) := ⟨zipWith fun x y => x - y⟩
instance [Mul α] : Mul (View α) := ⟨zipWith fun x y => x * y⟩
instance [Div α] : Div (View α) := ⟨zipWith fun x y => x / y⟩

/-! ## Entries -/

@[simp] lemma entry_scalar (x : α) (i : ℕ) : (scalar x).entry i = x := rfl

@[simp] lemma entry_map (f : α → β) (v : View α) (i : ℕ) : (v.map f).entry i = f (v.entry i) := by
  cases v <;> rfl

@[simp] lemma entry_zipWith (f : α → β → γ) (u : View α) (v : View β) (i : ℕ) :
    (zipWith f u v).entry i = f (u.entry i) (v.entry i) := by
  cases u <;> cases v <;> rfl

@[simp] lemma entry_neg [Neg α] (v : View α) (i : ℕ) : (-v).entry i = -v.entry i := entry_map ..

@[simp] lemma entry_inv [Inv α] (v : View α) (i : ℕ) : (v⁻¹).entry i = (v.entry i)⁻¹ := entry_map ..

@[simp] lemma entry_add [Add α] (u v : View α) (i : ℕ) : (u + v).entry i = u.entry i + v.entry i :=
  entry_zipWith ..

@[simp] lemma entry_sub [Sub α] (u v : View α) (i : ℕ) : (u - v).entry i = u.entry i - v.entry i :=
  entry_zipWith ..

@[simp] lemma entry_mul [Mul α] (u v : View α) (i : ℕ) : (u * v).entry i = u.entry i * v.entry i :=
  entry_zipWith ..

@[simp] lemma entry_div [Div α] (u v : View α) (i : ℕ) : (u / v).entry i = u.entry i / v.entry i :=
  entry_zipWith ..

/-! ## Scalars -/

@[simp] lemma isScalar_scalar (x : α) : (scalar x).isScalar = true := rfl

@[simp] lemma isScalar_map (f : α → β) (v : View α) : (v.map f).isScalar = v.isScalar := by
  cases v <;> rfl

@[simp] lemma isScalar_zipWith (f : α → β → γ) (u : View α) (v : View β) :
    (zipWith f u v).isScalar = (u.isScalar && v.isScalar) := by
  cases u <;> cases v <;> rfl

@[simp] lemma isScalar_neg [Neg α] (v : View α) : (-v).isScalar = v.isScalar := isScalar_map ..

@[simp] lemma isScalar_inv [Inv α] (v : View α) : (v⁻¹).isScalar = v.isScalar := isScalar_map ..

@[simp] lemma isScalar_add [Add α] (u v : View α) : (u + v).isScalar = (u.isScalar && v.isScalar) :=
  isScalar_zipWith ..

@[simp] lemma isScalar_sub [Sub α] (u v : View α) : (u - v).isScalar = (u.isScalar && v.isScalar) :=
  isScalar_zipWith ..

@[simp] lemma isScalar_mul [Mul α] (u v : View α) : (u * v).isScalar = (u.isScalar && v.isScalar) :=
  isScalar_zipWith ..

@[simp] lemma isScalar_div [Div α] (u v : View α) : (u / v).isScalar = (u.isScalar && v.isScalar) :=
  isScalar_zipWith ..

lemma size_of_isScalar {v : View α} (h : v.isScalar = true) : v.size = 1 := by
  cases v with
  | scalar x => rfl
  | array n f => cases h

/-- Every entry passes: the one of a scalar, or each of an array's. -/
lemma all_eq_true {p : α → Bool} {v : View α} : v.all p = true ↔ ∀ i < v.size, p (v.entry i) = true := by
  cases v with
  | scalar x =>
    refine ⟨fun h _ _ => h, fun h => h 0 Nat.zero_lt_one⟩
  | array n f => simp [all, size, entry]

/-! ## Views over a number of positions -/

/-- An array has one entry for each of the `N` positions. -/
def Conforms (N : ℕ) : View α → Prop
  | scalar _ => True
  | array n _ => n = N

variable {N : ℕ}

lemma conforms_scalar (x : α) : (scalar x).Conforms N := trivial

lemma conforms_map {f : α → β} {v : View α} : (v.map f).Conforms N ↔ v.Conforms N := by
  cases v <;> rfl

lemma Conforms.zipWith {f : α → β → γ} {u : View α} {v : View β} (hu : u.Conforms N)
    (hv : v.Conforms N) : (View.zipWith f u v).Conforms N := by
  cases u with
  | scalar x =>
    cases v with
    | scalar y => trivial
    | array n h => exact hv
  | array n g =>
    cases v with
    | scalar y => exact hu
    | array m h => exact hu

lemma Conforms.map {v : View α} (hv : v.Conforms N) (f : α → β) : (v.map f).Conforms N :=
  conforms_map.2 hv

lemma Conforms.neg [Neg α] {v : View α} (hv : v.Conforms N) : (-v).Conforms N :=
  conforms_map.2 hv

lemma Conforms.inv [Inv α] {v : View α} (hv : v.Conforms N) : (v⁻¹).Conforms N :=
  conforms_map.2 hv

lemma Conforms.add [Add α] {u v : View α} (hu : u.Conforms N) (hv : v.Conforms N) :
    (u + v).Conforms N := hu.zipWith hv

lemma Conforms.sub [Sub α] {u v : View α} (hu : u.Conforms N) (hv : v.Conforms N) :
    (u - v).Conforms N := hu.zipWith hv

lemma Conforms.mul [Mul α] {u v : View α} (hu : u.Conforms N) (hv : v.Conforms N) :
    (u * v).Conforms N := hu.zipWith hv

lemma Conforms.div [Div α] {u v : View α} (hu : u.Conforms N) (hv : v.Conforms N) :
    (u / v).Conforms N := hu.zipWith hv

lemma Conforms.size_eq {v : View α} (hv : v.Conforms N) : v.size = if v.isScalar then 1 else N := by
  cases v with
  | scalar x => rfl
  | array n f => exact hv

/-- The size of a combination is that of its larger part. -/
lemma size_zipWith {f : α → β → γ} {u : View α} {v : View β} (hu : u.Conforms N) (hv : v.Conforms N)
    (hN : N ≠ 0) : (zipWith f u v).size = max u.size v.size := by
  rw [(hu.zipWith hv).size_eq, hu.size_eq, hv.size_eq, isScalar_zipWith]
  cases u.isScalar <;> cases v.isScalar <;> simp <;> omega

/-- The view stored as an array of `n` entries. -/
def materialize (v : View α) (n : ℕ) : View α :=
  match v with
  | scalar x => scalar x
  | array _ f => array n f

lemma Conforms.materialize_eq {v : View α} (hv : v.Conforms N) : v.materialize N = v := by
  cases v with
  | scalar x => rfl
  | array n f => rw [materialize, show n = N from hv]

/-! ## Sums -/

section Sums

variable {K : Type*} [Field K]

/-- A view that need not have an entry for every position is scaled by the number of positions over its
size. -/
theorem sum_scaled [CharZero K] {v : View K} (hv : v.Conforms N) (hN : N ≠ 0) :
    v.sum * N / v.size = ∑ i ∈ range N, v.entry i := by
  cases v with
  | scalar x => simp [sum, size, mul_comm]
  | array n f =>
    obtain rfl : n = N := hv
    have hn : (n : K) ≠ 0 := Nat.cast_ne_zero.2 hN
    rw [sum, size, mul_div_assoc, div_self hn, mul_one]
    rfl

end Sums

section Covers

variable [AddCommMonoid α]

/-- The view has an entry for every position: it is a scalar only where there is one position. -/
structure Covers (N : ℕ) (v : View α) : Prop where
  conforms : v.Conforms N
  single : v.isScalar = true → N = 1

theorem sum_of_covers {v : View α} (hv : v.Covers N) : v.sum = ∑ i ∈ range N, v.entry i := by
  cases v with
  | scalar x =>
    obtain rfl := hv.single rfl
    rw [Finset.sum_range_one]
    rfl
  | array n f =>
    obtain rfl : n = N := hv.conforms
    rfl

/-- What the positions that read an entry of the argument contribute to it. -/
def collect (arg : View β) (N : ℕ) (g : ℕ → α) (j : ℕ) : α :=
  ∑ i ∈ range N with arg.slot i = j, g i

lemma collect_scalar (x : β) (g : ℕ → α) : (scalar x).collect N g 0 = ∑ i ∈ range N, g i := by
  simp [collect, slot]

lemma collect_array {f : ℕ → β} {g : ℕ → α} {j : ℕ} (hj : j < N) :
    (array N f).collect N g j = g j := by
  simp [collect, slot, isScalar, hj]

@[simp] lemma collect_zero (arg : View β) (g : ℕ → α) (j : ℕ) : arg.collect 0 g j = 0 := by
  simp [collect]

lemma collect_congr {arg : View β} {g g' : ℕ → α} (h : ∀ i < N, g i = g' i) (j : ℕ) :
    arg.collect N g j = arg.collect N g' j :=
  Finset.sum_congr rfl fun i hi => h i (mem_range.1 (mem_filter.1 hi).1)

/-- What a contribution has for an entry of the argument: all of it for a shared one. -/
theorem collect_of_covers {arg : View β} {e : View α} (ha : arg.Conforms N) (he : e.Covers N) {j : ℕ}
    (hj : j < arg.size) :
    arg.collect N e.entry j = if arg.isScalar then e.sum else e.entry j := by
  cases arg with
  | scalar x =>
    obtain rfl : j = 0 := by
      change j < 1 at hj
      omega
    rw [collect_scalar, isScalar_scalar, if_pos rfl, sum_of_covers he]
  | array n f =>
    obtain rfl : n = N := ha
    exact collect_array hj

end Covers

end View

end Broadcast
