import Mathlib.Algebra.BigOperators.Group.Finset.Basic
import Mathlib.Algebra.BigOperators.Group.List.Basic
import Mathlib.Algebra.Order.Ring.Nat
import Mathlib.Logic.Function.Basic
import Mathlib.Tactic.Common
import Stanli.Lib.Checks

/-!
# Accumulating into cells

A reverse sweep adds amounts into cells.  `gather` is the total a list of contributions adds to one
cell; `addAll` adds them one after the other, and `takeLoop` is the loop that consumes one output
cell after the other and adds the contributions of each at once.  `storeRun` is a loop that only stores.
-/

namespace Stanli

variable {V : Type*}

/-- What the numeral two of a field needs. -/
instance atLeastTwo_two : Nat.AtLeastTwo 2 := ⟨le_rfl⟩

section Gather

variable [AddCommMonoid V]

/-- What a list of contributions adds to a cell. -/
def gather (l : List (ℕ × V)) (c : ℕ) : V := (l.map fun e => if e.1 = c then e.2 else 0).sum

@[simp] lemma gather_nil (c : ℕ) : gather ([] : List (ℕ × V)) c = 0 := rfl

@[simp] lemma gather_cons (e : ℕ × V) (l : List (ℕ × V)) (c : ℕ) :
    gather (e :: l) c = (if e.1 = c then e.2 else 0) + gather l c := by
  simp [gather]

@[simp] lemma gather_append (l l' : List (ℕ × V)) (c : ℕ) :
    gather (l ++ l') c = gather l c + gather l' c := by
  simp [gather]

/-- A list that names no cell adds nothing to it. -/
lemma gather_eq_zero {l : List (ℕ × V)} {c : ℕ} (h : ∀ e ∈ l, e.1 ≠ c) : gather l c = 0 := by
  induction l with
  | nil => rfl
  | cons e l ih =>
    rw [gather_cons, if_neg (h e (List.mem_cons_self ..)), zero_add]
    exact ih fun e he => h e (List.mem_cons_of_mem _ he)

/-- Leaving out the contributions to other cells does not matter. -/
lemma gather_filter_of_mem {P : ℕ → Bool} {c : ℕ} (h : P c = true) (l : List (ℕ × V)) :
    gather (l.filter fun e => P e.1) c = gather l c := by
  induction l with
  | nil => rfl
  | cons e l ih =>
    rw [List.filter_cons, gather_cons]
    split
    · rw [gather_cons, ih]
    · rename_i hne
      rw [ih, if_neg, zero_add]
      rintro rfl
      exact hne h

/-- The order of the contributions does not matter. -/
lemma gather_perm {l l' : List (ℕ × V)} (h : l.Perm l') (c : ℕ) : gather l c = gather l' c :=
  (h.map _).sum_eq

/-- One contribution to each of a run of cells. -/
lemma gather_run (dst n : ℕ) (f : ℕ → V) (c : ℕ) :
    gather ((List.range n).map fun k => (dst + k, f (dst + k))) c =
      if dst ≤ c ∧ c < dst + n then f c else 0 := by
  induction n with
  | zero => rw [if_neg (by omega)]; rfl
  | succ n ih =>
    rw [List.range_succ, List.map_append, gather_append, ih, List.map_singleton, gather_cons,
      gather_nil, add_zero]
    dsimp only
    rcases eq_or_ne (dst + n) c with rfl | hne
    · rw [if_neg (by omega), if_pos rfl, if_pos (by omega), zero_add]
    · rw [if_neg hne, add_zero]
      exact if_congr (by omega) rfl rfl

/-- Contributions that all go to one cell. -/
lemma gather_map_const {α : Type*} (l : List α) (d : ℕ) (f : α → V) (c : ℕ) :
    gather (l.map fun a => (d, f a)) c = if d = c then (l.map f).sum else 0 := by
  induction l with
  | nil => simp
  | cons a l ih =>
    rw [List.map_cons, gather_cons, ih, List.map_cons, List.sum_cons]
    split <;> simp

/-- A running sum. -/
lemma foldl_add_map {α : Type*} (f : α → V) (l : List α) (v : V) :
    l.foldl (fun v a => v + f a) v = v + (l.map f).sum := by
  induction l generalizing v with
  | nil => simp
  | cons a l ih => rw [List.foldl_cons, ih, List.map_cons, List.sum_cons, add_assoc]

/-! ## Shared cells -/

/-- What the names below `n` that share the cell `c` hold together. -/
def fiberSum (cell : ℕ → ℕ) (n : ℕ) (f : ℕ → V) (c : ℕ) : V :=
  ∑ r ∈ Finset.range n, if cell r = c then f r else 0

lemma fiberSum_congr {cell : ℕ → ℕ} {n c : ℕ} {f g : ℕ → V}
    (h : ∀ r < n, cell r = c → f r = g r) : fiberSum cell n f c = fiberSum cell n g c := by
  refine Finset.sum_congr rfl fun r hr => ?_
  by_cases hc : cell r = c
  · rw [if_pos hc, if_pos hc, h r (Finset.mem_range.1 hr) hc]
  · rw [if_neg hc, if_neg hc]

lemma fiberSum_add (cell : ℕ → ℕ) (n : ℕ) (f g : ℕ → V) (c : ℕ) :
    fiberSum cell n (fun r => f r + g r) c = fiberSum cell n f c + fiberSum cell n g c := by
  unfold fiberSum
  rw [← Finset.sum_add_distrib]
  refine Finset.sum_congr rfl fun r _ => ?_
  split <;> simp

lemma fiberSum_eq_zero {cell : ℕ → ℕ} {n c : ℕ} {f : ℕ → V}
    (h : ∀ r < n, cell r = c → f r = 0) : fiberSum cell n f c = 0 := by
  rw [fiberSum_congr (g := fun _ => 0) h]
  exact Finset.sum_eq_zero fun r _ => by split <;> rfl

/-- A cell whose other names hold nothing. -/
lemma fiberSum_eq {cell : ℕ → ℕ} {n w : ℕ} {f : ℕ → V} (hw : w < n)
    (h : ∀ r < n, cell r = cell w → r ≠ w → f r = 0) : fiberSum cell n f (cell w) = f w := by
  rw [fiberSum, Finset.sum_eq_single w]
  · rw [if_pos rfl]
  · intro r hr hne
    split
    · exact h r (Finset.mem_range.1 hr) ‹_› hne
    · rfl
  · exact fun hn => absurd (Finset.mem_range.2 hw) hn

/-- Contributions to names, added up in their cells. -/
lemma fiberSum_gather (cell : ℕ → ℕ) {n : ℕ} {l : List (ℕ × V)} (h : ∀ e ∈ l, e.1 < n) (c : ℕ) :
    fiberSum cell n (gather l) c = gather (l.map fun e => (cell e.1, e.2)) c := by
  induction l with
  | nil => exact fiberSum_eq_zero fun _ _ _ => rfl
  | cons e l ih =>
    have he := h e (List.mem_cons_self ..)
    rw [show gather (e :: l) = fun r => (if e.1 = r then e.2 else 0) + gather l r from
      funext fun r => gather_cons e l r, fiberSum_add, List.map_cons, gather_cons,
      ih fun e he => h e (List.mem_cons_of_mem _ he)]
    congr 1
    rw [fiberSum, Finset.sum_eq_single e.1]
    · rw [if_pos rfl]
    · intro r _ hne
      rw [if_neg hne.symm]
      split <;> rfl
    · exact fun hn => absurd (Finset.mem_range.2 he) hn

/-- Adding to one cell. -/
lemma update_add_apply (m : ℕ → V) (d : ℕ) (v : V) (c : ℕ) :
    Function.update m d (m d + v) c = m c + if d = c then v else 0 := by
  rcases eq_or_ne d c with rfl | hne
  · rw [Function.update_self, if_pos rfl]
  · rw [Function.update_of_ne hne.symm, if_neg hne, add_zero]

/-- Add a list of contributions, one after the other. -/
def addAll (m : ℕ → V) (l : List (ℕ × V)) : ℕ → V :=
  l.foldl (fun m e => Function.update m e.1 (m e.1 + e.2)) m

lemma addAll_apply (m : ℕ → V) (l : List (ℕ × V)) (c : ℕ) : addAll m l c = m c + gather l c := by
  induction l generalizing m with
  | nil => simp [addAll]
  | cons e l ih =>
    rw [addAll, List.foldl_cons, ← addAll, ih, gather_cons, ← add_assoc, update_add_apply]

/-- All cells together hold what the contributions add up to. -/
lemma sum_gather {n : ℕ} {l : List (ℕ × V)} (h : ∀ e ∈ l, e.1 < n) :
    ∑ c ∈ Finset.range n, gather l c = (l.map Prod.snd).sum := by
  have hfiber := fiberSum_gather (fun _ => 0) h 0
  rw [gather_map_const, if_pos rfl] at hfiber
  rw [← hfiber, fiberSum]
  exact Finset.sum_congr rfl fun c _ => (if_pos rfl).symm

/-- A loop whose every step changes one cell, of which `view` sees an amount added. -/
lemma view_foldl_update {α β : Type*} (view : α → V) {k : β → ℕ} {f : α → β → α} {w : β → V}
    (h : ∀ a b, view (f a b) = view a + w b) (l : List β) (m : ℕ → α) (c : ℕ) :
    view (l.foldl (fun m b => Function.update m (k b) (f (m (k b)) b)) m c) =
      view (m c) + gather (l.map fun b => (k b, w b)) c := by
  induction l generalizing m with
  | nil => simp
  | cons b l ih =>
    rw [List.foldl_cons, ih, List.map_cons, gather_cons, ← add_assoc]
    congr 1
    rcases eq_or_ne (k b) c with rfl | hne
    · rw [Function.update_self, h, if_pos rfl]
    · rw [Function.update_of_ne hne.symm, if_neg hne, add_zero]

/-- Clear `n` cells from `dst` on. -/
def clearRun (m : ℕ → V) (dst n : ℕ) : ℕ → V := fun c => if dst ≤ c ∧ c < dst + n then 0 else m c

/-- `for k < n: u = m[dst + k]; m[dst + k] = 0;` then add the contributions `f k u`. -/
def takeLoop (f : ℕ → V → List (ℕ × V)) (dst n : ℕ) (m : ℕ → V) : ℕ → V :=
  (List.range n).foldl
    (fun m k => addAll (Function.update m (dst + k) 0) (f k (m (dst + k)))) m

/-- When no element adds to a cell that is still to be consumed, the loop clears the cells and adds
all contributions, each computed from the cells as they were. -/
lemma takeLoop_apply {f : ℕ → V → List (ℕ × V)} {dst n : ℕ}
    (h : ∀ k k' u, k < k' → k' < n → ∀ e ∈ f k u, e.1 ≠ dst + k') (m : ℕ → V) (c : ℕ) :
    takeLoop f dst n m c = clearRun m dst n c +
      gather ((List.range n).flatMap fun k => f k (m (dst + k))) c := by
  induction n generalizing c with
  | zero =>
    rw [takeLoop, clearRun, if_neg (by omega)]
    simp
  | succ n ih =>
    have hn := fun c => ih (fun k k' u hk hk' => h k k' u hk (by omega)) c
    have hlast : takeLoop f dst n m (dst + n) = m (dst + n) := by
      rw [hn, clearRun, if_neg (by omega), gather_eq_zero, add_zero]
      rintro e he
      obtain ⟨k, hk, he⟩ := List.mem_flatMap.1 he
      exact h k n _ (List.mem_range.1 hk) (Nat.lt_succ_self n) e he
    rw [takeLoop, List.range_succ, List.foldl_append, List.foldl_cons, List.foldl_nil, ← takeLoop,
      addAll_apply, hlast, List.flatMap_append, gather_append, ← add_assoc]
    congr 1
    · rcases eq_or_ne c (dst + n) with rfl | hne
      · rw [Function.update_self, clearRun, if_pos (by omega), zero_add, gather_eq_zero]
        rintro e he
        obtain ⟨k, hk, he⟩ := List.mem_flatMap.1 he
        exact h k n _ (List.mem_range.1 hk) (Nat.lt_succ_self n) e he
      · rw [Function.update_of_ne hne, hn]
        congr 1
        unfold clearRun
        refine if_congr ?_ rfl rfl
        omega
    · simp

end Gather

/-! ## Loops -/

/-- A counted loop whose steps keep an invariant. -/
theorem foldl_range_inv {σ : Type*} {n : ℕ} {f : σ → ℕ → σ} (Inv : ℕ → σ → Prop) {s : σ}
    (hstep : ∀ i < n, ∀ s, Inv i s → Inv (i + 1) (f s i)) (hs : Inv 0 s) :
    Inv n ((List.range n).foldl f s) := by
  induction n with
  | zero => exact hs
  | succ n ih =>
    rw [List.range_succ, List.foldl_append, List.foldl_cons, List.foldl_nil]
    exact hstep n (Nat.lt_succ_self n) _ (ih fun i hi => hstep i (Nat.lt_succ_of_lt hi))

section Stores

variable {α : Type*}

/-- Put `n` values in the cells from `dst` on. -/
def storeRun (m : ℕ → α) (dst n : ℕ) (v : ℕ → α) : ℕ → α :=
  fun c => if dst ≤ c ∧ c < dst + n then v (c - dst) else m c

lemma storeRun_of_lt (m : ℕ → α) (dst : ℕ) {n i : ℕ} (v : ℕ → α) (hi : i < n) :
    storeRun m dst n v (dst + i) = v i := by
  rw [storeRun, if_pos ⟨Nat.le_add_right _ _, Nat.add_lt_add_left hi dst⟩, Nat.add_sub_cancel_left]

lemma storeRun_of_not (m : ℕ → α) {dst n c : ℕ} (v : ℕ → α) (h : c < dst ∨ dst + n ≤ c) :
    storeRun m dst n v c = m c := if_neg (by omega)

lemma storeRun_succ (m : ℕ → α) (dst n : ℕ) (v : ℕ → α) :
    storeRun m dst (n + 1) v = Function.update (storeRun m dst n v) (dst + n) (v n) := by
  funext c
  unfold storeRun
  obtain rfl | hne := eq_or_ne c (dst + n)
  · rw [Function.update_self, if_pos (by omega), Nat.add_sub_cancel_left]
  · rw [Function.update_of_ne hne]
    exact if_congr (by omega) rfl rfl

lemma storeRun_zero (m : ℕ → α) (dst : ℕ) (v : ℕ → α) : storeRun m dst 0 v = m :=
  funext fun _ => if_neg (by omega)

end Stores

section Loops

variable [AddCommMonoid V] {ε : Type*}

/-- A counted loop whose steps succeed and add an amount each. -/
theorem foldlM_range_add {f : V → ℕ → Except ε V} {w : ℕ → V} (n : ℕ)
    (h : ∀ i < n, ∀ s, f s i = .ok (s + w i)) (s : V) :
    (List.range n).foldlM f s = .ok (s + ∑ i ∈ Finset.range n, w i) := by
  induction n with
  | zero =>
    rw [Finset.sum_range_zero, add_zero]
    rfl
  | succ n ih =>
    rw [List.range_succ, List.foldlM_append, ih fun i hi => h i (Nat.lt_succ_of_lt hi),
      Finset.sum_range_succ, ← add_assoc]
    have hlast := h n (Nat.lt_succ_self n) (s + ∑ i ∈ Finset.range n, w i)
    change (f (s + ∑ i ∈ Finset.range n, w i) n >>= pure) = _
    rw [hlast]
    rfl

end Loops

end Stanli
