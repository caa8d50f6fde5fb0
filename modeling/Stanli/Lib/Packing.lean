import Mathlib.Algebra.Order.Ring.Nat
import Mathlib.Data.List.SplitLengths
import Mathlib.Data.Nat.Notation
import Mathlib.Order.CompletePartialOrder
import Mathlib.Order.Interval.Set.Disjoint
import Mathlib.Tactic.Common

/-!
# Packing blocks into an arena

An arena is laid out by giving each key the next free offset and moving the fill mark behind its
block.  Blocks placed so lie in the filled part of the arena and never overlap, whichever keys are
placed and whatever their sizes are (`Packing.Sound`).

A layout is often looked up by address in a table sorted by address; `lowerBound` is the position a
binary search gives.

A descriptor that points into a packed buffer names a window `[o, o + n)` of it (`List.window`).  A
window of a window is a window, and a window of one part of a concatenation is the window of the whole
that starts by the length of what stands before it later.  The windows that follow one another split the
list (`List.windowsFrom_eq`).
-/

namespace Stanli

universe u

variable {α : Type*}

/-! ## Blocks one behind the other -/

/-- Where the block of each key starts, and how far the arena is filled. -/
structure Packing (α : Type*) where
  offset : α → Option ℕ
  total : ℕ

namespace Packing

/-- An arena whose first `n` cells are taken. -/
def start (n : ℕ) : Packing α := ⟨fun _ => none, n⟩

variable [DecidableEq α]

/-- Put the block of a key behind everything placed so far. -/
def place (size : α → ℕ) (p : Packing α) (a : α) : Packing α :=
  ⟨Function.update p.offset a (some p.total), p.total + size a⟩

omit [DecidableEq α] in
/-- The cells of a block. -/
def cells (offset size : ℕ) : Set ℕ := Set.Ico offset (offset + size)

lemma disjoint_cells {o n o' n' : ℕ} (h : o + n ≤ o' ∨ o' + n' ≤ o) :
    Disjoint (cells o n) (cells o' n') := by
  rw [Set.disjoint_left]
  intro k hk hk'
  have h1 := Set.mem_Ico.1 hk
  have h2 := Set.mem_Ico.1 hk'
  omega

/-- The blocks lie in the filled part of the arena behind the first `n` cells, each behind or in front
of every other. -/
structure Sound (size : α → ℕ) (n : ℕ) (p : Packing α) : Prop where
  le : n ≤ p.total
  bounded : ∀ a o, p.offset a = some o → n ≤ o ∧ o + size a ≤ p.total
  apart : ∀ a b o o', a ≠ b → p.offset a = some o → p.offset b = some o' →
    o + size a ≤ o' ∨ o' + size b ≤ o

variable {size : α → ℕ} {n : ℕ} {p : Packing α}

omit [DecidableEq α] in
lemma sound_start (size : α → ℕ) (n : ℕ) : (start n : Packing α).Sound size n :=
  ⟨le_rfl, fun _ _ h => by simp [start] at h, fun _ _ _ _ _ h => by simp [start] at h⟩

lemma place_offset_self (size : α → ℕ) (p : Packing α) (a : α) :
    (p.place size a).offset a = some p.total := Function.update_self ..

lemma place_offset_of_ne {a b : α} (h : b ≠ a) (size : α → ℕ) (p : Packing α) :
    (p.place size a).offset b = p.offset b := Function.update_of_ne h ..

/-- Placing a key keeps the layout sound. -/
lemma Sound.place (h : p.Sound size n) (a : α) : (p.place size a).Sound size n := by
  refine ⟨h.le.trans (Nat.le_add_right ..), fun b o hb => ?_, fun b c o o' hne hb hc => ?_⟩
  · by_cases hba : b = a
    · subst hba
      rw [place_offset_self] at hb
      obtain rfl := Option.some.inj hb
      exact ⟨h.le, le_rfl⟩
    · rw [place_offset_of_ne hba] at hb
      have := h.bounded b o hb
      exact ⟨this.1, this.2.trans (Nat.le_add_right ..)⟩
  · by_cases hba : b = a
    · subst hba
      rw [place_offset_self] at hb
      rw [place_offset_of_ne hne.symm] at hc
      obtain rfl := Option.some.inj hb
      exact Or.inr (h.bounded c o' hc).2
    · rw [place_offset_of_ne hba] at hb
      by_cases hca : c = a
      · subst hca
        rw [place_offset_self] at hc
        obtain rfl := Option.some.inj hc
        exact Or.inl (h.bounded b o hb).2
      · rw [place_offset_of_ne hca] at hc
        exact h.apart b c o o' hne hb hc

omit [DecidableEq α] in
/-- The blocks of different keys have no cell in common. -/
lemma Sound.disjoint (h : p.Sound size n) {a b : α} {o o' : ℕ} (hne : a ≠ b)
    (ha : p.offset a = some o) (hb : p.offset b = some o') :
    Disjoint (cells o (size a)) (cells o' (size b)) :=
  disjoint_cells (h.apart a b o o' hne ha hb)

/-- Place the keys of a list that are wanted, in order. -/
def placeAll (size : α → ℕ) (wanted : α → Bool) (l : List α) (p : Packing α) : Packing α :=
  l.foldl (fun p a => if wanted a then p.place size a else p) p

lemma placeAll_cons (size : α → ℕ) (wanted : α → Bool) (a : α) (l : List α) (p : Packing α) :
    placeAll size wanted (a :: l) p =
      placeAll size wanted l (if wanted a then p.place size a else p) := rfl

lemma Sound.placeAll (h : p.Sound size n) (wanted : α → Bool) (l : List α) :
    (placeAll size wanted l p).Sound size n := by
  induction l generalizing p with
  | nil => exact h
  | cons a l ih =>
    rw [placeAll_cons]
    split
    · exact ih (h.place a)
    · exact ih h

/-- A key that is not placed keeps its offset. -/
lemma placeAll_of_notMem {wanted : α → Bool} {l : List α} {a : α}
    (h : a ∉ l ∨ wanted a = false) (p : Packing α) :
    (placeAll size wanted l p).offset a = p.offset a := by
  induction l generalizing p with
  | nil => rfl
  | cons b l ih =>
    rw [placeAll_cons, ih (h.imp_left fun hn hm => hn (List.mem_cons_of_mem _ hm))]
    split
    · rename_i hb
      refine place_offset_of_ne ?_ size p
      rintro rfl
      rcases h with h | h
      · exact h (List.mem_cons_self ..)
      · simp [hb] at h
    · rfl

/-- The keys of a list that are wanted get the offsets behind those in front of them. -/
lemma placeAll_getElem {wanted : α → Bool} {l : List α} (hl : l.Nodup) {i : ℕ} {a : α}
    (hi : l[i]? = some a) (ha : wanted a = true) (p : Packing α) :
    (placeAll size wanted l p).offset a =
      some (p.total + (((l.take i).filter wanted).map size).sum) := by
  induction l generalizing i p with
  | nil => simp at hi
  | cons b l ih =>
    rw [List.nodup_cons] at hl
    rw [placeAll_cons]
    cases i with
    | zero =>
      obtain rfl : b = a := by simpa using hi
      rw [if_pos ha, placeAll_of_notMem (Or.inl hl.1), place_offset_self]
      simp
    | succ i =>
      rw [ih hl.2 (by simpa using hi), List.take_succ_cons, List.filter_cons]
      split
      · rw [List.map_cons, List.sum_cons, place]
        simp [Nat.add_assoc]
      · rfl

lemma placeAll_total (wanted : α → Bool) (l : List α) (p : Packing α) :
    (placeAll size wanted l p).total = p.total + ((l.filter wanted).map size).sum := by
  induction l generalizing p with
  | nil => simp [placeAll]
  | cons b l ih =>
    rw [placeAll_cons, ih, List.filter_cons]
    split
    · rw [List.map_cons, List.sum_cons, place]
      simp [Nat.add_assoc]
    · rfl

/-- The keys of a list that are wanted are placed. -/
lemma placeAll_isSome {wanted : α → Bool} {l : List α} {a : α} (ha : a ∈ l) (hw : wanted a = true)
    (p : Packing α) : ((placeAll size wanted l p).offset a).isSome := by
  induction l generalizing p with
  | nil => simp at ha
  | cons b l ih =>
    rw [placeAll_cons]
    by_cases hm : a ∈ l
    · exact ih hm _
    · obtain rfl : a = b := (List.mem_cons.1 ha).resolve_right hm
      rw [placeAll_of_notMem (Or.inl hm), if_pos hw, place_offset_self]
      rfl

end Packing

/-! ## Loops that may fail -/

section Fold

variable {σ τ ε : Type*} {step : σ → α → Except ε σ}

/-- Both parts of a computation that does not fail do not fail. -/
lemma exists_of_bind_ok {ρ π : Type u} {x : Except ε ρ} {f : ρ → Except ε π} {b : π}
    (h : x >>= f = .ok b) : ∃ a, x = .ok a ∧ f a = .ok b := by
  cases x with
  | error e => cases h
  | ok a => exact ⟨a, rfl, h⟩

/-- A fold that may fail follows a plain fold as long as it does not fail. -/
lemma foldlM_follows {R : σ → τ → Prop} {next : τ → α → τ} {l : List α} {s s' : σ} {t : τ}
    (hstep : ∀ a ∈ l, ∀ s s' t, R s t → step s a = .ok s' → R s' (next t a))
    (h : l.foldlM step s = .ok s') (hR : R s t) : R s' (l.foldl next t) := by
  induction l generalizing s t with
  | nil =>
    obtain rfl : s = s' := Except.ok.inj h
    exact hR
  | cons a l ih =>
    rw [List.foldlM_cons] at h
    obtain ⟨s₁, hs, h⟩ := exists_of_bind_ok h
    exact ih (fun b hb => hstep b (List.mem_cons_of_mem _ hb)) h
      (hstep a (List.mem_cons_self ..) s s₁ t hR hs)

/-- What each round of a fold that may fail adds to the part already done. -/
lemma foldlM_induction {I : List α → σ → Prop} {l : List α} {s s' : σ}
    (hstep : ∀ l₁ a l₂ s s', l = l₁ ++ a :: l₂ → I l₁ s → step s a = .ok s' → I (l₁ ++ [a]) s')
    (h : l.foldlM step s = .ok s') (h0 : I [] s) : I l s' := by
  suffices key : ∀ l₂ l₁ s, l = l₁ ++ l₂ → I l₁ s → l₂.foldlM step s = .ok s' → I l s' from
    key l [] s rfl h0 h
  intro l₂
  induction l₂ with
  | nil =>
    intro l₁ s hl hI h
    obtain rfl : s = s' := Except.ok.inj h
    rwa [hl, List.append_nil]
  | cons a l₂ ih =>
    intro l₁ s hl hI h
    rw [List.foldlM_cons] at h
    obtain ⟨s₁, hs, h⟩ := exists_of_bind_ok h
    exact ih (l₁ ++ [a]) s₁ (by rw [hl, List.append_assoc]; rfl) (hstep l₁ a l₂ s s₁ hl hI hs) h

/-- A fold that does not fail passed every round. -/
lemma exists_round {l : List α} {s s' : σ} (h : l.foldlM step s = .ok s') {a : α} (ha : a ∈ l) :
    ∃ s₁ s₂, step s₁ a = .ok s₂ := by
  induction l generalizing s with
  | nil => simp at ha
  | cons b l ih =>
    rw [List.foldlM_cons] at h
    obtain ⟨s₁, hs, h⟩ := exists_of_bind_ok h
    rcases List.mem_cons.1 ha with rfl | ha
    · exact ⟨s, s₁, hs⟩
    · exact ih h ha

end Fold

/-! ## Tables sorted by key -/

section Table

variable {β : Type*} [LinearOrder β]

/-- `std::lower_bound` in a table sorted by key: the first position whose key is not below `b`. -/
def lowerBound (key : α → β) (l : List α) (b : β) : ℕ :=
  (l.takeWhile fun a => decide (key a < b)).length

/-- A binary search in a sorted table finds the entry of a key. -/
lemma getElem?_lowerBound {key : α → β} {l : List α} (hl : (l.map key).Pairwise (· < ·)) {a : α}
    (ha : a ∈ l) : l[lowerBound key l (key a)]? = some a := by
  induction l with
  | nil => simp at ha
  | cons c l ih =>
    rw [List.map_cons, List.pairwise_cons] at hl
    unfold lowerBound
    rcases List.mem_cons.1 ha with rfl | ha
    · rw [List.takeWhile_cons_of_neg (by simp)]
      rfl
    · have hlt : key c < key a := hl.1 _ (List.mem_map_of_mem ha)
      rw [List.takeWhile_cons_of_pos (by simpa using hlt), List.length_cons,
        List.getElem?_cons_succ]
      exact ih hl.2 ha

/-- A binary search only ends at a key that the table has. -/
lemma mem_of_lowerBound {key : α → β} {l : List α} {b : β} {a : α}
    (h : l[lowerBound key l b]? = some a) : a ∈ l := List.mem_of_getElem? h

/-- `std::sort` by key. -/
def sortByKey (key : α → β) (l : List α) : List α :=
  l.mergeSort fun a b => decide (key a ≤ key b)

@[simp] lemma mem_sortByKey {key : α → β} {l : List α} {a : α} : a ∈ sortByKey key l ↔ a ∈ l :=
  List.mem_mergeSort

/-- Entries with different keys are sorted strictly. -/
lemma pairwise_sortByKey {key : α → β} {l : List α} (h : (l.map key).Nodup) :
    ((sortByKey key l).map key).Pairwise (· < ·) := by
  have hle : (sortByKey key l).Pairwise fun a b => key a ≤ key b := by
    have := @List.pairwise_mergeSort _ (fun a b => decide (key a ≤ key b))
      (fun a b c hab hbc => by simpa using (of_decide_eq_true hab).trans (of_decide_eq_true hbc))
      (fun a b => by simpa using le_total (key a) (key b)) l
    exact this.imp fun hab => of_decide_eq_true hab
  have hnodup : ((sortByKey key l).map key).Nodup :=
    ((List.mergeSort_perm l _).map key).nodup_iff.2 h
  rw [List.Nodup] at hnodup
  rw [List.pairwise_map] at hnodup ⊢
  exact (hle.and hnodup).imp fun hab => lt_of_le_of_ne hab.1 hab.2

end Table

end Stanli

/-! ## Windows of a buffer -/

namespace List

variable {α : Type*}

/-- The entries `[o, o + n)`. -/
def window (o n : ℕ) (xs : List α) : List α := (xs.drop o).take n

lemma window_all (xs : List α) : xs.window 0 xs.length = xs := by
  simp [window]

lemma length_window {o n : ℕ} {xs : List α} (h : o + n ≤ xs.length) :
    (xs.window o n).length = n := by
  rw [window, length_take, length_drop]
  omega

lemma getElem?_window {o n i : ℕ} {xs : List α} (hi : i < n) :
    (xs.window o n)[i]? = xs[o + i]? := by
  rw [window, getElem?_take_of_lt hi, getElem?_drop]

/-- A window that fits into the first part does not see the second. -/
lemma window_append_left {o n : ℕ} {xs : List α} (ys : List α) (h : o + n ≤ xs.length) :
    (xs ++ ys).window o n = xs.window o n := by
  rw [window, drop_append_of_le_length (by omega), take_append_of_le_length, window]
  rw [length_drop]
  omega

/-- A window of the second part. -/
lemma window_append_right (o n : ℕ) (xs ys : List α) :
    (xs ++ ys).window (o + xs.length) n = ys.window o n := by
  rw [window, Nat.add_comm o, ← drop_drop, drop_left, window]

/-! ### Consecutive windows -/

/-- The windows of the lengths `ns` that follow one another from `o` on. -/
def windowsFrom (o : ℕ) : List ℕ → List α → List (List α)
  | [], _ => []
  | n :: ns, xs => xs.window o n :: windowsFrom (o + n) ns xs

lemma windowsFrom_eq (o : ℕ) (ns : List ℕ) (xs : List α) :
    windowsFrom o ns xs = ns.splitLengths (xs.drop o) := by
  induction ns generalizing o with
  | nil => rfl
  | cons n ns ih =>
    rw [windowsFrom, ih, splitLengths_cons, drop_drop, window]

end List
