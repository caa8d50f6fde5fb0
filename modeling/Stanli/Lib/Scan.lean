import Mathlib.Algebra.Order.Ring.Int
import Mathlib.Data.List.GetD
import Mathlib.Tactic.Common

/-!
# Last positions

A pass often records, for each name, the last position of a list whose entry touches the name, or
cuts a list at increasing positions.
-/

namespace Stanli

variable {α : Type*}

/-- The last position of `l` whose entry touches each name, or `-1`. -/
def lastPositions (touches : α → ℕ → Bool) (l : List α) : ℕ → ℤ :=
  l.zipIdx.foldl (fun last p s => if touches p.1 s then (p.2 : ℤ) else last s) fun _ => -1

/-- No entry that touches a name comes after its last position. -/
lemma le_lastPositions {touches : α → ℕ → Bool} {l : List α} {k s : ℕ} {a : α}
    (ha : l[k]? = some a) (hs : touches a s = true) : (k : ℤ) ≤ lastPositions touches l s := by
  have key : ∀ (l : List α) (m : ℕ) (last : ℕ → ℤ), (∀ t, last t < m) →
      (∀ t, last t ≤ (l.zipIdx m).foldl
        (fun last p s => if touches p.1 s then (p.2 : ℤ) else last s) last t) ∧
      ∀ k a t, l[k]? = some a → touches a t = true → ((m + k : ℕ) : ℤ) ≤ (l.zipIdx m).foldl
        (fun last p s => if touches p.1 s then (p.2 : ℤ) else last s) last t := by
    intro l
    induction l with
    | nil => exact fun m last _ => ⟨fun t => le_refl _, fun k a t h => by simp at h⟩
    | cons o l ih =>
      intro m last hlast
      obtain ⟨h1, h2⟩ := ih (m + 1) (fun s => if touches o s then (m : ℤ) else last s) fun t => by
        have := hlast t
        split <;> omega
      rw [List.zipIdx_cons, List.foldl_cons]
      constructor
      · intro t
        refine le_trans ?_ (h1 t)
        have := hlast t
        split <;> omega
      · intro k a t hk ht
        cases k with
        | zero =>
          obtain rfl : o = a := by simpa using hk
          refine le_trans ?_ (h1 t)
          simp [ht]
        | succ k =>
          have := h2 k a t (by simpa using hk) ht
          refine le_trans ?_ this
          push_cast
          omega
  have := (key l 0 (fun _ => -1) fun t => by omega).2 k a s ha hs
  simpa [lastPositions] using this

/-- The last position of a name is one whose entry touches it. -/
lemma lastPositions_spec (touches : α → ℕ → Bool) (l : List α) (s : ℕ) :
    lastPositions touches l s = -1 ∨ ∃ (k : ℕ) (a : α), l[k]? = some a ∧ touches a s = true ∧
      lastPositions touches l s = k := by
  have key : ∀ (is : List α) (m : ℕ) (last : ℕ → ℤ), l.drop m = is →
      (last s = -1 ∨ ∃ (k : ℕ) (a : α), l[k]? = some a ∧ touches a s = true ∧ last s = k) →
      ((is.zipIdx m).foldl (fun last p s => if touches p.1 s then (p.2 : ℤ) else last s) last) s =
          -1 ∨
        ∃ (k : ℕ) (a : α), l[k]? = some a ∧ touches a s = true ∧ ((is.zipIdx m).foldl
          (fun last p s => if touches p.1 s then (p.2 : ℤ) else last s) last) s = k := by
    intro is
    induction is with
    | nil => exact fun m last _ h => h
    | cons o is ih =>
      intro m last his h
      rw [List.zipIdx_cons, List.foldl_cons]
      refine ih (m + 1) _ (by rw [← List.drop_drop, his]; rfl) ?_
      dsimp only
      split
      · rename_i ht
        refine Or.inr ⟨m, o, ?_, ht, rfl⟩
        rw [← Nat.add_zero m, ← List.getElem?_drop, his]
        rfl
      · exact h
  exact key l 0 (fun _ => -1) rfl (Or.inl rfl)

/-- The positions of `l`, each as often as its entry counts. -/
def occurrences (count : α → ℕ) (l : List α) : List ℕ :=
  l.zipIdx.flatMap fun p => List.replicate (count p.1) p.2

/-- A position occurs when its entry counts. -/
lemma mem_occurrences {count : α → ℕ} {l : List α} {k : ℕ} :
    k ∈ occurrences count l ↔ ∃ a, l[k]? = some a ∧ 0 < count a := by
  rw [occurrences, List.mem_flatMap]
  constructor
  · rintro ⟨⟨a, j⟩, hp, hk⟩
    obtain ⟨hne, rfl⟩ := List.mem_replicate.1 hk
    exact ⟨a, List.mem_zipIdx_iff_getElem?.1 hp, Nat.pos_of_ne_zero hne⟩
  · rintro ⟨a, ha, hpos⟩
    exact ⟨(a, k), List.mem_zipIdx_iff_getElem?.2 ha, List.mem_replicate.2 ⟨hpos.ne', rfl⟩⟩

/-- Positions occur in order. -/
lemma occurrences_pairwise (count : α → ℕ) (l : List α) :
    (occurrences count l).Pairwise (· ≤ ·) := by
  have key : ∀ m, ((l.zipIdx m).flatMap fun p => List.replicate (count p.1) p.2).Pairwise
      (· ≤ ·) := by
    induction l with
    | nil => exact fun _ => List.Pairwise.nil
    | cons a l ih =>
      intro m
      rw [List.zipIdx_cons, List.flatMap_cons, List.pairwise_append]
      refine ⟨List.pairwise_replicate.2 (.inr le_rfl), ih (m + 1), fun j hj k hk => ?_⟩
      obtain ⟨-, rfl⟩ := List.mem_replicate.1 hj
      obtain ⟨⟨b, i⟩, hp, hk⟩ := List.mem_flatMap.1 hk
      obtain ⟨-, rfl⟩ := List.mem_replicate.1 hk
      exact (Nat.le_succ _).trans (List.mem_zipIdx hp).1
  exact key 0

/-- Modifying a list at some positions, by a function that need not be applied twice. -/
lemma getElem?_foldl_modify {f : α → α} (hf : ∀ a, f (f a) = f a) (w : List ℕ) (l : List α)
    (k : ℕ) : (w.foldl (fun l r => l.modify r f) l)[k]? =
      if k ∈ w then l[k]?.map f else l[k]? := by
  induction w generalizing l with
  | nil => simp
  | cons r w ih =>
    rw [List.foldl_cons, ih, List.getElem?_modify]
    by_cases hr : r = k
    · subst hr
      cases h : l[r]? <;> simp [hf]
    · have hk : k ∈ r :: w ↔ k ∈ w := by simp [Ne.symm hr]
      simp [if_neg hr, hk]

/-- Counting fewer entries: one that counted does not any more, and none is new. -/
lemma countP_lt_of_forall {p q : α → Bool} {l : List α} (h : ∀ a, q a = true → p a = true)
    (hne : ∃ a ∈ l, p a = true ∧ q a = false) : l.countP q < l.countP p := by
  induction l with
  | nil => simp at hne
  | cons b l ih =>
    have hle : l.countP q ≤ l.countP p := List.countP_mono_left fun a _ => h a
    rw [List.countP_cons, List.countP_cons]
    obtain ⟨a, ha, hp, hq⟩ := hne
    rcases List.mem_cons.1 ha with rfl | ha
    · rw [hp, hq]
      simp only [if_true, Bool.false_eq_true, if_false]
      omega
    · have hlt := ih ⟨a, ha, hp, hq⟩
      by_cases hb : q b = true
      · rw [h b hb, hb]
        omega
      · rw [if_neg hb]
        omega

/-- Two tests that agree on a list. -/
lemma any_congr_of_mem {p q : α → Bool} {l : List α} (h : ∀ a ∈ l, p a = q a) :
    l.any p = l.any q := by
  rw [Bool.eq_iff_iff, List.any_eq_true, List.any_eq_true]
  exact exists_congr fun a => and_congr_right fun ha => by rw [h a ha]

/-- An element that occurs once in what a list of lists makes occurs in one entry only. -/
lemma eq_of_count_flatMap {α β : Type*} [DecidableEq β] {f : α → List β} {l : List α} {b : β}
    (h : (l.flatMap f).count b ≤ 1) {i j : ℕ} {x y : α} (hi : l[i]? = some x) (hx : b ∈ f x)
    (hj : l[j]? = some y) (hy : b ∈ f y) : i = j := by
  induction l generalizing i j with
  | nil => simp at hi
  | cons a l ih =>
    rw [List.flatMap_cons, List.count_append] at h
    have htail : ∀ {k : ℕ} {z : α}, l[k]? = some z → b ∈ f z → 0 < (l.flatMap f).count b :=
      fun hk hz => List.count_pos_iff.2 (List.mem_flatMap.2 ⟨_, List.mem_of_getElem? hk, hz⟩)
    have hhead : ∀ {z : α}, a = z → b ∈ f z → 0 < (f a).count b :=
      fun hz hb => List.count_pos_iff.2 (hz ▸ hb)
    cases i with
    | zero =>
      cases j with
      | zero => rfl
      | succ j =>
        have := hhead (by simpa using hi) hx
        have := htail (by simpa using hj) hy
        omega
    | succ i =>
      cases j with
      | zero =>
        have := hhead (by simpa using hj) hy
        have := htail (by simpa using hi) hx
        omega
      | succ j =>
        exact congrArg Nat.succ (ih (by omega) (by simpa using hi) (by simpa using hj))

/-! ## Cuts -/

/-- The first of the increasing positions `l` behind `k`, or `n`. -/
def nextCut (l : List ℕ) (n k : ℕ) : ℕ := l.getD (l.countP (· ≤ k)) n

section Cuts

variable {l : List ℕ} {n k : ℕ}

/-- A position that is a cut, with the cuts before and behind it. -/
lemma exists_append_of_mem (hl : l.Pairwise (· < ·)) (hk : k ∈ l) :
    ∃ l₁ l₂, l = l₁ ++ k :: l₂ ∧ (∀ a ∈ l₁, a < k) ∧ ∀ a ∈ l₂, k < a := by
  obtain ⟨l₁, l₂, rfl⟩ := List.append_of_mem hk
  rw [List.pairwise_append, List.pairwise_cons] at hl
  exact ⟨l₁, l₂, rfl, fun a ha => hl.2.2 a ha k (List.mem_cons_self ..), hl.2.1.1⟩

lemma countP_le_append {l₁ l₂ : List ℕ} (h₁ : ∀ a ∈ l₁, a ≤ k) (h₂ : ∀ a ∈ l₂, k < a) :
    (l₁ ++ l₂).countP (· ≤ k) = l₁.length := by
  rw [List.countP_append, List.countP_eq_length.2 (by simpa using h₁),
    List.countP_eq_zero.2 (by simpa using h₂), Nat.add_zero]

/-- A cut is the last one up to itself. -/
lemma getD_countP_of_mem (hl : l.Pairwise (· < ·)) (hk : k ∈ l) :
    0 < l.countP (· ≤ k) ∧ l.getD (l.countP (· ≤ k) - 1) n = k := by
  obtain ⟨l₁, l₂, rfl, h₁, h₂⟩ := exists_append_of_mem hl hk
  rw [← List.singleton_append, ← List.append_assoc, countP_le_append (fun a ha => ?_) h₂]
  · simp
  · rcases List.mem_append.1 ha with ha | ha
    · exact (h₁ a ha).le
    · exact (List.mem_singleton.1 ha).le

/-- A cut right behind a position is the next one. -/
lemma nextCut_of_mem (hl : l.Pairwise (· < ·)) (hk : k + 1 ∈ l) : nextCut l n k = k + 1 := by
  obtain ⟨l₁, l₂, rfl, h₁, h₂⟩ := exists_append_of_mem hl hk
  rw [nextCut, countP_le_append (fun a ha => Nat.lt_succ_iff.1 (h₁ a ha)) fun a ha => ?_]
  · simp
  · rcases List.mem_cons.1 ha with rfl | ha
    · exact Nat.lt_succ_self k
    · exact (Nat.lt_succ_self k).trans (h₂ a ha)

/-- Up to the next cut the next cut stays the same. -/
lemma nextCut_of_notMem (hk : k + 1 ∉ l) : nextCut l n (k + 1) = nextCut l n k := by
  unfold nextCut
  congr 1
  refine List.countP_congr fun a ha => ?_
  have : a ≠ k + 1 := fun h => hk (h ▸ ha)
  simp only [decide_eq_true_eq]
  omega

/-- Behind the last cut the end comes next. -/
lemma nextCut_of_last (hn : ∀ a ∈ l, a < n) (hk : n ≤ k + 1) : nextCut l n k = n := by
  rw [nextCut, List.countP_eq_length.2 fun a ha => ?_, List.getD_eq_default _ _ le_rfl]
  have := hn a ha
  simp only [decide_eq_true_eq]
  omega

/-- The next cut is behind the position. -/
lemma lt_nextCut (hl : l.Pairwise (· < ·)) (hk : k < n) : k < nextCut l n k := by
  unfold nextCut
  rcases lt_or_ge (l.countP (· ≤ k)) l.length with hlt | hge
  · rw [List.getD_eq_getElem _ _ hlt]
    by_contra hcon
    -- Then one more entry counts than do.
    have hall : ∀ a ∈ l.take (l.countP (· ≤ k) + 1), a ≤ k := by
      intro a ha
      obtain ⟨i, hi, rfl⟩ := List.mem_iff_getElem.1 ha
      rw [List.length_take] at hi
      rw [List.getElem_take]
      rcases (show i ≤ l.countP (· ≤ k) by omega).eq_or_lt with rfl | hlt'
      · omega
      · have := List.pairwise_iff_getElem.1 hl i (l.countP (· ≤ k)) (by omega) hlt hlt'
        omega
    have hcount : (l.take (l.countP (· ≤ k) + 1)).countP (· ≤ k) = l.countP (· ≤ k) + 1 := by
      rw [List.countP_eq_length.2 (by simpa using hall), List.length_take]
      omega
    have := (List.take_sublist (l.countP (· ≤ k) + 1) l).countP_le (p := (· ≤ k))
    omega
  · rwa [List.getD_eq_default _ _ hge]

end Cuts

end Stanli
