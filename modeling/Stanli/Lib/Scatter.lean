import Mathlib.Data.List.Induction
import Mathlib.Data.List.Nodup
import Mathlib.Data.Nat.Init
import Mathlib.Data.Nat.Notation
import Mathlib.Logic.Function.Basic
import Mathlib.Tactic.Common

/-!
# Writing and adding at a list of places

A loop that writes the entries of one buffer at a list of places of another leaves at each place the
entry written last (`getElem?_foldl_set`); where a value stands last in a list is `lastIndex`.  Stores
to the cells of a memory are `storeAll`.  A loop that adds numbers at given places of a memory adds to
each place the numbers meant for it, in order (`routed`, `routed_succ`).
-/

namespace Scatter

variable {α β A : Type*}

/-! ## The last place of a value -/

/-- The last place where a value stands in a list. -/
def lastIndex [DecidableEq α] (l : List α) (a : α) : Option ℕ :=
  ((List.range l.length).filter fun i => l[i]? = some a).getLast?

section LastIndex

variable [DecidableEq α]

@[simp] lemma lastIndex_nil (a : α) : lastIndex ([] : List α) a = none := rfl

lemma lastIndex_append_singleton (l : List α) (b a : α) :
    lastIndex (l ++ [b]) a = if b = a then some l.length else lastIndex l a := by
  have hinit : (List.range l.length).filter (fun i => (l ++ [b])[i]? = some a) =
      (List.range l.length).filter fun i => l[i]? = some a :=
    List.filter_congr fun i hi => by rw [List.getElem?_append_left (List.mem_range.1 hi)]
  rw [lastIndex, List.length_append, List.length_singleton, List.range_succ, List.filter_append,
    hinit]
  by_cases hb : b = a
  · simp [hb]
  · simp [hb, lastIndex]

/-- The last place of a value holds it, and no later one does. -/
lemma lastIndex_eq_some_iff {l : List α} {a : α} {j : ℕ} :
    lastIndex l a = some j ↔ l[j]? = some a ∧ ∀ k : ℕ, j < k → l[k]? ≠ some a := by
  induction l using List.reverseRecOn with
  | nil => simp
  | append_singleton l b ih =>
    have hlast : (l ++ [b])[l.length]? = some b := by simp
    rw [lastIndex_append_singleton]
    by_cases hb : b = a
    · rw [if_pos hb, Option.some_inj]
      constructor
      · rintro rfl
        refine ⟨by rw [hlast, hb], fun k hk h => ?_⟩
        rw [List.getElem?_eq_none (by simp; omega)] at h
        cases h
      · rintro ⟨hj, hlate⟩
        have hlt : j < (l ++ [b]).length := (List.getElem?_eq_some_iff.1 hj).1
        have hge : ¬ j < l.length := fun h => hlate _ h (by rw [hlast, hb])
        rw [List.length_append, List.length_singleton] at hlt
        omega
    · rw [if_neg hb, ih]
      have hsame : ∀ k : ℕ, (l ++ [b])[k]? = some a ↔ l[k]? = some a := by
        intro k
        rcases Nat.lt_trichotomy k l.length with hk | rfl | hk
        · rw [List.getElem?_append_left hk]
        · rw [hlast, Option.some_inj, List.getElem?_eq_none (Nat.le_refl _)]
          simp [hb]
        · rw [List.getElem?_eq_none (by simp; omega), List.getElem?_eq_none (Nat.le_of_lt hk)]
      simp only [ne_eq, hsame]

lemma lastIndex_eq_none_iff {l : List α} {a : α} : lastIndex l a = none ↔ a ∉ l := by
  rw [lastIndex, List.getLast?_eq_none_iff, List.filter_eq_nil_iff]
  constructor
  · intro h ha
    obtain ⟨i, hi, rfl⟩ := List.getElem_of_mem ha
    exact h i (List.mem_range.2 hi) (by simp [hi])
  · intro h i _ hi
    exact h (List.mem_of_getElem? (by simpa using hi))

/-- In a list without repetitions a value stands in one place. -/
lemma lastIndex_of_nodup {l : List α} (h : l.Nodup) {a : α} {j : ℕ} (hj : l[j]? = some a) :
    lastIndex l a = some j := by
  rw [lastIndex_eq_some_iff]
  refine ⟨hj, fun k hk hka => ?_⟩
  obtain ⟨hjl, rfl⟩ := List.getElem?_eq_some_iff.1 hj
  obtain ⟨hkl, heq⟩ := List.getElem?_eq_some_iff.1 hka
  exact absurd ((List.Nodup.getElem_inj_iff h).1 heq) (Nat.ne_of_gt hk)

end LastIndex

/-! ## Writing -/

@[simp] lemma length_foldl_set {γ : Type*} (place : γ → ℕ) (value : γ → β) (l : List γ)
    (buffer : List β) :
    (l.foldl (fun b x => b.set (place x) (value x)) buffer).length = buffer.length := by
  induction l generalizing buffer with
  | nil => rfl
  | cons x l ih => rw [List.foldl_cons, ih, List.length_set]

/-- Writing one value after the other: at each place the last one stands. -/
theorem getElem?_foldl_set (value : ℕ → β) (places : List ℕ) (buffer : List β) {k : ℕ}
    (hk : k < buffer.length) :
    (places.zipIdx.foldl (fun b x => b.set x.1 (value x.2)) buffer)[k]? =
      (lastIndex places k).elim buffer[k]? fun i => some (value i) := by
  induction places using List.reverseRecOn with
  | nil => rfl
  | append_singleton l b ih =>
    rw [lastIndex_append_singleton, List.zipIdx_append, List.foldl_append]
    change ((l.zipIdx.foldl _ buffer).set b (value (0 + l.length)))[k]? = _
    rw [List.getElem?_set, Nat.zero_add]
    by_cases hb : b = k
    · rw [if_pos hb, if_pos hb, if_pos (by rwa [length_foldl_set, hb])]
      rfl
    · rw [if_neg hb, if_neg hb, ih]

/-- Writing at the places one after the other. -/
theorem getElem?_foldl_set_zipIdx (value : α → β) (entries : List α) (buffer : List β) {k : ℕ}
    (hk : k < buffer.length) :
    (entries.zipIdx.foldl (fun b x => b.set x.2 (value x.1)) buffer)[k]? =
      entries[k]?.elim buffer[k]? fun a => some (value a) := by
  induction entries using List.reverseRecOn with
  | nil => rfl
  | append_singleton l b ih =>
    rw [List.zipIdx_append, List.foldl_append]
    change ((l.zipIdx.foldl _ buffer).set (0 + l.length) (value b))[k]? = _
    rw [List.getElem?_set, Nat.zero_add]
    by_cases hl : l.length = k
    · subst hl
      rw [if_pos rfl, if_pos (by rwa [length_foldl_set]), List.getElem?_concat_length]
      rfl
    · rw [if_neg hl, ih]
      rcases Nat.lt_or_gt_of_ne hl with h | h
      · have hnone : (l ++ [b])[k]? = none := List.getElem?_eq_none (by simp; omega)
        rw [List.getElem?_eq_none (Nat.le_of_lt h), hnone]
      · rw [List.getElem?_append_left h]

/-! ## Storing -/

/-- Store values at their places, one after the other. -/
def storeAll (l : List (ℕ × β)) (mem : ℕ → β) : ℕ → β :=
  l.foldl (fun mem e => Function.update mem e.1 e.2) mem

lemma storeAll_append (l l' : List (ℕ × β)) (mem : ℕ → β) :
    storeAll (l ++ l') mem = storeAll l' (storeAll l mem) := List.foldl_append ..

/-- A place that is not stored to keeps its value. -/
lemma storeAll_of_ne {l : List (ℕ × β)} {x : ℕ} (h : ∀ e ∈ l, e.1 ≠ x) (mem : ℕ → β) :
    storeAll l mem x = mem x := by
  induction l using List.reverseRecOn with
  | nil => rfl
  | append_singleton l e ih =>
    rw [storeAll_append, ← ih fun e he => h e (List.mem_append_left _ he)]
    exact Function.update_of_ne (h e (by simp)).symm _ _

/-- A place where every store leaves the same value holds it afterwards. -/
lemma storeAll_of_mem {l : List (ℕ × β)} {x : ℕ} {v : β} (hmem : (x, v) ∈ l)
    (h : ∀ e ∈ l, e.1 = x → e.2 = v) (mem : ℕ → β) : storeAll l mem x = v := by
  induction l using List.reverseRecOn with
  | nil => simp at hmem
  | append_singleton l e ih =>
    rw [storeAll_append]
    change Function.update (storeAll l mem) e.1 e.2 x = v
    rcases eq_or_ne e.1 x with rfl | hne
    · rw [Function.update_self, h e (by simp) rfl]
    · rw [Function.update_of_ne hne.symm]
      apply ih
      · rcases List.mem_append.1 hmem with hl | he
        · exact hl
        · exact absurd (congrArg Prod.fst (List.mem_singleton.1 he)).symm hne
      · exact fun e he => h e (List.mem_append_left _ he)

/-- The rows of a flat matrix are apart. -/
lemma row_eq_of_add_eq {n o o' i i' : ℕ} (hi : i < n) (hi' : i' < n)
    (h : o * n + i = o' * n + i') : o = o' ∧ i = i' := by
  have hn : 0 < n := by omega
  have ho : (o * n + i) / n = (o' * n + i') / n := congrArg (· / n) h
  rw [Nat.mul_comm o, Nat.mul_comm o', Nat.mul_add_div hn, Nat.mul_add_div hn, Nat.div_eq_of_lt hi,
    Nat.div_eq_of_lt hi', Nat.add_zero, Nat.add_zero] at ho
  subst ho
  exact ⟨rfl, by omega⟩

/-- A run of places, and the others as they were. -/
lemma storeAll_run (m g : ℕ → β) (start k x : ℕ) :
    storeAll ((List.range k).map fun i => (start + i, g i)) m x =
      if start ≤ x ∧ x < start + k then g (x - start) else m x := by
  split
  · rename_i h
    obtain ⟨i, rfl⟩ := Nat.exists_eq_add_of_le h.1
    rw [Nat.add_sub_cancel_left]
    apply storeAll_of_mem
    · exact List.mem_map.2 ⟨i, List.mem_range.2 (by omega), rfl⟩
    · rintro _ he hcell
      obtain ⟨j, -, rfl⟩ := List.mem_map.1 he
      obtain rfl : j = i := Nat.add_left_cancel hcell
      rfl
  · rename_i h
    apply storeAll_of_ne
    rintro _ he hcell
    obtain ⟨j, hj, rfl⟩ := List.mem_map.1 he
    have hjk := List.mem_range.1 hj
    exact h ⟨hcell ▸ Nat.le_add_right .., hcell ▸ Nat.add_lt_add_left hjk _⟩

/-- Part of a row of a flat matrix, and the other cells as they were. -/
lemma storeAll_rowPart (m g : ℕ → β) {n a k o o' i : ℕ} (hk : a + k ≤ n) (hi : i < n) :
    storeAll ((List.range k).map fun i => (o * n + a + i, g i)) m (o' * n + i) =
      if o' = o ∧ a ≤ i ∧ i < a + k then g (i - a) else m (o' * n + i) := by
  rw [storeAll_run]
  rcases eq_or_ne o' o with rfl | hne
  · rw [show o' * n + i - (o' * n + a) = i - a by omega]
    exact if_congr (by omega) rfl rfl
  · rw [if_neg, if_neg fun h => hne h.1]
    rintro ⟨hle, hlt⟩
    obtain ⟨j, hj⟩ := Nat.exists_eq_add_of_le hle
    refine hne (row_eq_of_add_eq hi (show a + j < n by omega) ?_).1
    rw [hj, Nat.add_assoc]

/-- The start of a row of a flat matrix, and the other cells as they were. -/
lemma storeAll_row (m g : ℕ → β) {n k o o' i : ℕ} (hk : k ≤ n) (hi : i < n) :
    storeAll ((List.range k).map fun i => (o * n + i, g i)) m (o' * n + i) =
      if o' = o ∧ i < k then g i else m (o' * n + i) := by
  have h : storeAll ((List.range k).map fun i => (o * n + 0 + i, g i)) m (o' * n + i) = _ :=
    storeAll_rowPart m g (by omega : 0 + k ≤ n) hi
  simp only [Nat.add_zero, Nat.zero_le, true_and, Nat.zero_add, Nat.sub_zero] at h
  exact h

/-! ## Adding -/

variable [Add A]

/-- `mem[x] += w`, where there is a place for it. -/
def addTo (mem : ℕ → A) (place : Option ℕ) (w : A) : ℕ → A :=
  place.elim mem fun x => Function.update mem x (mem x + w)

/-- Numbers added to a memory, each at its place. -/
def routed (n : ℕ) (place : ℕ → Option ℕ) (w : ℕ → A) (mem : ℕ → A) : ℕ → A := fun x =>
  ((List.range n).filter fun i => place i = some x).foldl (fun s i => s + w i) (mem x)

/-- One more number. -/
lemma routed_succ (n : ℕ) (place : ℕ → Option ℕ) (w : ℕ → A) (mem : ℕ → A) :
    routed (n + 1) place w mem = addTo (routed n place w mem) (place n) (w n) := by
  funext x
  rw [routed, List.range_succ, List.filter_append, List.foldl_append]
  cases hp : place n with
  | none => simp [hp, addTo, routed]
  | some y =>
    by_cases hy : y = x
    · subst hy
      simp [hp, addTo, routed]
    · simp [hp, addTo, routed, hy, Function.update_of_ne (Ne.symm hy)]

/-- Only the places of the numbers matter. -/
lemma routed_congr {n : ℕ} {place place' : ℕ → Option ℕ} (h : ∀ i < n, place i = place' i)
    (w : ℕ → A) (mem : ℕ → A) : routed n place w mem = routed n place' w mem := by
  funext x
  rw [routed, routed, List.filter_congr fun i hi => by rw [h i (List.mem_range.1 hi)]]

/-- The loop that adds every number at its place. -/
theorem foldl_addTo_range (n : ℕ) (place : ℕ → Option ℕ) (w : ℕ → A) (mem : ℕ → A) :
    (List.range n).foldl (fun mem i => addTo mem (place i) (w i)) mem = routed n place w mem := by
  induction n with
  | zero => rfl
  | succ n ih =>
    rw [List.range_succ, List.foldl_append, ih, routed_succ]
    rfl

/-- The loop that adds a number for each entry of a list. -/
theorem foldl_addTo_zipIdx (place : α → Option ℕ) (entries : List α) (w : ℕ → A) (mem : ℕ → A) :
    entries.zipIdx.foldl (fun mem x => addTo mem (place x.1) (w x.2)) mem =
      routed entries.length (fun i => entries[i]?.bind place) w mem := by
  induction entries using List.reverseRecOn with
  | nil => rfl
  | append_singleton l b ih =>
    have hinit : routed l.length (fun i => (l ++ [b])[i]?.bind place) w mem =
        routed l.length (fun i => l[i]?.bind place) w mem :=
      routed_congr (fun i hi => by rw [List.getElem?_append_left hi]) w mem
    rw [List.zipIdx_append, List.foldl_append, ih, List.length_append, List.length_singleton,
      routed_succ, hinit, List.getElem?_concat_length]
    change addTo _ _ (w (0 + l.length)) = _
    rw [Nat.zero_add]
    rfl

/-- Numbers without a place change nothing. -/
lemma routed_of_none {m n : ℕ} (hmn : m ≤ n) {place : ℕ → Option ℕ}
    (h : ∀ i, m ≤ i → place i = none) (w : ℕ → A) (mem : ℕ → A) :
    routed n place w mem = routed m place w mem := by
  induction n, hmn using Nat.le_induction with
  | base => rfl
  | succ n hn ih => rw [routed_succ, h n hn, ih]; rfl

end Scatter
