import Mathlib.Algebra.BigOperators.Group.Finset.Basic
import Mathlib.Data.Fintype.Basic
import Mathlib.Data.List.Perm.Basic
import Mathlib.Logic.Function.Basic

/-!
# Threads that step in any order

A system of threads is a relation between states in which any thread may take the next step.  A step may
show something; `Runs` are the states that are reached, with what has been shown on the way.

`ShareOut` is about threads that share out the numbers below `n` through a counter: each takes the number in
the counter and counts on, and stops at the first that is `n` or more.  In every interleaving a number is with
at most one thread, and when no thread has one and the counter has passed `n`, each has been done exactly
once (`ShareOut.perm_range`).
-/

namespace Interleaving

/-! ## Runs -/

section

variable {σ ε : Type*} {step : σ → Option ε → σ → Prop} {start s : σ} {es : List ε}

/-- The states a system reaches, with what its steps have shown, the latest last. -/
inductive Runs (step : σ → Option ε → σ → Prop) (start : σ) : σ → List ε → Prop
  | start : Runs step start start []
  | step {s s' : σ} {es : List ε} {l : Option ε} (h : Runs step start s es) (hs : step s l s') :
      Runs step start s' (es ++ l.toList)

/-- What holds at the start and is kept by every step holds in every interleaving. -/
theorem Runs.invariant {I : σ → List ε → Prop} (hstart : I start [])
    (hstep : ∀ s l s' es, I s es → step s l s' → I s' (es ++ l.toList)) (h : Runs step start s es) :
    I s es := by
  induction h with
  | start => exact hstart
  | step _ hs ih => exact hstep _ _ _ _ ih hs

lemma Runs.silent {s' : σ} (h : Runs step start s es) (hs : step s none s') : Runs step start s' es := by
  simpa using h.step hs

lemma Runs.trans {t : σ} {es' : List ε} (h : Runs step start s es) (h' : Runs step s t es') :
    Runs step start t (es ++ es') := by
  induction h' with
  | start => rwa [List.append_nil]
  | step _ hs ih =>
    rw [← List.append_assoc]
    exact ih.step hs

/-- Where a rank falls until the goal is reached, the goal can be reached. -/
theorem Runs.exists_of_rank {I goal : σ → Prop} {r : σ → ℕ}
    (hadvance : ∀ s, I s → ¬goal s → ∃ l s', step s l s' ∧ I s' ∧ r s' < r s) (hs : I s) :
    ∃ t es, Runs step s t es ∧ goal t := by
  induction hn : r s using Nat.strong_induction_on generalizing s with
  | _ n ih =>
    by_cases hg : goal s
    · exact ⟨s, [], .start, hg⟩
    · obtain ⟨l, s', hstep, hs', hlt⟩ := hadvance s hs hg
      obtain ⟨t, es, hrun, ht⟩ := ih _ (hn ▸ hlt) hs' rfl
      exact ⟨t, _, (Runs.start.step hstep).trans hrun, ht⟩

end

/-- What holds of every thread when one of them moves on. -/
lemma forall_update {ι α : Type*} [DecidableEq ι] {f : ι → α} {i : ι} {x : α} {P : α → Prop} (hx : P x)
    (h : ∀ j, P (f j)) : ∀ j, P (Function.update f i x j) :=
  (Function.forall_update_iff f fun _ => P).2 ⟨hx, fun j _ => h j⟩

/-- What the threads amount to when one of them moves on. -/
lemma sum_update_add {ι α : Type*} [Fintype ι] [DecidableEq ι] (f : ι → α) (i : ι) (x : α) (g : α → ℕ) :
    (∑ j, g (Function.update f i x j)) + g (f i) = (∑ j, g (f j)) + g x := by
  rw [← Finset.add_sum_erase _ _ (Finset.mem_univ i), ← Finset.add_sum_erase _ (fun j => g (f j))
    (Finset.mem_univ i), Function.update_self]
  have hrest : ∑ j ∈ Finset.univ.erase i, g (Function.update f i x j) =
      ∑ j ∈ Finset.univ.erase i, g (f j) :=
    Finset.sum_congr rfl fun j hj => by rw [Function.update_of_ne (Finset.ne_of_mem_erase hj)]
  rw [hrest]
  omega

/-! ## Sharing out -/

variable {T : Type*} {n next : ℕ} {held : T → Option ℕ} {done : List ℕ}

/-- The numbers below `n` that the counter has passed are done, or with one thread each. -/
structure ShareOut (n next : ℕ) (held : T → Option ℕ) (done : List ℕ) : Prop where
  held_lt : ∀ t i, held t = some i → i < n ∧ i < next ∧ i ∉ done
  held_inj : ∀ t t' i, held t = some i → held t' = some i → t = t'
  nodup : done.Nodup
  done_lt : ∀ i ∈ done, i < n ∧ i < next
  covered : ∀ i < n, i < next → i ∈ done ∨ ∃ t, held t = some i

namespace ShareOut

lemma start (h : ∀ t, held t = none) : ShareOut n 0 held [] where
  held_lt := fun t i ht => by simp [h t] at ht
  held_inj := fun t t' i ht => by simp [h t] at ht
  nodup := List.nodup_nil
  done_lt := fun i hi => absurd hi List.not_mem_nil
  covered := fun i _ hi => absurd hi i.not_lt_zero

/-- A thread that finds no more numbers. -/
lemma miss (h : ShareOut n next held done) (hn : n ≤ next) : ShareOut n (next + 1) held done where
  held_lt := fun t i ht => ⟨(h.held_lt t i ht).1, Nat.lt_succ_of_lt (h.held_lt t i ht).2.1, (h.held_lt t i ht).2.2⟩
  held_inj := h.held_inj
  nodup := h.nodup
  done_lt := fun i hi => ⟨(h.done_lt i hi).1, Nat.lt_succ_of_lt (h.done_lt i hi).2⟩
  covered := fun i hi _ => h.covered i hi (hi.trans_le hn)

variable [DecidableEq T]

/-- A thread takes the next number. -/
lemma take (h : ShareOut n next held done) {t : T} (ht : held t = none) (hn : next < n) :
    ShareOut n (next + 1) (Function.update held t (some next)) done := by
  have hold : ∀ {t' i}, Function.update held t (some next) t' = some i →
      t' = t ∧ i = next ∨ t' ≠ t ∧ held t' = some i := by
    intro t' i hi
    obtain rfl | hne := eq_or_ne t' t
    · rw [Function.update_self] at hi
      exact .inl ⟨rfl, (Option.some.inj hi).symm⟩
    · rw [Function.update_of_ne hne] at hi
      exact .inr ⟨hne, hi⟩
  refine ⟨fun t' i hi => ?_, fun t₁ t₂ i h₁ h₂ => ?_, h.nodup, fun i hi => ?_, fun i hi hlt => ?_⟩
  · obtain ⟨rfl, rfl⟩ | ⟨-, hi⟩ := hold hi
    · exact ⟨hn, i.lt_succ_self, fun hmem => (h.done_lt i hmem).2.false⟩
    · obtain ⟨hlt, hnext, hmem⟩ := h.held_lt t' i hi
      exact ⟨hlt, Nat.lt_succ_of_lt hnext, hmem⟩
  · obtain ⟨ht₁, hi₁⟩ | ⟨-, h₁'⟩ := hold h₁ <;> obtain ⟨ht₂, hi₂⟩ | ⟨-, h₂'⟩ := hold h₂
    · rw [ht₁, ht₂]
    · exact absurd (h.held_lt t₂ i h₂').2.1 (by omega)
    · exact absurd (h.held_lt t₁ i h₁').2.1 (by omega)
    · exact h.held_inj t₁ t₂ i h₁' h₂'
  · exact ⟨(h.done_lt i hi).1, Nat.lt_succ_of_lt (h.done_lt i hi).2⟩
  · obtain hlt | rfl := Nat.lt_succ_iff_lt_or_eq.1 hlt
    · obtain hdone | ⟨t', ht'⟩ := h.covered i hi hlt
      · exact .inl hdone
      · refine .inr ⟨t', ?_⟩
        rw [Function.update_of_ne (fun he => by simp [he, ht] at ht'), ht']
    · exact .inr ⟨t, Function.update_self ..⟩

/-- A thread is done with its number. -/
lemma finish (h : ShareOut n next held done) {t : T} {i : ℕ} (ht : held t = some i) :
    ShareOut n next (Function.update held t none) (i :: done) := by
  have hold : ∀ {t' k}, Function.update held t none t' = some k → t' ≠ t ∧ held t' = some k := by
    intro t' k hk
    obtain rfl | hne := eq_or_ne t' t
    · simp at hk
    · rw [Function.update_of_ne hne] at hk
      exact ⟨hne, hk⟩
  obtain ⟨hlt, hnext, hmem⟩ := h.held_lt t i ht
  refine ⟨fun t' k hk => ?_, fun t₁ t₂ k h₁ h₂ => h.held_inj t₁ t₂ k (hold h₁).2 (hold h₂).2,
    List.nodup_cons.2 ⟨hmem, h.nodup⟩, fun k hk => ?_, fun k hk hkn => ?_⟩
  · obtain ⟨hne, hk⟩ := hold hk
    obtain ⟨hkn, hknext, hkmem⟩ := h.held_lt t' k hk
    refine ⟨hkn, hknext, fun hk' => ?_⟩
    obtain rfl | hk' := List.mem_cons.1 hk'
    · exact hne (h.held_inj t' t k hk ht)
    · exact hkmem hk'
  · obtain rfl | hk := List.mem_cons.1 hk
    · exact ⟨hlt, hnext⟩
    · exact h.done_lt k hk
  · obtain hk | ⟨t', ht'⟩ := h.covered k hk hkn
    · exact .inl (List.mem_cons_of_mem i hk)
    · obtain rfl | hne := eq_or_ne t' t
      · rw [ht] at ht'
        exact .inl (Option.some.inj ht' ▸ List.mem_cons_self)
      · exact .inr ⟨t', by rw [Function.update_of_ne hne, ht']⟩

omit [DecidableEq T] in
lemma mem_of_released (h : ShareOut n next held done) (hheld : ∀ t, held t = none) (hn : n ≤ next) {i : ℕ} :
    i ∈ done ↔ i < n := by
  refine ⟨fun hi => (h.done_lt i hi).1, fun hi => ?_⟩
  obtain hdone | ⟨t, ht⟩ := h.covered i hi (hi.trans_le hn)
  · exact hdone
  · simp [hheld t] at ht

omit [DecidableEq T] in
/-- Each number has been done exactly once. -/
theorem perm_range (h : ShareOut n next held done) (hheld : ∀ t, held t = none) (hn : n ≤ next) :
    done.Perm (List.range n) :=
  (List.perm_ext_iff_of_nodup h.nodup List.nodup_range).2 fun i => by
    rw [h.mem_of_released hheld hn, List.mem_range]

end ShareOut

end Interleaving
