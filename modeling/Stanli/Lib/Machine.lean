import Mathlib.Data.List.Basic
import Mathlib.Tactic.Common

/-!
# Machines, rewriters and simulation

A *machine* executes a list of instructions on a state; an instruction may fail, and every executed
instruction leaves a log entry.  A *rewriter* is a one-pass transformation of an instruction list:
an automaton that, reading the instructions in order, erases each one or replaces it by one
instruction of the target machine.

The two rules of this file package the inductions every such pass needs.  `Machine.run_simulates`
says that a relation preserved by each step relates whole runs: same failure, related final states,
and target log entries that are exactly the source's at the surviving instructions.
`backRun_simulates` is its counterpart for a sweep that visits the instructions from last to first
and reads the log.
-/

namespace Stanli

/-! ## Masks -/

/-- The entries of a list at the positions a mask keeps. -/
def applyMask {α : Type*} : List Bool → List α → List α
  | keep :: ks, a :: as => if keep then a :: applyMask ks as else applyMask ks as
  | _, _ => []

/-- The next entry of the rest of a list. -/
lemma drop_succ_eq {α : Type*} {l : List α} {a : α} {as : List α} (h : l.drop n = a :: as) :
    l[n]? = some a ∧ l.drop (n + 1) = as := by
  constructor
  · rw [← List.head?_drop, h]
    rfl
  · rw [← List.drop_drop, h]
    rfl

section Mask

variable {α β : Type*}

@[simp] lemma applyMask_nil_right (ks : List Bool) : applyMask ks ([] : List α) = [] := by
  cases ks <;> rfl

@[simp] lemma applyMask_true_cons (ks : List Bool) (a : α) (as : List α) :
    applyMask (true :: ks) (a :: as) = a :: applyMask ks as := rfl

@[simp] lemma applyMask_false_cons (ks : List Bool) (a : α) (as : List α) :
    applyMask (false :: ks) (a :: as) = applyMask ks as := rfl

/-- Related lists stay related under a common mask. -/
lemma forall₂_applyMask {Q : α → β → Prop} (ks : List Bool) {as : List α} {bs : List β}
    (h : List.Forall₂ Q as bs) : List.Forall₂ Q (applyMask ks as) (applyMask ks bs) := by
  induction h generalizing ks with
  | nil => simp
  | cons hab _ ih =>
    cases ks with
    | nil => simp [applyMask]
    | cons k ks => cases k <;> simp [hab, ih]

/-- Pointwise relations between lists compose. -/
lemma forall₂_trans {γ : Type*} {Q : α → β → Prop} {Q' : β → γ → Prop} {Q'' : α → γ → Prop}
    (hQ : ∀ a b c, Q a b → Q' b c → Q'' a c) {as : List α} {bs : List β} {cs : List γ}
    (hab : List.Forall₂ Q as bs) (hbc : List.Forall₂ Q' bs cs) : List.Forall₂ Q'' as cs := by
  induction hab generalizing cs with
  | nil => cases hbc; exact .nil
  | cons h _ ih =>
    cases hbc with
    | cons h' hbc => exact .cons (hQ _ _ _ h h') (ih hbc)

/-- The entries a mask keeps. -/
lemma mem_applyMask {ks : List Bool} {as : List α} {a : α} :
    a ∈ applyMask ks as ↔ ∃ i : ℕ, as[i]? = some a ∧ ks[i]? = some true := by
  induction ks generalizing as with
  | nil => cases as <;> simp [applyMask]
  | cons k ks ih =>
    cases as with
    | nil => simp
    | cons b as =>
      have hsucc : (∃ i : ℕ, (b :: as)[i]? = some a ∧ (k :: ks)[i]? = some true) ↔
          (b = a ∧ k = true) ∨ ∃ i : ℕ, as[i]? = some a ∧ ks[i]? = some true := by
        constructor
        · rintro ⟨i, h, h'⟩
          cases i with
          | zero => exact .inl ⟨by simpa using h, by simpa using h'⟩
          | succ i => exact .inr ⟨i, by simpa using h, by simpa using h'⟩
        · rintro (⟨rfl, rfl⟩ | ⟨i, h, h'⟩)
          · exact ⟨0, rfl, rfl⟩
          · exact ⟨i + 1, by simpa using h, by simpa using h'⟩
      rw [hsucc, ← ih]
      cases k with
      | false => simp
      | true => simp [eq_comm]

/-- Where a kept entry comes from, and what is kept before it. -/
lemma getElem?_applyMask {ks : List Bool} {as : List α} {n : ℕ} {a : α}
    (h : (applyMask ks as)[n]? = some a) : ∃ i, as[i]? = some a ∧ ks[i]? = some true ∧
      ∀ (j : ℕ) (b : α), j < i → as[j]? = some b → ks[j]? = some true →
        ∃ m < n, (applyMask ks as)[m]? = some b := by
  induction ks generalizing as n with
  | nil => cases as <;> simp [applyMask] at h
  | cons k ks ih =>
    cases as with
    | nil => simp at h
    | cons b as =>
      cases k with
      | false =>
        obtain ⟨i, h1, h2, h3⟩ := ih h
        refine ⟨i + 1, by simpa using h1, by simpa using h2, fun j c hj hc hk => ?_⟩
        cases j with
        | zero => simp at hk
        | succ j => exact h3 j c (by omega) (by simpa using hc) (by simpa using hk)
      | true =>
        cases n with
        | zero => exact ⟨0, by simpa using h, rfl, fun j c hj => absurd hj (by omega)⟩
        | succ n =>
          obtain ⟨i, h1, h2, h3⟩ := ih (n := n) (by simpa using h)
          refine ⟨i + 1, by simpa using h1, by simpa using h2, fun j c hj hc hk => ?_⟩
          cases j with
          | zero => exact ⟨0, by omega, by simpa using hc⟩
          | succ j =>
            obtain ⟨m, hm, hb⟩ := h3 j c (by omega) (by simpa using hc) (by simpa using hk)
            exact ⟨m + 1, by omega, by simpa using hb⟩

/-- The mask that keeps everything. -/
lemma applyMask_replicate_true (as : List α) :
    applyMask (List.replicate as.length true) as = as := by
  induction as with
  | nil => rfl
  | cons a as ih => simp [List.replicate_succ, ih]

/-- A mask of a mask: the second one decides about the entries that the first one keeps. -/
def composeMask : List Bool → List Bool → List Bool
  | true :: ks, i :: is => i :: composeMask ks is
  | true :: ks, [] => false :: composeMask ks []
  | false :: ks, is => false :: composeMask ks is
  | [], _ => []

/-- Masking twice is masking once with the composed mask. -/
lemma applyMask_composeMask (ks is : List Bool) (as : List α) :
    applyMask (composeMask ks is) as = applyMask is (applyMask ks as) := by
  induction ks generalizing is as with
  | nil => cases as <;> simp [composeMask, applyMask]
  | cons k ks ih =>
    cases as with
    | nil => simp
    | cons a as =>
      cases k with
      | false => simp [composeMask, ih]
      | true =>
        cases is with
        | nil => simp [composeMask, ih, applyMask]
        | cons i is => cases i <;> simp [composeMask, ih]

end Mask

/-! ## Machines -/

/-- A machine: what one instruction does to the state, and what it logs. -/
structure Machine (ι σ ο ε : Type*) where
  /-- One instruction: the next state with a log entry, or a failure. -/
  step : ι → σ → Except ε (σ × ο)

/-- How a run ends: the last state reached, the log of the instructions that ran, and the failure
that stopped it, if any. -/
structure Outcome (σ ο ε : Type*) where
  state : σ
  log : List ο
  error : Option ε

namespace Machine

variable {ι κ σ τ ο ο' ε : Type*}

/-- Run the instructions in order, stopping at the first failure. -/
def run (M : Machine ι σ ο ε) : List ι → σ → Outcome σ ο ε
  | [], s => ⟨s, [], none⟩
  | i :: is, s =>
    match M.step i s with
    | .error e => ⟨s, [], some e⟩
    | .ok (s', o) =>
      let r := M.run is s'
      ⟨r.state, o :: r.log, r.error⟩

@[simp] lemma run_nil (M : Machine ι σ ο ε) (s : σ) : M.run [] s = ⟨s, [], none⟩ := rfl

lemma run_cons_error {M : Machine ι σ ο ε} {i : ι} {s : σ} {e : ε} (h : M.step i s = .error e)
    (is : List ι) : M.run (i :: is) s = ⟨s, [], some e⟩ := by
  simp [run, h]

lemma run_cons_ok {M : Machine ι σ ο ε} {i : ι} {s s' : σ} {o : ο} (h : M.step i s = .ok (s', o))
    (is : List ι) :
    M.run (i :: is) s = ⟨(M.run is s').state, o :: (M.run is s').log, (M.run is s').error⟩ := by
  simp [run, h]

/-- A property every step preserves holds of the state a run ends in, failed runs included. -/
theorem run_invariant {M : Machine ι σ ο ε} {P : σ → Prop} {is : List ι} {s : σ} (h0 : P s)
    (hstep : ∀ i ∈ is, ∀ s s' o, P s → M.step i s = .ok (s', o) → P s') :
    P (M.run is s).state := by
  induction is generalizing s with
  | nil => exact h0
  | cons i is ih =>
    cases h : M.step i s with
    | error e => rw [run_cons_error h]; exact h0
    | ok r =>
      obtain ⟨s', o⟩ := r
      rw [run_cons_ok h]
      exact ih (hstep i (by simp) s s' o h0 h) fun j hj => hstep j (by simp [hj])

/-- Two runs of one list of instructions in lockstep: a relation that each instruction preserves, or
else both sides fail alike, relates the states the runs end in, and the logs are the same. -/
theorem run_lockstep {M : Machine ι σ ο ε} {N : Machine ι τ ο ε} {R : List ι → σ → τ → Prop}
    (hstep : ∀ i is s t, R (i :: is) s t →
      (∃ e, M.step i s = .error e ∧ N.step i t = .error e) ∨
      ∃ s' t' o, M.step i s = .ok (s', o) ∧ N.step i t = .ok (t', o) ∧ R is s' t')
    {is : List ι} {s : σ} {t : τ} (h : R is s t) :
    (N.run is t).error = (M.run is s).error ∧ (N.run is t).log = (M.run is s).log ∧
      ∃ js, R js (M.run is s).state (N.run is t).state ∧ ((M.run is s).error = none → js = []) := by
  induction is generalizing s t with
  | nil => exact ⟨rfl, rfl, [], h, fun _ => rfl⟩
  | cons i is ih =>
    rcases hstep i is s t h with ⟨e, hs, ht⟩ | ⟨s', t', o, hs, ht, hR⟩
    · rw [run_cons_error hs, run_cons_error ht]
      exact ⟨rfl, rfl, i :: is, h, fun h => by simp at h⟩
    · obtain ⟨h1, h2, h3⟩ := ih hR
      rw [run_cons_ok hs, run_cons_ok ht]
      exact ⟨h1, by rw [h2], h3⟩

/-- A run that meets no failure logs one entry for each instruction. -/
lemma length_log_of_error_eq_none {M : Machine ι σ ο ε} {is : List ι} {s : σ}
    (h : (M.run is s).error = none) : (M.run is s).log.length = is.length := by
  induction is generalizing s with
  | nil => rfl
  | cons i is ih =>
    cases hs : M.step i s with
    | error e => rw [run_cons_error hs] at h; simp at h
    | ok r =>
      rw [run_cons_ok hs] at h ⊢
      simpa using ih h

/-- Running one list after the other. -/
lemma run_append {M : Machine ι σ ο ε} {is js : List ι} {s : σ} (h : (M.run is s).error = none) :
    (M.run (is ++ js) s).state = (M.run js (M.run is s).state).state ∧
      (M.run (is ++ js) s).error = (M.run js (M.run is s).state).error := by
  induction is generalizing s with
  | nil => exact ⟨rfl, rfl⟩
  | cons i is ih =>
    cases hs : M.step i s with
    | error e => rw [run_cons_error hs] at h; simp at h
    | ok r =>
      rw [run_cons_ok hs] at h
      rw [List.cons_append, run_cons_ok hs, run_cons_ok hs]
      exact ih h

/-- What runs without failure has run without failure before. -/
lemma error_eq_none_of_append {M : Machine ι σ ο ε} {is js : List ι} {s : σ}
    (h : (M.run (is ++ js) s).error = none) : (M.run is s).error = none := by
  induction is generalizing s with
  | nil => rfl
  | cons i is ih =>
    rw [List.cons_append] at h
    cases hs : M.step i s with
    | error e => rw [run_cons_error hs] at h; simp at h
    | ok r =>
      rw [run_cons_ok hs] at h ⊢
      exact ih h

/-- A run logs at most one entry for each instruction. -/
lemma length_log_le {M : Machine ι σ ο ε} {is : List ι} {s : σ} :
    (M.run is s).log.length ≤ is.length := by
  induction is generalizing s with
  | nil => simp
  | cons i is ih =>
    cases hs : M.step i s with
    | error e =>
      rw [run_cons_error hs]
      simp
    | ok r =>
      rw [run_cons_ok hs]
      simpa using ih

/-- An entry of the log was made by a step from where the run stood. -/
lemma step_of_log {M : Machine ι σ ο ε} {is : List ι} {s : σ} {n : ℕ} {o : ο}
    (h : (M.run is s).log[n]? = some o) :
    ∃ i s', is[n]? = some i ∧ M.step i (M.run (is.take n) s).state = .ok (s', o) := by
  induction is generalizing n s with
  | nil => simp at h
  | cons i is ih =>
    cases hs : M.step i s with
    | error e => simp [run_cons_error hs] at h
    | ok r =>
      obtain ⟨s', o'⟩ := r
      rw [run_cons_ok hs] at h
      cases n with
      | zero =>
        obtain rfl : o' = o := by simpa using h
        exact ⟨i, s', rfl, hs⟩
      | succ n =>
        obtain ⟨j, t, hj, ht⟩ := ih (n := n) (by simpa using h)
        refine ⟨j, t, by simpa using hj, ?_⟩
        rwa [List.take_succ_cons, run_cons_ok hs]

end Machine

/-! ## Rewriters -/

/-- A one-pass transformation of instruction lists.  The automaton state is what the pass knows
after the instructions it has read. -/
structure Rewriter (π ι κ : Type*) where
  /-- The instruction that replaces the next one, or `none` when it is erased. -/
  emit : π → ι → Option κ
  /-- The automaton state after the next instruction. -/
  next : π → ι → π

namespace Rewriter

variable {π ι κ σ τ ο ο' ε : Type*}

/-- The rewritten instruction list. -/
def run (T : Rewriter π ι κ) : π → List ι → List κ
  | _, [] => []
  | p, i :: is =>
    match T.emit p i with
    | some k => k :: T.run (T.next p i) is
    | none => T.run (T.next p i) is

/-- Which instructions survive. -/
def mask (T : Rewriter π ι κ) : π → List ι → List Bool
  | _, [] => []
  | p, i :: is => (T.emit p i).isSome :: T.mask (T.next p i) is

/-- The automaton state after a whole list. -/
def final (T : Rewriter π ι κ) : π → List ι → π
  | p, [] => p
  | p, i :: is => T.final (T.next p i) is

variable {T : Rewriter π ι κ} {p : π} {i : ι}

lemma run_cons_some {k : κ} (h : T.emit p i = some k) (is : List ι) :
    T.run p (i :: is) = k :: T.run (T.next p i) is := by
  simp [run, h]

lemma run_cons_none (h : T.emit p i = none) (is : List ι) :
    T.run p (i :: is) = T.run (T.next p i) is := by
  simp [run, h]

lemma mask_cons_some {k : κ} (h : T.emit p i = some k) (is : List ι) :
    T.mask p (i :: is) = true :: T.mask (T.next p i) is := by
  simp [mask, h]

lemma mask_cons_none (h : T.emit p i = none) (is : List ι) :
    T.mask p (i :: is) = false :: T.mask (T.next p i) is := by
  simp [mask, h]

/-- A rewriter whose state carries more than it needs runs like the one that does not. -/
lemma run_proj {ρ : Type*} (T : Rewriter π ι κ) (T' : Rewriter ρ ι κ) (f : ρ → π)
    (hemit : ∀ r i, T'.emit r i = T.emit (f r) i) (hnext : ∀ r i, f (T'.next r i) = T.next (f r) i)
    (r : ρ) (is : List ι) :
    T'.run r is = T.run (f r) is ∧ T'.mask r is = T.mask (f r) is ∧
      f (T'.final r is) = T.final (f r) is := by
  induction is generalizing r with
  | nil => exact ⟨rfl, rfl, rfl⟩
  | cons i is ih =>
    obtain ⟨h1, h2, h3⟩ := ih (T'.next r i)
    rw [hnext] at h1 h2 h3
    refine ⟨?_, ?_, h3⟩
    · cases he : T.emit (f r) i with
      | none => rw [run_cons_none ((hemit r i).trans he), run_cons_none he, h1]
      | some k => rw [run_cons_some ((hemit r i).trans he), run_cons_some he, h1]
    · rw [mask, mask, hemit, h2]

/-- Every rewritten instruction replaces one of the source. -/
lemma exists_of_mem_run (T : Rewriter π ι κ) {p : π} {is : List ι} {k : κ} (hk : k ∈ T.run p is) :
    ∃ q, ∃ i ∈ is, T.emit q i = some k := by
  induction is generalizing p with
  | nil => simp [run] at hk
  | cons i is ih =>
    cases he : T.emit p i with
    | none =>
      rw [run_cons_none he] at hk
      obtain ⟨q, j, hj, hjk⟩ := ih hk
      exact ⟨q, j, by simp [hj], hjk⟩
    | some k' =>
      rw [run_cons_some he, List.mem_cons] at hk
      rcases hk with rfl | hk
      · exact ⟨p, i, by simp, he⟩
      · obtain ⟨q, j, hj, hjk⟩ := ih hk
        exact ⟨q, j, by simp [hj], hjk⟩

lemma final_append (T : Rewriter π ι κ) (p : π) (is js : List ι) :
    T.final p (is ++ js) = T.final (T.final p is) js := by
  induction is generalizing p with
  | nil => rfl
  | cons i is ih => exact ih (T.next p i)

/-- The automaton state after one more instruction. -/
lemma final_take_succ (T : Rewriter π ι κ) (p : π) {is : List ι} {n : ℕ} {i : ι}
    (h : is[n]? = some i) : T.final p (is.take (n + 1)) = T.next (T.final p (is.take n)) i := by
  rw [List.take_add_one, h, final_append]
  rfl

/-- The automaton state as a fold. -/
lemma final_eq_foldl (T : Rewriter π ι κ) (p : π) (is : List ι) :
    T.final p is = is.foldl T.next p := by
  induction is generalizing p with
  | nil => rfl
  | cons i is ih => exact ih (T.next p i)

/-- How many of the first `n` instructions survive: where the next one goes. -/
def rank (T : Rewriter π ι κ) (p : π) (is : List ι) (n : ℕ) : ℕ := ((T.mask p is).take n).count true

@[simp] lemma rank_zero (T : Rewriter π ι κ) (p : π) (is : List ι) : T.rank p is 0 = 0 := rfl

lemma rank_cons_succ (T : Rewriter π ι κ) (p : π) (i : ι) (is : List ι) (n : ℕ) :
    T.rank p (i :: is) (n + 1) =
      (if (T.emit p i).isSome then 1 else 0) + T.rank (T.next p i) is n := by
  unfold rank
  rw [mask, List.take_succ_cons, List.count_cons, Nat.add_comm]
  cases T.emit p i <;> rfl

/-- The rewriting of the first `n` instructions. -/
lemma run_take (T : Rewriter π ι κ) (p : π) (is : List ι) (n : ℕ) :
    T.run p (is.take n) = (T.run p is).take (T.rank p is n) := by
  induction is generalizing p n with
  | nil => simp [run]
  | cons i is ih =>
    cases n with
    | zero => simp [run]
    | succ n =>
      rw [List.take_succ_cons, rank_cons_succ]
      cases he : T.emit p i with
      | none => simp [run_cons_none he, ih]
      | some k => simp [run_cons_some he, ih, Nat.add_comm 1]

/-- Where the rewritten instructions come from. -/
lemma getElem?_run_iff (T : Rewriter π ι κ) {p : π} {is : List ι} {m : ℕ} {k : κ} :
    (T.run p is)[m]? = some k ↔ ∃ n i, is[n]? = some i ∧ T.emit (T.final p (is.take n)) i = some k ∧
      T.rank p is n = m := by
  induction is generalizing p m with
  | nil => simp [run]
  | cons j is ih =>
    have hsucc : ∀ {m' : ℕ}, (T.run (T.next p j) is)[m']? = some k ↔ ∃ n i, (j :: is)[n + 1]? = some i ∧
        T.emit (T.final p ((j :: is).take (n + 1))) i = some k ∧ T.rank (T.next p j) is n = m' :=
      fun {m'} => by simpa [final] using @ih (T.next p j) m'
    cases he : T.emit p j with
    | none =>
      rw [run_cons_none he, hsucc]
      constructor
      · rintro ⟨n, i, h1, h2, h3⟩
        exact ⟨n + 1, i, h1, h2, by rw [rank_cons_succ, he]; simpa using h3⟩
      · rintro ⟨n, i, h1, h2, h3⟩
        cases n with
        | zero =>
          obtain rfl : j = i := by simpa using h1
          rw [List.take_zero, final, he] at h2
          cases h2
        | succ n => exact ⟨n, i, h1, h2, by rw [rank_cons_succ, he] at h3; simpa using h3⟩
    | some k' =>
      rw [run_cons_some he]
      cases m with
      | zero =>
        rw [List.getElem?_cons_zero]
        constructor
        · exact fun h => ⟨0, j, rfl, by rw [List.take_zero, final, he, h], rfl⟩
        · rintro ⟨n, i, h1, h2, h3⟩
          cases n with
          | zero =>
            obtain rfl : j = i := by simpa using h1
            rwa [List.take_zero, final, he] at h2
          | succ n =>
            rw [rank_cons_succ, he, Option.isSome_some, if_pos rfl] at h3
            omega
      | succ m =>
        rw [List.getElem?_cons_succ, hsucc]
        constructor
        · rintro ⟨n, i, h1, h2, h3⟩
          exact ⟨n + 1, i, h1, h2, by
            rw [rank_cons_succ, he, Option.isSome_some, if_pos rfl, h3, Nat.add_comm]⟩
        · rintro ⟨n, i, h1, h2, h3⟩
          cases n with
          | zero => simp at h3
          | succ n =>
            refine ⟨n, i, h1, h2, ?_⟩
            rw [rank_cons_succ, he, Option.isSome_some, if_pos rfl] at h3
            omega

/-- Whether the `n`-th instruction survives. -/
lemma mask_getElem? (T : Rewriter π ι κ) (p : π) (is : List ι) (n : ℕ) :
    (T.mask p is)[n]? = is[n]?.map fun i => (T.emit (T.final p (is.take n)) i).isSome := by
  induction is generalizing p n with
  | nil => simp [mask]
  | cons i is ih =>
    cases n with
    | zero => simp [mask, final]
    | succ n => simpa [mask, final] using ih (T.next p i) n

/-- Surviving instructions keep their order. -/
lemma rank_lt (T : Rewriter π ι κ) {p : π} {is : List ι} {m n : ℕ} {i : ι} {k : κ} (hmn : m < n)
    (hi : is[m]? = some i) (he : T.emit (T.final p (is.take m)) i = some k) :
    T.rank p is m < T.rank p is n := by
  induction is generalizing p m n with
  | nil => simp at hi
  | cons j is ih =>
    obtain ⟨n, rfl⟩ := Nat.exists_eq_add_one_of_ne_zero (by omega : n ≠ 0)
    rw [rank_cons_succ]
    cases m with
    | zero =>
      obtain rfl : j = i := by simpa using hi
      rw [List.take_zero, final] at he
      simp only [rank_zero, he, Option.isSome_some, if_true]
      omega
    | succ m =>
      rw [rank_cons_succ]
      have := @ih (T.next p j) m n (by omega) (by simpa using hi) (by simpa [final] using he)
      omega

/-- A rewriter that erases nothing replaces each instruction in its place. -/
lemma run_getElem? (T : Rewriter π ι κ) (hemit : ∀ p i, T.emit p i ≠ none) (p : π) (is : List ι)
    (n : ℕ) : (T.run p is)[n]? = is[n]?.bind (T.emit (T.final p (is.take n))) := by
  induction is generalizing p n with
  | nil => simp [run]
  | cons i is ih =>
    obtain ⟨k, hk⟩ := Option.ne_none_iff_exists'.1 (hemit p i)
    rw [run_cons_some hk]
    cases n with
    | zero => simp [final, hk]
    | succ n => simpa [final] using ih (T.next p i) n

/-- A property of the automaton that every step preserves holds in the end. -/
lemma final_invariant (T : Rewriter π ι κ) {I : π → List ι → Prop}
    (hnext : ∀ p i is, I p (i :: is) → I (T.next p i) is) {p : π} {is : List ι} (h : I p is) :
    I (T.final p is) [] := by
  induction is generalizing p with
  | nil => exact h
  | cons i is ih => exact ih (hnext p i is h)

/-- Every rewritten instruction is emitted at a position of the scan. -/
lemma exists_emit (T : Rewriter π ι κ) {I : π → List ι → Prop}
    (hnext : ∀ p i is, I p (i :: is) → I (T.next p i) is) {p : π} {is : List ι} (h : I p is)
    {k : κ} (hk : k ∈ T.run p is) : ∃ q i js, I q (i :: js) ∧ T.emit q i = some k := by
  induction is generalizing p with
  | nil => simp [run] at hk
  | cons i is ih =>
    cases he : T.emit p i with
    | none =>
      rw [run_cons_none he] at hk
      exact ih (hnext p i is h) hk
    | some k' =>
      rw [run_cons_some he, List.mem_cons] at hk
      rcases hk with rfl | hk
      · exact ⟨p, i, is, h, he⟩
      · exact ih (hnext p i is h) hk

/-- Every source instruction is read at a position of the scan, and what is emitted there is in the
rewritten list. -/
lemma exists_read (T : Rewriter π ι κ) {I : π → List ι → Prop}
    (hnext : ∀ p i is, I p (i :: is) → I (T.next p i) is) {p : π} {is : List ι} (h : I p is)
    {i : ι} (hi : i ∈ is) :
    ∃ q js, I q (i :: js) ∧ ∀ k, T.emit q i = some k → k ∈ T.run p is := by
  induction is generalizing p with
  | nil => simp at hi
  | cons j is ih =>
    rcases List.mem_cons.1 hi with rfl | hi
    · exact ⟨p, is, h, fun k hk => by simp [run_cons_some hk]⟩
    · obtain ⟨q, js, hI, hrun⟩ := ih (hnext p j is h) hi
      refine ⟨q, js, hI, fun k hk => ?_⟩
      cases he : T.emit p j with
      | none =>
        rw [run_cons_none he]
        exact hrun k hk
      | some k' =>
        rw [run_cons_some he]
        exact List.mem_cons_of_mem _ (hrun k hk)

/-- A rewriter that only relates instructions to their replacements relates the survivors. -/
lemma forall₂_run (T : Rewriter π ι κ) {Q : ι → κ → Prop}
    (hQ : ∀ p i k, T.emit p i = some k → Q i k) (p : π) (is : List ι) :
    List.Forall₂ Q (applyMask (T.mask p is) is) (T.run p is) := by
  induction is generalizing p with
  | nil => exact .nil
  | cons i is ih =>
    cases he : T.emit p i with
    | none =>
      rw [run_cons_none he, mask_cons_none he]
      exact ih _
    | some k =>
      rw [run_cons_some he, mask_cons_some he]
      exact .cons (hQ p i k he) (ih _)

/-- The rewriter that erases the instructions a list of marks says. -/
def eraser {ι : Type*} : Rewriter (List Bool) ι ι where
  emit marks i := if marks.headD false then none else some i
  next marks _ := marks.tail

lemma eraser_run {ι : Type*} {marks : List Bool} {is : List ι} (h : marks.length = is.length) :
    eraser.run marks is = applyMask (marks.map not) is ∧
      eraser.mask marks is = marks.map not := by
  induction is generalizing marks with
  | nil =>
    obtain rfl : marks = [] := List.length_eq_zero_iff.1 h
    exact ⟨rfl, rfl⟩
  | cons i is ih =>
    cases marks with
    | nil => simp at h
    | cons m marks =>
      obtain ⟨h1, h2⟩ := ih (by simpa using h)
      cases m with
      | true =>
        have he : (eraser : Rewriter (List Bool) ι ι).emit (true :: marks) i = none := rfl
        rw [run_cons_none he, mask_cons_none he]
        exact ⟨h1, by rw [List.map_cons, Bool.not_true]; exact congrArg _ h2⟩
      | false =>
        have he : (eraser : Rewriter (List Bool) ι ι).emit (false :: marks) i = some i := rfl
        rw [run_cons_some he, mask_cons_some he]
        exact ⟨by rw [List.map_cons, Bool.not_false, applyMask_true_cons]; exact congrArg _ h1,
          by rw [List.map_cons, Bool.not_false]; exact congrArg _ h2⟩

/-- What relates a run of the source to the run of its rewriting: the same failure, related final
states when there is none, and target log entries related one to one to the source's entries at the
surviving instructions. -/
structure Simulated (F : σ → τ → Prop) (Q : ο → ο' → Prop) (mask : List Bool)
    (src : Outcome σ ο ε) (tgt : Outcome τ ο' ε) : Prop where
  error_eq : tgt.error = src.error
  final : src.error = none → F src.state tgt.state
  log : List.Forall₂ Q (applyMask mask src.log) tgt.log

/-- The simulation rule for rewriters.  `R p is s t` relates the states before the instructions
`is` when the automaton is in state `p`.  A kept instruction must fail together with its replacement
or keep the relation; an erased one must not fail and must keep the relation by itself. -/
theorem run_simulates {M : Machine ι σ ο ε} {N : Machine κ τ ο' ε} (T : Rewriter π ι κ)
    {R : π → List ι → σ → τ → Prop} {F : σ → τ → Prop} {Q : ο → ο' → Prop}
    (hnil : ∀ p s t, R p [] s t → F s t)
    (hkeep : ∀ p i k is s t, T.emit p i = some k → R p (i :: is) s t →
      (∃ e, M.step i s = .error e ∧ N.step k t = .error e) ∨
      ∃ s' o t' o', M.step i s = .ok (s', o) ∧ N.step k t = .ok (t', o') ∧ Q o o' ∧
        R (T.next p i) is s' t')
    (hdrop : ∀ p i is s t, T.emit p i = none → R p (i :: is) s t →
      ∃ s' o, M.step i s = .ok (s', o) ∧ R (T.next p i) is s' t)
    {p : π} {is : List ι} {s : σ} {t : τ} (h : R p is s t) :
    Simulated F Q (T.mask p is) (M.run is s) (N.run (T.run p is) t) := by
  induction is generalizing p s t with
  | nil => exact ⟨rfl, fun _ => hnil p s t h, by simp [run]⟩
  | cons i is ih =>
    cases he : T.emit p i with
    | none =>
      obtain ⟨s', o, hs, hR⟩ := hdrop p i is s t he h
      obtain ⟨h1, h2, h3⟩ := ih hR
      rw [run_cons_none he, mask_cons_none he, Machine.run_cons_ok hs]
      exact ⟨h1, h2, h3⟩
    | some k =>
      rw [run_cons_some he, mask_cons_some he]
      rcases hkeep p i k is s t he h with ⟨e, hs, ht⟩ | ⟨s', o, t', o', hs, ht, hQ, hR⟩
      · rw [Machine.run_cons_error hs, Machine.run_cons_error ht]
        exact ⟨rfl, fun h => by simp at h, by simp⟩
      · obtain ⟨h1, h2, h3⟩ := ih hR
        rw [Machine.run_cons_ok hs, Machine.run_cons_ok ht]
        exact ⟨h1, h2, by simpa using ⟨hQ, h3⟩⟩

/-- Two rewritings of the same run compose: erasing twice is erasing once with the composed
mask. -/
lemma Simulated.trans {υ ο'' : Type*} {F : σ → τ → Prop} {F' : τ → υ → Prop} {F'' : σ → υ → Prop}
    {Q : ο → ο' → Prop} {Q' : ο' → ο'' → Prop} {Q'' : ο → ο'' → Prop} {m m' : List Bool}
    {a : Outcome σ ο ε} {b : Outcome τ ο' ε} {c : Outcome υ ο'' ε}
    (hab : Simulated F Q m a b) (hbc : Simulated F' Q' m' b c)
    (hF : ∀ x y z, F x y → F' y z → F'' x z) (hQ : ∀ x y z, Q x y → Q' y z → Q'' x z) :
    Simulated F'' Q'' (composeMask m m') a c := by
  refine ⟨hbc.error_eq.trans hab.error_eq, fun h => ?_, ?_⟩
  · exact hF _ _ _ (hab.final h) (hbc.final (hab.error_eq.trans h))
  · rw [applyMask_composeMask]
    exact forall₂_trans hQ (forall₂_applyMask m' hab.log) hbc.log

end Rewriter

/-! ## Sweeping back -/

/-- A sweep that visits the logged instructions from the last to the first. -/
def backRun {ι ο α : Type*} (back : ι → ο → α → α) : List ι → List ο → α → α
  | i :: is, o :: os, a => back i o (backRun back is os a)
  | _, _, a => a

section BackRun

variable {π ι κ ο ο' α β : Type*}

@[simp] lemma backRun_nil (back : ι → ο → α → α) (os : List ο) (a : α) :
    backRun back [] os a = a := by
  cases os <;> rfl

@[simp] lemma backRun_cons (back : ι → ο → α → α) (i : ι) (is : List ι) (o : ο) (os : List ο)
    (a : α) : backRun back (i :: is) (o :: os) a = back i o (backRun back is os a) := rfl

/-- The simulation rule for sweeps from the last instruction to the first.  `I` is what the forward
direction establishes at each position, `R` what the backward one carries. -/
theorem backRun_simulates {back : ι → ο → α → α} {back' : κ → ο' → β → β} (T : Rewriter π ι κ)
    {I : π → List ι → Prop} {R : π → List ι → α → β → Prop} {Q : ο → ο' → Prop}
    (hnext : ∀ p i is, I p (i :: is) → I (T.next p i) is)
    (hkeep : ∀ p i k is o o' a b, I p (i :: is) → T.emit p i = some k → Q o o' →
      R (T.next p i) is a b → R p (i :: is) (back i o a) (back' k o' b))
    (hdrop : ∀ p i is o a b, I p (i :: is) → T.emit p i = none → R (T.next p i) is a b →
      R p (i :: is) (back i o a) b)
    {p : π} {is : List ι} {os : List ο} {os' : List ο'} {a : α} {b : β} (hI : I p is)
    (hlen : os.length = is.length) (hlog : List.Forall₂ Q (applyMask (T.mask p is) os) os')
    (h : R (T.final p is) [] a b) :
    R p is (backRun back is os a) (backRun back' (T.run p is) os' b) := by
  induction is generalizing p os os' with
  | nil => simpa [Rewriter.run, Rewriter.final] using h
  | cons i is ih =>
    obtain ⟨o, os, rfl⟩ : ∃ o os', os = o :: os' := by
      cases os with
      | nil => simp at hlen
      | cons o os => exact ⟨o, os, rfl⟩
    have hlen' : os.length = is.length := by simpa using hlen
    have hI' := hnext p i is hI
    cases he : T.emit p i with
    | none =>
      rw [Rewriter.mask_cons_none he, applyMask_false_cons] at hlog
      rw [Rewriter.run_cons_none he, backRun_cons]
      exact hdrop p i is o _ _ hI he (ih hI' hlen' hlog h)
    | some k =>
      rw [Rewriter.mask_cons_some he, applyMask_true_cons] at hlog
      obtain ⟨o', os'', hQ, hlog', rfl⟩ : ∃ o' os'', Q o o' ∧
          List.Forall₂ Q (applyMask (T.mask (T.next p i) is) os) os'' ∧ os' = o' :: os'' := by
        cases hlog with
        | cons hQ hlog' => exact ⟨_, _, hQ, hlog', rfl⟩
      rw [Rewriter.run_cons_some he, backRun_cons, backRun_cons]
      exact hkeep p i k is o o' _ _ hI he hQ (ih hI' hlen' hlog' h)

end BackRun

end Stanli
