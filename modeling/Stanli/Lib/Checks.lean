import Mathlib.Data.List.Forall2
import Mathlib.Data.List.GetD
import Mathlib.Tactic.Common

/-!
# Checks that may fail

Code that checks one thing after the other and stops at the first that fails.  A run that succeeds has
passed every check and gone on with the value of every step; a loop that succeeds has the value of every
iteration.
-/

namespace Stanli

universe u v

variable {ε : Type u} {α β : Type v}

/-- Stop with this failure if the condition holds. -/
def failIf (p : Prop) [Decidable p] (e : ε) : Except ε Unit := if p then .error e else .ok ()

@[simp] theorem failIf_eq_ok {p : Prop} [Decidable p] {e : ε} {u : Unit} : failIf p e = .ok u ↔ ¬p := by
  rw [failIf]
  split <;> simp [*]

theorem ok_bind (a : α) (f : α → Except ε β) : (Except.ok a >>= f) = f a := rfl

theorem bind_eq_ok_iff {x : Except ε α} {f : α → Except ε β} {b : β} :
    x >>= f = .ok b ↔ ∃ a, x = .ok a ∧ f a = .ok b := by
  cases x with
  | error e => simp [bind, Except.bind]
  | ok a => simp [bind, Except.bind]

theorem mapError_eq_ok_iff {ε' : Type*} {x : Except ε α} {f : ε → ε'} {a : α} :
    x.mapError f = .ok a ↔ x = .ok a := by
  cases x with
  | error e => simp [Except.mapError]
  | ok b => simp [Except.mapError]

/-! ## Loops -/

theorem mapM_cons_eq_ok_iff {α : Type*} {f : α → Except ε β} {a : α} {as : List α} {bs : List β} :
    (a :: as).mapM f = .ok bs ↔ ∃ b, f a = .ok b ∧ ∃ bs', as.mapM f = .ok bs' ∧ bs = b :: bs' := by
  rw [List.mapM_cons, bind_eq_ok_iff]
  simp only [bind_eq_ok_iff, pure, Except.pure, Except.ok.injEq]
  simp only [eq_comm]

/-- A loop succeeds with what its iterations give. -/
theorem mapM_eq_ok_iff {α : Type*} {f : α → Except ε β} {as : List α} {bs : List β} :
    as.mapM f = .ok bs ↔ List.Forall₂ (fun a b => f a = .ok b) as bs := by
  induction as generalizing bs with
  | nil =>
    simp only [List.mapM_nil, pure, Except.pure, Except.ok.injEq, List.forall₂_nil_left_iff]
    exact eq_comm
  | cons a as ih =>
    rw [mapM_cons_eq_ok_iff]
    constructor
    · rintro ⟨b, hb, bs', hbs, rfl⟩
      exact .cons hb (ih.1 hbs)
    · rintro (_ | ⟨hb, hbs⟩)
      exact ⟨_, hb, _, ih.2 hbs, rfl⟩

/-- A counted loop: the value of every iteration. -/
theorem mapM_range_eq_ok {n : ℕ} {f : ℕ → Except ε β} {bs : List β}
    (h : (List.range n).mapM f = .ok bs) :
    bs.length = n ∧ ∀ (i : ℕ) (d : β), i < n → f i = .ok (bs.getD i d) := by
  rw [mapM_eq_ok_iff, List.forall₂_iff_get] at h
  obtain ⟨hlen, h⟩ := h
  rw [List.length_range] at hlen
  refine ⟨hlen.symm, fun i d hi => ?_⟩
  rw [List.getD_eq_getElem _ _ (by omega)]
  simpa using h i (by simpa using hi) (by omega)

/-- A counted loop of steps that all succeed. -/
theorem mapM_range_ok {n : ℕ} {f : ℕ → Except ε β} {g : ℕ → β} (h : ∀ i < n, f i = .ok (g i)) :
    (List.range n).mapM f = .ok ((List.range n).map g) := by
  rw [mapM_eq_ok_iff, List.forall₂_map_right_iff, List.forall₂_same]
  exact fun i hi => h i (List.mem_range.1 hi)

/-- A counted loop whose steps succeed and keep an invariant. -/
theorem foldlM_range_ok {σ : Type v} {n : ℕ} {f : σ → ℕ → Except ε σ} (Inv : ℕ → σ → Prop) {s : σ}
    (hstep : ∀ i < n, ∀ s, Inv i s → ∃ s', f s i = .ok s' ∧ Inv (i + 1) s') (hs : Inv 0 s) :
    ∃ s', (List.range n).foldlM f s = .ok s' ∧ Inv n s' := by
  induction n with
  | zero => exact ⟨s, rfl, hs⟩
  | succ n ih =>
    obtain ⟨s₁, hs₁, hinv₁⟩ := ih fun i hi => hstep i (Nat.lt_succ_of_lt hi)
    obtain ⟨s₂, hs₂, hinv₂⟩ := hstep n (Nat.lt_succ_self n) s₁ hinv₁
    refine ⟨s₂, ?_, hinv₂⟩
    rw [List.range_succ, List.foldlM_append, bind_eq_ok_iff]
    refine ⟨s₁, hs₁, ?_⟩
    rw [List.foldlM_cons, bind_eq_ok_iff]
    exact ⟨s₂, hs₂, rfl⟩

/-- A counted loop of checks that all pass. -/
theorem foldlM_range_checks {n : ℕ} {f : Unit → ℕ → Except ε Unit} (h : ∀ i < n, f () i = .ok ()) :
    (List.range n).foldlM f () = .ok () := by
  obtain ⟨_, hrun, -⟩ := foldlM_range_ok (fun _ (_ : Unit) => True) (f := f) (s := ())
    (fun i hi _ _ => ⟨(), h i hi, trivial⟩) trivial
  exact hrun

/-- A search over a counted range whose tests all succeed. -/
theorem anyM_range_ok {n : ℕ} {f : ℕ → Except ε Bool} {g : ℕ → Bool} (h : ∀ i < n, f i = .ok (g i)) :
    (List.range n).anyM f = .ok ((List.range n).any g) := by
  have hgen : ∀ l : List ℕ, (∀ i ∈ l, i < n) → l.anyM f = .ok (l.any g) := by
    intro l hl
    induction l with
    | nil => rfl
    | cons a l ih =>
      have ha := h a (hl a List.mem_cons_self)
      have hrest := ih fun i hi => hl i (List.mem_cons_of_mem _ hi)
      rw [List.anyM_cons, ha, List.any_cons]
      cases hg : g a with
      | true => rfl
      | false => exact hrest
  exact hgen _ fun i hi => List.mem_range.1 hi

end Stanli
