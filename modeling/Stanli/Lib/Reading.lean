import Mathlib.Algebra.Group.Defs
import Mathlib.Data.List.Forall2
import Mathlib.Tactic.Common

namespace Stanli

/-! ### Readers that pay for what they read

A reader is a fallible function on a state. What it takes from the state is an element of an
additive monoid `M` (the input it passes over together with what reading it costs), and a relation
`R s p s'` says that `s'` is `s` once the portion `p` is taken. A reader is complete for a portion
when it succeeds wherever that portion can be taken, and sound for a predicate when every success
is the taking of a portion the predicate allows. -/

section Reading

universe u

variable {σ α β : Type u} {ε M : Type*}

/-- `R` takes a sum of portions one after the other. -/
structure Splitting [AddMonoid M] (R : σ → M → σ → Prop) : Prop where
  zero : ∀ {s s'}, R s 0 s' → s' = s
  add : ∀ {s s'' a b}, R s (a + b) s'' → ∃ s', R s a s' ∧ R s' b s''

/-- Portions that `R` takes one after the other it takes as their sum. -/
structure Joining [AddMonoid M] (R : σ → M → σ → Prop) : Prop where
  zero : ∀ s, R s 0 s
  add : ∀ {s s' s'' a b}, R s a s' → R s' b s'' → R s (a + b) s''

/-- Wherever the portion `p` can be taken, the reader takes it and returns `v`. -/
def Delivers (R : σ → M → σ → Prop) (m : StateT σ (Except ε) α) (p : M) (v : α) : Prop :=
  ∀ s s', R s p s' → m s = .ok (v, s')

/-- Whatever the reader returns, it took a portion that `Q` allows for it. -/
def Gathers (R : σ → M → σ → Prop) (m : StateT σ (Except ε) α) (Q : α → M → Prop) : Prop :=
  ∀ s v s', m s = .ok (v, s') → ∃ p, Q v p ∧ R s p s'

variable {R R' : σ → M → σ → Prop} {m : StateT σ (Except ε) α} {f : α → StateT σ (Except ε) β}

theorem bind_eq_ok {s s'' : σ} {w : β} :
    (m >>= f) s = .ok (w, s'') ↔ ∃ v s', m s = .ok (v, s') ∧ f v s' = .ok (w, s'') := by
  change (m s >>= fun x => f x.1 x.2) = _ ↔ _
  cases h : m s with
  | error e => simp [bind, Except.bind]
  | ok x => simp [bind, Except.bind, Prod.ext_iff]

/-! ### Complete readers -/

theorem Delivers.mono {p : M} {v : α} (hR : ∀ s q s', R' s q s' → R s q s')
    (h : Delivers R m p v) : Delivers R' m p v :=
  fun s s' hs => h s s' (hR s p s' hs)

variable [AddMonoid M]

theorem Splitting.pure (hR : Splitting R) (v : α) :
    Delivers R (Pure.pure v : StateT σ (Except ε) α) 0 v := by
  intro s s' h
  rw [hR.zero h]
  rfl

theorem Splitting.bind {p q : M} {v : α} {w : β} (hR : Splitting R) (hm : Delivers R m p v)
    (hf : Delivers R (f v) q w) : Delivers R (m >>= f) (p + q) w := by
  intro s s'' h
  obtain ⟨s', hp, hq⟩ := hR.add h
  exact bind_eq_ok.2 ⟨v, s', hm s s' hp, hf s' s'' hq⟩

/-- A reader that only reshapes what another one reads. -/
theorem Splitting.map {p : M} {v : α} (hR : Splitting R) (g : α → β) (hm : Delivers R m p v) :
    Delivers R (m >>= fun x => Pure.pure (g x)) p (g v) := by
  have h := hR.bind (f := fun x => Pure.pure (g x)) hm (hR.pure (g v))
  rwa [add_zero] at h

/-! ### Sound readers -/

omit [AddMonoid M] in
theorem Gathers.mono {Q Q' : α → M → Prop} (h : Gathers R m Q) (hQ : ∀ v p, Q v p → Q' v p) :
    Gathers R m Q' := by
  intro s v s' hm
  obtain ⟨p, hp, hs⟩ := h s v s' hm
  exact ⟨p, hQ v p hp, hs⟩

theorem Joining.pure {Q : α → M → Prop} {v : α} (hR : Joining R) (hv : Q v 0) :
    Gathers R (Pure.pure v : StateT σ (Except ε) α) Q := by
  intro s w s' h
  cases h
  exact ⟨0, hv, hR.zero s⟩

omit [AddMonoid M] in
theorem Gathers.throw {Q : α → M → Prop} (e : σ → ε) :
    Gathers R (fun s => .error (e s) : StateT σ (Except ε) α) Q := by
  intro s v s' h
  cases h

theorem Joining.bind {Q : α → M → Prop} {Q' : β → M → Prop} (hR : Joining R) (hm : Gathers R m Q)
    (hf : ∀ v p, Q v p → Gathers R (f v) (fun w q => Q' w (p + q))) :
    Gathers R (m >>= f) Q' := by
  intro s w s'' h
  obtain ⟨v, s', h₁, h₂⟩ := bind_eq_ok.1 h
  obtain ⟨p, hp, hs⟩ := hm s v s' h₁
  obtain ⟨q, hq, hs'⟩ := hf v p hp s' w s'' h₂
  exact ⟨p + q, hq, hR.add hs hs'⟩

/-! ### A fixed number of items -/

/-- Read `n` items in order. -/
def readTimes (m : StateT σ (Except ε) α) : ℕ → StateT σ (Except ε) (List α)
  | 0 => Pure.pure []
  | n + 1 => do
    let x ← m
    let xs ← readTimes m n
    Pure.pure (x :: xs)

theorem Splitting.readTimes {ι : Type*} (hR : Splitting R) (portion : ι → M) (value : ι → α)
    (ws : List ι) (hm : ∀ w ∈ ws, Delivers R m (portion w) (value w)) :
    Delivers R (readTimes m ws.length) (ws.map portion).sum (ws.map value) := by
  induction ws with
  | nil => exact hR.pure []
  | cons w ws ih =>
    simp only [List.length_cons, List.map_cons, List.sum_cons]
    have hws := ih fun x hx => hm x (List.mem_cons_of_mem w hx)
    exact hR.bind (hm w List.mem_cons_self) (hR.map (fun xs => value w :: xs) hws)

theorem Joining.readTimes {Q : α → M → Prop} (hR : Joining R) (hm : Gathers R m Q) (n : ℕ) :
    Gathers R (readTimes m n)
      (fun vs p => vs.length = n ∧ ∃ ps : List M, List.Forall₂ Q vs ps ∧ p = ps.sum) := by
  induction n with
  | zero => exact hR.pure ⟨rfl, [], List.Forall₂.nil, rfl⟩
  | succ n ih =>
    refine hR.bind hm fun x p hx => hR.bind ih fun xs q hxs => hR.pure ?_
    obtain ⟨hlen, ps, hps, rfl⟩ := hxs
    exact ⟨by rw [List.length_cons, hlen], p :: ps, List.Forall₂.cons hx hps, by
      rw [List.sum_cons, add_zero]⟩

end Reading

end Stanli
