import Mathlib.Algebra.BigOperators.Group.List.Basic
import Mathlib.Algebra.Group.Action.Pi
import Mathlib.Algebra.Module.Defs
import Mathlib.Order.Filter.Basic
import Mathlib.Tactic.Common

/-!
# Explicit steppers

For given step sizes an explicit integrator is a list of moves on a tape of vectors: it evaluates the
right-hand side at a vector of the tape, forms a linear combination of vectors of the tape, or hands
one to an observer (`Move`).  The right-hand side and the observer may fail, and both act on a state
(`System`).

Two systems that agree under a linear relation of vectors stay related over a whole run
(`tracks_run`).  A property of the points of evaluation carries over (`along_of_tracks`), and one that
holds near a parameter at each point holds near it at all of them (`eventually_along`).
-/

namespace Stepper

/-- One move of an explicit integrator. -/
inductive Move (K : Type*)
  | evaluate (time : K) (src : ℕ)
  | combine (terms : List (K × ℕ))
  | observe (src : ℕ)

/-- A right-hand side and an observer. -/
structure System (K X E σ : Type*) where
  rhs : σ → K → X → Except E (X × σ)
  observe : σ → X → Except E σ

/-- Two fallible results: related values, or the same error. -/
def Tracks {E α β : Type*} (Q : α → β → Prop) (r : Except E α) (r' : Except E β) : Prop :=
  (∀ a, r = .ok a → ∃ b, r' = .ok b ∧ Q a b) ∧ ∀ e, r = .error e → r' = .error e

section Tracks

variable {E α β γ δ : Type*} {Q : α → β → Prop} {Q' : γ → δ → Prop} {r : Except E α}
  {r' : Except E β}

lemma tracks_ok {a : α} {b : β} (h : Q a b) : Tracks (E := E) Q (.ok a) (.ok b) :=
  ⟨fun _ ha => ⟨b, rfl, Except.ok.inj ha ▸ h⟩, fun _ he => by cases he⟩

lemma tracks_error (e : E) : Tracks Q (.error e : Except E α) (.error e) := by
  constructor
  · intro a ha
    cases ha
  · intro e' he
    exact congrArg _ (Except.error.inj he)

lemma Tracks.map_left (h : Tracks Q r r') (P : γ → β → Prop) {f : α → γ}
    (hf : ∀ a b, Q a b → P (f a) b) : Tracks P (r.map f) r' := by
  cases r with
  | error e =>
    rw [h.2 e rfl]
    exact tracks_error e
  | ok a =>
    obtain ⟨b, hb, hQ⟩ := h.1 a rfl
    rw [hb]
    exact tracks_ok (hf a b hQ)

lemma Tracks.map_right (h : Tracks Q r r') (P : α → δ → Prop) {g : β → δ}
    (hg : ∀ a b, Q a b → P a (g b)) : Tracks P r (r'.map g) := by
  cases r with
  | error e =>
    rw [h.2 e rfl]
    exact tracks_error e
  | ok a =>
    obtain ⟨b, hb, hQ⟩ := h.1 a rfl
    rw [hb]
    exact tracks_ok (hg a b hQ)

lemma Tracks.map (h : Tracks Q r r') {f : α → γ} {g : β → δ} (P : γ → δ → Prop)
    (hfg : ∀ a b, Q a b → P (f a) (g b)) : Tracks P (r.map f) (r'.map g) :=
  (h.map_left (fun c b => P c (g b)) hfg).map_right P fun _ _ h => h

lemma map_map (r : Except E α) (f : α → β) (g : β → γ) :
    (r.map f).map g = r.map fun a => g (f a) := by
  cases r <;> rfl

lemma Tracks.bind (h : Tracks Q r r') {f : α → Except E γ} {g : β → Except E δ}
    (hfg : ∀ a b, r = .ok a → r' = .ok b → Q a b → Tracks Q' (f a) (g b)) :
    Tracks Q' (r.bind f) (r'.bind g) := by
  cases r with
  | error e =>
    rw [h.2 e rfl]
    exact tracks_error e
  | ok a =>
    obtain ⟨b, hb, hQ⟩ := h.1 a rfl
    rw [hb]
    exact hfg a b rfl hb hQ

/-- The results that go on, backwards. -/
lemma Tracks.of_ok (h : Tracks Q r r') {b : β} (hb : r' = .ok b) : ∃ a, r = .ok a ∧ Q a b := by
  cases r with
  | error e =>
    rw [h.2 e rfl] at hb
    cases hb
  | ok a =>
    obtain ⟨b', hb', hQ⟩ := h.1 a rfl
    obtain rfl : b' = b := Except.ok.inj (hb'.symm.trans hb)
    exact ⟨a, rfl, hQ⟩

lemma Tracks.mono (h : Tracks Q r r') {Q'' : α → β → Prop} (hQ : ∀ a b, Q a b → Q'' a b) :
    Tracks Q'' r r' := by
  refine ⟨fun a ha => ?_, h.2⟩
  obtain ⟨b, hb, hab⟩ := h.1 a ha
  exact ⟨b, hb, hQ a b hab⟩

lemma Tracks.symm (h : Tracks Q r r') : Tracks (fun b a => Q a b) r' r := by
  cases r with
  | error e =>
    rw [h.2 e rfl]
    exact tracks_error e
  | ok a =>
    obtain ⟨b, hb, hQ⟩ := h.1 a rfl
    rw [hb]
    exact tracks_ok hQ

end Tracks

/-! ## Runs -/

section Runs

variable {K X E σ : Type*} [SMul K X] [AddCommMonoid X]

/-- Vector `k` of a tape. -/
def entry (tape : List X) (k : ℕ) : X := tape.getD k 0

/-- A linear combination of vectors of a tape. -/
def combination (tape : List X) (terms : List (K × ℕ)) : X :=
  (terms.map fun c => c.1 • entry tape c.2).sum

/-- One move: the tape and the state after it. -/
def Move.run (sys : System K X E σ) (tape : List X) (s : σ) : Move K → Except E (List X × σ)
  | .evaluate time src => (sys.rhs s time (entry tape src)).map fun r => (tape ++ [r.1], r.2)
  | .combine terms => .ok (tape ++ [combination tape terms], s)
  | .observe src => (sys.observe s (entry tape src)).map fun s => (tape, s)

/-- A list of moves. -/
def run (sys : System K X E σ) : List (Move K) → List X → σ → Except E (List X × σ)
  | [], tape, s => .ok (tape, s)
  | m :: ms, tape, s => (m.run sys tape s).bind fun r => run sys ms r.1 r.2

/-- The point at which a move evaluates the right-hand side satisfies `D`. -/
def Move.Meets (D : K → X → Prop) (tape : List X) : Move K → Prop
  | .evaluate time src => D time (entry tape src)
  | _ => True

/-- Every point at which a run evaluates the right-hand side satisfies `D`. -/
def Along (sys : System K X E σ) (D : K → X → Prop) : List (Move K) → List X → σ → Prop
  | [], _, _ => True
  | m :: ms, tape, s =>
    m.Meets D tape ∧ ∀ r, m.run sys tape s = .ok r → Along sys D ms r.1 r.2

/-- Finitely many points: what holds near a parameter at each of them holds near it at all. -/
theorem eventually_along {P : Type*} {l : Filter P} {sys : System K X E σ} {D : P → K → X → Prop}
    {ms : List (Move K)} {tape : List X} {s : σ}
    (h : Along sys (fun t x => ∀ᶠ p in l, D p t x) ms tape s) :
    ∀ᶠ p in l, Along sys (D p) ms tape s := by
  induction ms generalizing tape s with
  | nil => exact Filter.Eventually.of_forall fun _ => trivial
  | cons m ms ih =>
    have hm : ∀ᶠ p in l, m.Meets (D p) tape := by
      cases m with
      | evaluate time src => exact h.1
      | _ => exact Filter.Eventually.of_forall fun _ => trivial
    cases hr : m.run sys tape s with
    | error e =>
      refine hm.mono fun p hp => ⟨hp, fun r hr' => ?_⟩
      rw [hr] at hr'
      cases hr'
    | ok r =>
      filter_upwards [hm, ih (h.2 r hr)] with p hp hrest
      refine ⟨hp, fun r' hr' => ?_⟩
      obtain rfl : r = r' := Except.ok.inj (hr.symm.trans hr')
      exact hrest

/-- Every point satisfies what all points satisfy. -/
lemma along_of_forall {sys : System K X E σ} {D : K → X → Prop} (h : ∀ t x, D t x)
    (ms : List (Move K)) (tape : List X) (s : σ) : Along sys D ms tape s := by
  induction ms generalizing tape s with
  | nil => trivial
  | cons m ms ih =>
    refine ⟨?_, fun r _ => ih r.1 r.2⟩
    cases m with
    | evaluate time src => exact h time _
    | _ => trivial

end Runs

/-! ## Related systems -/

/-- A relation that is a linear subspace of the pairs. -/
structure IsLinear (K : Type*) {X Y : Type*} [SMul K X] [AddCommMonoid X] [SMul K Y]
    [AddCommMonoid Y] (R : X → Y → Prop) : Prop where
  zero : R 0 0
  add : ∀ x x' y y', R x y → R x' y' → R (x + x') (y + y')
  smul : ∀ (c : K) x y, R x y → R (c • x) (c • y)

section Related

variable {K X Y E σ τ : Type*} [SMul K X] [AddCommMonoid X] [SMul K Y] [AddCommMonoid Y]
  {R : X → Y → Prop}

lemma IsLinear.entry (hR : IsLinear K R) {tape : List X} {tape' : List Y}
    (h : List.Forall₂ R tape tape') (k : ℕ) : R (entry tape k) (entry tape' k) := by
  induction h generalizing k with
  | nil => exact hR.zero
  | cons hxy _ ih =>
    cases k with
    | zero => exact hxy
    | succ k => exact ih k

lemma IsLinear.combination (hR : IsLinear K R) {tape : List X} {tape' : List Y}
    (h : List.Forall₂ R tape tape') (terms : List (K × ℕ)) :
    R (combination tape terms) (combination tape' terms) := by
  induction terms with
  | nil => exact hR.zero
  | cons c terms ih =>
    exact hR.add _ _ _ _ (hR.smul c.1 _ _ (hR.entry h c.2)) ih

/-- Two systems do alike at related points that satisfy `D`. -/
structure Simulates (R : X → Y → Prop) (S : σ → τ → Prop) (D : K → X → Prop) (f : System K X E σ)
    (g : System K Y E τ) : Prop where
  linear : IsLinear K R
  rhs : ∀ t x y s s', D t x → R x y → S s s' →
    Tracks (fun r r' => R r.1 r'.1 ∧ S r.2 r'.2) (f.rhs s t x) (g.rhs s' t y)
  observe : ∀ x y s s', R x y → S s s' → Tracks S (f.observe s x) (g.observe s' y)

variable {S : σ → τ → Prop} {D : K → X → Prop} {f : System K X E σ} {g : System K Y E τ}

/-- One move of related systems. -/
lemma Simulates.move (h : Simulates R S D f g) {tape : List X} {tape' : List Y} {s : σ} {s' : τ}
    {m : Move K} (hm : m.Meets D tape) (htape : List.Forall₂ R tape tape') (hs : S s s') :
    Tracks (fun r r' => List.Forall₂ R r.1 r'.1 ∧ S r.2 r'.2) (m.run f tape s) (m.run g tape' s') := by
  cases m with
  | evaluate time src =>
    refine (h.rhs time _ _ s s' hm (h.linear.entry htape src) hs).map _ fun r r' hr => ⟨?_, hr.2⟩
    exact List.rel_append htape (.cons hr.1 .nil)
  | combine terms =>
    exact tracks_ok ⟨List.rel_append htape (.cons (h.linear.combination htape terms) .nil), hs⟩
  | observe src =>
    exact (h.observe _ _ s s' (h.linear.entry htape src) hs).map _ fun _ _ hr => ⟨htape, hr⟩

/-- Related systems stay related over a run. -/
theorem tracks_run (h : Simulates R S D f g) (ms : List (Move K)) (tape : List X) (tape' : List Y)
    (s : σ) (s' : τ) (hD : Along f D ms tape s) (htape : List.Forall₂ R tape tape') (hs : S s s') :
    Tracks (fun r r' => List.Forall₂ R r.1 r'.1 ∧ S r.2 r'.2) (run f ms tape s)
      (run g ms tape' s') := by
  induction ms generalizing tape tape' s s' with
  | nil => exact tracks_ok ⟨htape, hs⟩
  | cons m ms ih =>
    exact (h.move hD.1 htape hs).bind fun r r' hr _ hQ => ih r.1 r'.1 r.2 r'.2 (hD.2 r hr) hQ.1 hQ.2

/-- What holds at the points of evaluation of one holds at those of the other. -/
theorem along_of_tracks (h : Simulates R S D f g) (D' : K → Y → Prop)
    (hDD : ∀ t x y, D t x → R x y → D' t y) {ms : List (Move K)} {tape : List X} {tape' : List Y}
    {s : σ} {s' : τ} (hD : Along f D ms tape s) (htape : List.Forall₂ R tape tape') (hs : S s s') :
    Along g D' ms tape' s' := by
  induction ms generalizing tape tape' s s' with
  | nil => trivial
  | cons m ms ih =>
    refine ⟨?_, fun r' hr' => ?_⟩
    · cases m with
      | evaluate time src => exact hDD time _ _ hD.1 (h.linear.entry htape src)
      | _ => trivial
    · obtain ⟨r, hr, hQ⟩ := (h.move hD.1 htape hs).of_ok hr'
      exact ih (hD.2 r hr) hQ.1 hQ.2

end Related

/-! ## Collecting what is observed -/

section Collect

variable {K X Y E : Type*}

/-- A right-hand side without a state, and an observer that keeps at most `n` vectors. -/
def collecting (n : ℕ) (tooMany : E) (rhs : K → X → Except E X) : System K X E (List X) where
  rhs seen t x := (rhs t x).map fun x => (x, seen)
  observe seen x := if seen.length < n then .ok (seen ++ [x]) else .error tooMany

/-- The vectors a run from `x` observes. -/
def observed [SMul K X] [AddCommMonoid X] (n : ℕ) (tooMany : E) (rhs : K → X → Except E X)
    (ms : List (Move K)) (x : X) : Except E (List X) :=
  (run (collecting n tooMany rhs) ms [x] []).map Prod.snd

variable [SMul K X] [AddCommMonoid X] [SMul K Y] [AddCommMonoid Y] {R : X → Y → Prop}
  {D : K → X → Prop} {f : K → X → Except E X} {g : K → Y → Except E Y}

/-- Related right-hand sides observe related vectors. -/
lemma simulates_collecting (hR : IsLinear K R) (n : ℕ) (tooMany : E)
    (h : ∀ t x y, D t x → R x y → Tracks R (f t x) (g t y)) :
    Simulates R (List.Forall₂ R) D (collecting n tooMany f) (collecting n tooMany g) where
  linear := hR
  rhs t x y s s' hD hxy hs := (h t x y hD hxy).map _ fun _ _ hr => ⟨hr, hs⟩
  observe x y s s' hxy hs := by
    simp only [collecting, hs.length_eq]
    split
    · exact tracks_ok (List.rel_append hs (.cons hxy .nil))
    · exact tracks_error tooMany

/-- The observations of related systems. -/
theorem tracks_observed (hR : IsLinear K R) (n : ℕ) (tooMany : E)
    (h : ∀ t x y, D t x → R x y → Tracks R (f t x) (g t y)) (ms : List (Move K)) {x : X} {y : Y}
    (hD : Along (collecting n tooMany f) D ms [x] []) (hxy : R x y) :
    Tracks (List.Forall₂ R) (observed n tooMany f ms x) (observed n tooMany g ms y) :=
  (tracks_run (simulates_collecting hR n tooMany h) ms [x] [y] [] [] hD (.cons hxy .nil) .nil).map _
    fun _ _ hr => hr.2

end Collect

end Stepper
