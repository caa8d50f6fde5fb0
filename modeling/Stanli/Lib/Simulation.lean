import Stanli.Lib.Branching

/-!
# Answering steps by executions

A pass that moves instructions leaves a program that answers one step of the old one by several steps
of its own, or by none.  `Branching.Answers` is such a simulation, with what either machine shows at a
visited position; it carries executions of any length (`Answers.execution`) and whole runs
(`Answers.ends_run`).
-/

namespace Stanli

namespace Branching

variable {ι κ σ τ ε γ : Type*}

/-- What an execution shows. -/
def shows (obs : ℕ × σ → List γ) (vs : List (ℕ × σ)) : List γ := vs.flatMap obs

@[simp] lemma shows_append (obs : ℕ × σ → List γ) (vs ws : List (ℕ × σ)) :
    shows obs (vs ++ ws) = shows obs vs ++ shows obs ws := List.flatMap_append ..

@[simp] lemma shows_singleton (obs : ℕ × σ → List γ) (v : ℕ × σ) : shows obs [v] = obs v := by
  simp [shows]

/-- A machine on `code'` answers every step of a machine on `code`: from related states at a position
and its image it executes to the image of where the step goes, shows the same, and fails where the
step fails.  Behind the code it executes to its own end, and shows `tail`. -/
structure Answers (B : Branching ι σ ε) (C : Branching κ τ ε) (code : List ι) (code' : List κ)
    (pos : ℕ → ℕ) (obs : ℕ × σ → List γ) (obs' : ℕ × τ → List γ) (tail : List γ)
    (R : ℕ → σ → τ → Prop) (Q : σ → τ → Prop) : Prop where
  answers : ∀ k i s t s', R k s t → code[k]? = some i → B.exec i s = .ok s' →
    ∃ ws t', C.Steps code' (pos k) t ws (pos (B.next i k s)) t' ∧ shows obs' ws = obs (k, s) ∧
      R (B.next i k s) s' t'
  fails : ∀ k i s t e, R k s t → code[k]? = some i → B.exec i s = .error e →
    ∃ us k' t' i', C.Steps code' (pos k) t us k' t' ∧ code'[k']? = some i' ∧
      C.exec i' t' = .error e ∧ shows obs' (us ++ [(k', t')]) = obs (k, s)
  ends : ∀ k s t, R k s t → code[k]? = none →
    ∃ ws k' t', C.Steps code' (pos k) t ws k' t' ∧ code'[k']? = none ∧ shows obs' ws = tail ∧ Q s t'

/-- An execution of any length is answered. -/
theorem Answers.execution {B : Branching ι σ ε} {C : Branching κ τ ε} {code : List ι} {code' : List κ}
    {pos : ℕ → ℕ} {obs : ℕ × σ → List γ} {obs' : ℕ × τ → List γ} {tail : List γ}
    {R : ℕ → σ → τ → Prop} {Q : σ → τ → Prop} (h : Answers B C code code' pos obs obs' tail R Q)
    {k k' : ℕ} {s s' : σ} {t : τ} (hR : R k s t) {vs : List (ℕ × σ)}
    (hsteps : B.Steps code k s vs k' s') :
    ∃ ws t', C.Steps code' (pos k) t ws (pos k') t' ∧ shows obs' ws = shows obs vs ∧ R k' s' t' := by
  induction hsteps with
  | refl => exact ⟨[], t, .refl, rfl, hR⟩
  | @step vs k' s₁ s₂ i hsteps hi he ih =>
    obtain ⟨ws, t₁, hws, hobs, hR₁⟩ := ih
    obtain ⟨us, t₂, hus, hobs', hR₂⟩ := h.answers k' i s₁ t₁ s₂ hR₁ hi he
    refine ⟨ws ++ us, t₂, hws.trans hus, ?_, hR₂⟩
    rw [shows_append, shows_append, shows_singleton, hobs, hobs']

/-- A run is answered by a run. -/
theorem Answers.ends_run {B : Branching ι σ ε} {C : Branching κ τ ε} {code : List ι} {code' : List κ}
    {pos : ℕ → ℕ} {obs : ℕ × σ → List γ} {obs' : ℕ × τ → List γ} {tail : List γ}
    {R : ℕ → σ → τ → Prop} {Q : σ → τ → Prop} (h : Answers B C code code' pos obs obs' tail R Q)
    {k : ℕ} {s : σ} {t : τ} (hR : R k s t) {vs : List (ℕ × σ)} {r : Except ε σ}
    (hends : B.Ends code k s vs r) :
    (∃ s' ws t', r = .ok s' ∧ C.Ends code' (pos k) t ws (.ok t') ∧
      shows obs' ws = shows obs vs ++ tail ∧ Q s' t') ∨
    ∃ e ws, r = .error e ∧ C.Ends code' (pos k) t ws (.error e) ∧ shows obs' ws = shows obs vs := by
  rcases hends with ⟨k', s', hsteps, hend, rfl⟩ | ⟨us, k', s', i, e, hsteps, rfl, hi, he, rfl⟩
  · obtain ⟨ws, t', hws, hobs, hR'⟩ := h.execution hR hsteps
    obtain ⟨us, k'', t'', hus, hend', htail, hQ⟩ := h.ends k' s' t' hR' hend
    refine Or.inl ⟨s', ws ++ us, t'', rfl, Or.inl ⟨k'', t'', hws.trans hus, hend', rfl⟩, ?_, hQ⟩
    rw [shows_append, hobs, htail]
  · obtain ⟨ws, t', hws, hobs, hR'⟩ := h.execution hR hsteps
    obtain ⟨us', k'', t'', i', hus, hi', he', hobs'⟩ := h.fails k' i s' t' e hR' hi he
    refine Or.inr ⟨e, (ws ++ us') ++ [(k'', t'')], rfl,
      Or.inr ⟨ws ++ us', k'', t'', i', e, hws.trans hus, rfl, hi', he', rfl⟩, ?_⟩
    rw [List.append_assoc, shows_append, hobs', shows_append, hobs, shows_singleton]

end Branching

end Stanli
