import Stanli.Lib.Branching

/-!
# Erasing instructions

A pass that drops instructions of flat code renumbers the ones it keeps and sends every branch to the
first kept instruction at or behind its target.  `erase` and `erasedPos` are the code and the
renumbering; `Branching.Follows` is a simulation in which the second machine may stay where it is
while the first one takes a step, and `Branching.Follows.run` carries it along a whole run.
-/

namespace Stanli

variable {ι κ σ τ ε γ : Type*}

/-! ## The code that is kept -/

/-- The instructions that are not gone. -/
def erase (gone : List Bool) (code : List ι) : List ι :=
  ((code.zip gone).filter fun e => !e.2).map Prod.fst

/-- The position of an instruction, or of the first kept one behind it. -/
def erasedPos (gone : List Bool) (k : ℕ) : ℕ := ((gone.take k).filter fun b => !b).length

lemma erasedPos_succ_of_gone {gone : List Bool} {k : ℕ} (h : gone[k]? = some true) :
    erasedPos gone (k + 1) = erasedPos gone k := by
  obtain ⟨hlt, hk⟩ := List.getElem?_eq_some_iff.1 h
  rw [erasedPos, List.take_succ_eq_append_getElem hlt, hk]
  simp [erasedPos]

lemma erasedPos_succ_of_kept {gone : List Bool} {k : ℕ} (h : gone[k]? = some false) :
    erasedPos gone (k + 1) = erasedPos gone k + 1 := by
  obtain ⟨hlt, hk⟩ := List.getElem?_eq_some_iff.1 h
  rw [erasedPos, List.take_succ_eq_append_getElem hlt, hk]
  simp [erasedPos]

/-- A kept instruction is found at its new position. -/
lemma getElem?_erase {gone : List Bool} {code : List ι} {k : ℕ} {i : ι} (hi : code[k]? = some i)
    (hk : gone[k]? = some false) : (erase gone code)[erasedPos gone k]? = some i := by
  induction code generalizing gone k with
  | nil => simp at hi
  | cons j code ih =>
    cases gone with
    | nil => simp at hk
    | cons b gone =>
      cases k with
      | zero =>
        obtain rfl : j = i := by simpa using hi
        obtain rfl : b = false := by simpa using hk
        simp [erase, erasedPos]
      | succ k =>
        have := @ih gone k (by simpa using hi) (by simpa using hk)
        cases b <;> simpa [erase, erasedPos] using this

/-- Behind the code there is nothing. -/
lemma getElem?_erase_end {gone : List Bool} {code : List ι} (hlen : gone.length = code.length) {k : ℕ}
    (hk : code[k]? = none) : (erase gone code)[erasedPos gone k]? = none := by
  have hle : gone.length ≤ k := by rw [hlen]; exact List.getElem?_eq_none_iff.1 hk
  rw [List.getElem?_eq_none_iff, erasedPos, List.take_of_length_le hle, erase, List.length_map]
  refine le_of_eq ?_
  clear hk hle
  induction code generalizing gone with
  | nil =>
    obtain rfl : gone = [] := List.length_eq_zero_iff.1 (by simpa using hlen)
    rfl
  | cons j code ih =>
    cases gone with
    | nil => simp at hlen
    | cons b gone =>
      have := @ih gone (by simpa using hlen)
      cases b <;> simpa using this

/-! ## Following a run -/

namespace Branching

/-- A machine on `code'` follows a machine on `code`: from related states at a position and its image
it does one step with the same observation, or none where there is nothing to observe, and it ends
and fails where the first one does. -/
structure Follows (B : Branching ι σ ε) (C : Branching κ τ ε) (code : List ι) (code' : List κ)
    (pos : ℕ → ℕ) (obs : ℕ × σ → Option γ) (obs' : ℕ × τ → Option γ) (R : ℕ → σ → τ → Prop) :
    Prop where
  ends : ∀ k s t, R k s t → code[k]? = none → code'[pos k]? = none
  fails : ∀ k i s t e, R k s t → code[k]? = some i → B.exec i s = .error e →
    obs (k, s) = obs' (pos k, t) ∧ ∃ i', code'[pos k]? = some i' ∧ C.exec i' t = .error e
  steps : ∀ k i s t s', R k s t → code[k]? = some i → B.exec i s = .ok s' →
    (pos (B.next i k s) = pos k ∧ obs (k, s) = none ∧ R (B.next i k s) s' t) ∨
    ∃ i' t', code'[pos k]? = some i' ∧ C.exec i' t = .ok t' ∧
      C.next i' (pos k) t = pos (B.next i k s) ∧ obs (k, s) = obs' (pos k, t) ∧
        R (B.next i k s) s' t'

/-- The ends of two runs: the same error, or states related behind the code. -/
def EndsFollowing (code : List ι) (R : ℕ → σ → τ → Prop) (r : Except ε σ) (r' : Except ε τ) : Prop :=
  (∃ e, r = .error e ∧ r' = .error e) ∨
    ∃ k s t, r = .ok s ∧ r' = .ok t ∧ code[k]? = none ∧ R k s t

/-- An execution of any length is followed. -/
theorem Follows.execution {B : Branching ι σ ε} {C : Branching κ τ ε} {code : List ι} {code' : List κ}
    {pos : ℕ → ℕ} {obs : ℕ × σ → Option γ} {obs' : ℕ × τ → Option γ} {R : ℕ → σ → τ → Prop}
    (h : Follows B C code code' pos obs obs' R) {k k' : ℕ} {s s' : σ} {t : τ} (hR : R k s t)
    {vs : List (ℕ × σ)} (hsteps : B.Steps code k s vs k' s') :
    ∃ ws t', C.Steps code' (pos k) t ws (pos k') t' ∧ ws.filterMap obs' = vs.filterMap obs ∧
      R k' s' t' := by
  induction hsteps with
  | refl => exact ⟨[], t, .refl, rfl, hR⟩
  | @step vs k' s₁ s₂ i hsteps hi he ih =>
    obtain ⟨ws, t₁, hws, hobs, hR₁⟩ := ih
    rcases h.steps k' i s₁ t₁ s₂ hR₁ hi he with ⟨hpos, hnone, hR₂⟩ | ⟨j, t₂, hj, he', hnext, hsame, hR₂⟩
    · refine ⟨ws, t₁, by rwa [hpos], ?_, hR₂⟩
      rw [List.filterMap_append, List.filterMap_cons, hnone, hobs]
      simp
    · refine ⟨ws ++ [(pos k', t₁)], t₂, ?_, ?_, hR₂⟩
      · rw [← hnext]
        exact hws.step hj he'
      · rw [List.filterMap_append, List.filterMap_append, hobs]
        simp only [List.filterMap_cons, List.filterMap_nil, hsame]

/-- A run is followed to its end. -/
theorem Follows.run {B : Branching ι σ ε} {C : Branching κ τ ε} {code : List ι} {code' : List κ}
    {pos : ℕ → ℕ} {obs : ℕ × σ → Option γ} {obs' : ℕ × τ → Option γ} {R : ℕ → σ → τ → Prop}
    (h : Follows B C code code' pos obs obs' R) {fuel k : ℕ} {s : σ} {t : τ} (hR : R k s t)
    {vs : List (ℕ × σ)} {r : Except ε σ} (hrun : B.run code fuel k s = some (vs, r)) :
    ∃ ws r', C.run code' fuel (pos k) t = some (ws, r') ∧
      ws.filterMap obs' = vs.filterMap obs ∧ EndsFollowing code R r r' := by
  induction fuel generalizing k s t vs r with
  | zero =>
    rw [Branching.run] at hrun
    split at hrun
    · simp at hrun
    · rename_i hk
      have hnone := List.getElem?_eq_none (not_lt.1 hk)
      injection hrun with hrun
      injection hrun with h1 h2
      subst h1 h2
      have hend := h.ends k s t hR hnone
      refine ⟨[], .ok t, ?_, rfl, Or.inr ⟨k, s, t, rfl, rfl, hnone, hR⟩⟩
      rw [Branching.run, if_neg (not_lt.2 (List.getElem?_eq_none_iff.1 hend))]
  | succ fuel ih =>
    rw [Branching.run] at hrun
    cases hi : code[k]? with
    | none =>
      rw [hi] at hrun
      injection hrun with hrun
      injection hrun with h1 h2
      subst h1 h2
      refine ⟨[], .ok t, ?_, rfl, Or.inr ⟨k, s, t, rfl, rfl, hi, hR⟩⟩
      rw [Branching.run, h.ends k s t hR hi]
    | some i =>
      rw [hi] at hrun
      dsimp only at hrun
      cases he : B.exec i s with
      | error e =>
        rw [he] at hrun
        injection hrun with hrun
        injection hrun with h1 h2
        subst h1 h2
        obtain ⟨hobs, i', hi', he'⟩ := h.fails k i s t e hR hi he
        refine ⟨[(pos k, t)], .error e, ?_, ?_, Or.inl ⟨e, rfl, rfl⟩⟩
        · rw [Branching.run, hi']
          dsimp only
          rw [he']
        · simp only [List.filterMap_cons, List.filterMap_nil, hobs]
      | ok s' =>
        rw [he] at hrun
        obtain ⟨⟨vs', r₁⟩, hrun', heq⟩ := Option.map_eq_some_iff.1 hrun
        injection heq with h1 h2
        subst h1 h2
        rcases h.steps k i s t s' hR hi he with ⟨hpos, hobs, hR'⟩ | ⟨i', t', hi', he', hnext, hobs, hR'⟩
        · -- The instruction is gone.
          obtain ⟨ws, r', hws, hfilter, hends⟩ := ih hR' hrun'
          rw [hpos] at hws
          refine ⟨ws, r', run_mono hws (Nat.le_succ fuel), ?_, hends⟩
          rw [hfilter, List.filterMap_cons, hobs]
        · obtain ⟨ws, r', hws, hfilter, hends⟩ := ih hR' hrun'
          refine ⟨(pos k, t) :: ws, r', ?_, ?_, hends⟩
          · rw [Branching.run, hi']
            dsimp only
            rw [he']
            dsimp only
            rw [hnext, hws]
            rfl
          · rw [List.filterMap_cons, List.filterMap_cons, hobs, hfilter]

end Branching

end Stanli
