import Mathlib.Algebra.Order.Ring.Nat
import Mathlib.Data.List.Basic
import Mathlib.Order.Basic
import Mathlib.Tactic.Common

/-!
# Code with branches

A flat instruction list with a program counter.  `Branching.run` follows the counter and records the
positions it visits together with the state it finds there.

When every branch goes forward the counter only grows, and `Branching.sweep` gives the same run by
one pass over the list, in which the instructions below the next position are skipped.  Statements
about forward code are therefore inductions over the list, and a translation that replaces each
instruction by a block of instructions is a simulation block by block (`sweep_blocks`).
-/

namespace Stanli

/-- A machine over instructions `ι`: what an instruction does to the state, and where control goes
from an instruction at a position, judged in the state before it. -/
structure Branching (ι σ ε : Type*) where
  exec : ι → σ → Except ε σ
  next : ι → ℕ → σ → ℕ

namespace Branching

variable {ι κ σ τ ε : Type*} (B : Branching ι σ ε)

/-- Run `code` from position `pc`; `none` when the fuel does not last. -/
def run (code : List ι) : ℕ → ℕ → σ → Option (List (ℕ × σ) × Except ε σ)
  | 0, pc, s => if pc < code.length then none else some ([], .ok s)
  | fuel + 1, pc, s =>
    match code[pc]? with
    | none => some ([], .ok s)
    | some i =>
      match B.exec i s with
      | .error e => some ([(pc, s)], .error e)
      | .ok s' => (run code fuel (B.next i pc s) s').map fun r => ((pc, s) :: r.1, r.2)

/-- One pass over the instructions from position `base` on.  An instruction below the next position
`nx` is skipped. -/
def sweep : ℕ → List ι → ℕ → σ → List (ℕ × σ) × Except ε (ℕ × σ)
  | _, [], nx, s => ([], .ok (nx, s))
  | base, i :: is, nx, s =>
    if base < nx then sweep (base + 1) is nx s
    else
      match B.exec i s with
      | .error e => ([(base, s)], .error e)
      | .ok s' =>
        let r := sweep (base + 1) is (B.next i base s) s'
        ((base, s) :: r.1, r.2)

/-- Every branch of the code goes forward. -/
def Forward (code : List ι) : Prop := ∀ pc i s, code[pc]? = some i → pc < B.next i pc s

variable {B}

lemma sweep_cons_skip {base nx : ℕ} (h : base < nx) (i : ι) (is : List ι) (s : σ) :
    B.sweep base (i :: is) nx s = B.sweep (base + 1) is nx s := by
  simp [sweep, h]

lemma sweep_cons_error {base nx : ℕ} {i : ι} {s : σ} {e : ε} (h : nx ≤ base)
    (he : B.exec i s = .error e) (is : List ι) :
    B.sweep base (i :: is) nx s = ([(base, s)], .error e) := by
  simp [sweep, not_lt.2 h, he]

lemma sweep_cons_ok {base nx : ℕ} {i : ι} {s s' : σ} (h : nx ≤ base) (he : B.exec i s = .ok s')
    (is : List ι) : B.sweep base (i :: is) nx s =
      ((base, s) :: (B.sweep (base + 1) is (B.next i base s) s').1,
        (B.sweep (base + 1) is (B.next i base s) s').2) := by
  simp [sweep, not_lt.2 h, he]

/-- A pass whose next position is past the end does nothing. -/
lemma sweep_skip {base nx : ℕ} {is : List ι} (h : base + is.length ≤ nx) (s : σ) :
    B.sweep base is nx s = ([], .ok (nx, s)) := by
  induction is generalizing base with
  | nil => rfl
  | cons i is ih =>
    rw [List.length_cons] at h
    rw [sweep_cons_skip (by omega), ih (by omega)]

/-- A pass skips the instructions below its next position. -/
lemma sweep_drop {base nx : ℕ} (is : List ι) (h : base ≤ nx) (hle : nx ≤ base + is.length) (s : σ) :
    B.sweep base is nx s = B.sweep nx (is.drop (nx - base)) nx s := by
  induction is generalizing base with
  | nil =>
    rw [List.length_nil] at hle
    obtain rfl : base = nx := by omega
    simp
  | cons i is ih =>
    rcases h.eq_or_lt with rfl | hlt
    · simp
    · rw [List.length_cons] at hle
      rw [sweep_cons_skip hlt, ih hlt (by omega), ← List.drop_succ_cons (a := i)]
      congr 2
      omega

/-- Forward code is run by one pass over it. -/
theorem run_eq_sweep {code : List ι} (hf : B.Forward code) {fuel pc : ℕ}
    (h : code.length ≤ fuel + pc) (s : σ) :
    B.run code fuel pc s =
      some ((B.sweep pc (code.drop pc) pc s).1, (B.sweep pc (code.drop pc) pc s).2.map Prod.snd) := by
  induction fuel generalizing pc s with
  | zero =>
    rw [run, if_neg (by omega), List.drop_eq_nil_of_le (by omega)]
    rfl
  | succ fuel ih =>
    rw [run]
    cases hi : code[pc]? with
    | none =>
      rw [List.drop_eq_nil_of_le (List.getElem?_eq_none_iff.1 hi)]
      rfl
    | some i =>
      have hlt := (List.getElem?_eq_some_iff.1 hi).1
      have hdrop : code.drop pc = i :: code.drop (pc + 1) := by
        rw [List.drop_eq_getElem_cons hlt, (List.getElem?_eq_some_iff.1 hi).2]
      rw [hdrop]
      cases he : B.exec i s with
      | error e =>
        rw [sweep_cons_error le_rfl he]
        simp only [he]
        rfl
      | ok s' =>
        have hnx := hf pc i s hi
        rw [sweep_cons_ok le_rfl he]
        simp only [he]
        rw [ih (by omega) s']
        rcases le_or_gt (B.next i pc s) code.length with hle | hgt
        · rw [sweep_drop (code.drop (pc + 1)) (Nat.succ_le_of_lt hnx)
            (by rw [List.length_drop]; omega), List.drop_drop,
            show pc + 1 + (B.next i pc s - (pc + 1)) = B.next i pc s by omega]
          rfl
        · have hlen : pc + 1 + (code.drop (pc + 1)).length ≤ B.next i pc s := by
            rw [List.length_drop]
            omega
          rw [List.drop_eq_nil_of_le hgt.le, sweep_skip hlen]
          rfl

/-- More fuel does not change a run. -/
lemma run_mono {code : List ι} {fuel fuel' pc : ℕ} {s : σ} {r : List (ℕ × σ) × Except ε σ}
    (h : B.run code fuel pc s = some r) (hle : fuel ≤ fuel') : B.run code fuel' pc s = some r := by
  induction fuel generalizing fuel' pc s r with
  | zero =>
    rw [run] at h
    split at h
    · simp at h
    · rename_i hpc
      cases fuel' with
      | zero => rwa [run, if_neg hpc]
      | succ fuel' => rwa [run, List.getElem?_eq_none (not_lt.1 hpc)]
  | succ fuel ih =>
    obtain ⟨fuel', rfl⟩ : ∃ m, fuel' = m + 1 := ⟨fuel' - 1, by omega⟩
    rw [run] at h ⊢
    cases hi : code[pc]? with
    | none => simpa [hi] using h
    | some i =>
      cases he : B.exec i s with
      | error e => simpa [hi, he] using h
      | ok s' =>
        simp only [hi, he, Option.map_eq_some_iff] at h ⊢
        obtain ⟨r', hr', rfl⟩ := h
        exact ⟨r', ih hr' (by omega), rfl⟩

/-- An execution of any length: from position `k` and state `s` it visits `vs` and stands at `k'` with
`t`. -/
inductive Steps (B : Branching ι σ ε) (code : List ι) (k : ℕ) (s : σ) :
    List (ℕ × σ) → ℕ → σ → Prop
  | refl : Steps B code k s [] k s
  | step {vs : List (ℕ × σ)} {k' : ℕ} {t t' : σ} {i : ι} (h : Steps B code k s vs k' t)
    (hi : code[k']? = some i) (he : B.exec i t = .ok t') :
    Steps B code k s (vs ++ [(k', t)]) (B.next i k' t) t'

lemma Steps.single {code : List ι} {k : ℕ} {s s' : σ} {i : ι} (hi : code[k]? = some i)
    (he : B.exec i s = .ok s') : B.Steps code k s [(k, s)] (B.next i k s) s' :=
  Steps.refl.step hi he

lemma Steps.trans {code : List ι} {k k' k'' : ℕ} {s t u : σ} {vs ws : List (ℕ × σ)}
    (h : B.Steps code k s vs k' t) (h' : B.Steps code k' t ws k'' u) :
    B.Steps code k s (vs ++ ws) k'' u := by
  induction h' with
  | refl => rwa [List.append_nil]
  | step _ hi he ih =>
    rw [← List.append_assoc]
    exact ih.step hi he

/-- Every visited position was stood at, and its instruction ran. -/
lemma Steps.visits {code : List ι} {k k' : ℕ} {s t : σ} {vs : List (ℕ × σ)}
    (h : B.Steps code k s vs k' t) : ∀ v ∈ vs, ∃ us i t', B.Steps code k s us v.1 v.2 ∧
      code[v.1]? = some i ∧ B.exec i v.2 = .ok t' := by
  induction h with
  | refl => exact fun v hv => absurd hv List.not_mem_nil
  | @step vs k' t t' i h hi he ih =>
    intro v hv
    rcases List.mem_append.1 hv with hv | hv
    · exact ih v hv
    · obtain rfl := List.mem_singleton.1 hv
      exact ⟨vs, i, t', h, hi, he⟩

/-- A run goes on from where an execution stands. -/
lemma Steps.run {code : List ι} {k k' : ℕ} {s t : σ} {vs : List (ℕ × σ)}
    (h : B.Steps code k s vs k' t) {fuel : ℕ} {ws : List (ℕ × σ)} {r : Except ε σ}
    (hrun : B.run code fuel k' t = some (ws, r)) :
    B.run code (fuel + vs.length) k s = some (vs ++ ws, r) := by
  induction h generalizing fuel ws r with
  | refl => simpa using hrun
  | @step vs k' t t' i h hi he ih =>
    have hlast : B.run code (fuel + 1) k' t = some ((k', t) :: ws, r) := by
      rw [Branching.run, hi]
      dsimp only
      rw [he]
      dsimp only
      rw [hrun]
      rfl
    have := ih hlast
    rwa [List.length_append, List.length_singleton, List.append_assoc,
      show fuel + (vs.length + 1) = fuel + 1 + vs.length by omega]

/-- How an execution ends that visits `vs`: in front of an instruction that fails, or behind the
code. -/
def Ends (B : Branching ι σ ε) (code : List ι) (k : ℕ) (s : σ) (vs : List (ℕ × σ)) (r : Except ε σ) :
    Prop :=
  (∃ k' t, B.Steps code k s vs k' t ∧ code[k']? = none ∧ r = .ok t) ∨
    ∃ us k' t i e, B.Steps code k s us k' t ∧ vs = us ++ [(k', t)] ∧ code[k']? = some i ∧
      B.exec i t = .error e ∧ r = .error e

/-- A run is an execution to its end. -/
theorem exists_run_iff_ends {code : List ι} {k : ℕ} {s : σ} {vs : List (ℕ × σ)} {r : Except ε σ} :
    (∃ fuel, B.run code fuel k s = some (vs, r)) ↔ B.Ends code k s vs r := by
  constructor
  · rintro ⟨fuel, hrun⟩
    induction fuel generalizing k s vs with
    | zero =>
      rw [Branching.run] at hrun
      split at hrun
      · simp at hrun
      · rename_i hk
        injection hrun with hrun
        injection hrun with h1 h2
        subst h1 h2
        exact Or.inl ⟨k, s, .refl, List.getElem?_eq_none (not_lt.1 hk), rfl⟩
    | succ fuel ih =>
      rw [Branching.run] at hrun
      cases hi : code[k]? with
      | none =>
        rw [hi] at hrun
        injection hrun with hrun
        injection hrun with h1 h2
        subst h1 h2
        exact Or.inl ⟨k, s, .refl, hi, rfl⟩
      | some i =>
        rw [hi] at hrun
        dsimp only at hrun
        cases he : B.exec i s with
        | error e =>
          rw [he] at hrun
          injection hrun with hrun
          injection hrun with h1 h2
          subst h1 h2
          exact Or.inr ⟨[], k, s, i, e, .refl, rfl, hi, he, rfl⟩
        | ok s' =>
          rw [he] at hrun
          obtain ⟨⟨vs', r'⟩, hrun', heq⟩ := Option.map_eq_some_iff.1 hrun
          injection heq with h1 h2
          subst h1 h2
          rcases ih hrun' with ⟨k', t, hsteps, hend, hr⟩ | ⟨us, k', t, j, e, hsteps, hvs, hj, hfail, hr⟩
          · exact Or.inl ⟨k', t, (Steps.single hi he).trans hsteps, hend, hr⟩
          · refine Or.inr ⟨(k, s) :: us, k', t, j, e, (Steps.single hi he).trans hsteps, ?_, hj, hfail, hr⟩
            rw [hvs]
            rfl
  · rintro (⟨k', t, hsteps, hend, rfl⟩ | ⟨us, k', t, i, e, hsteps, rfl, hi, he, rfl⟩)
    · refine ⟨0 + vs.length, ?_⟩
      have hrun : B.run code 0 k' t = some ([], .ok t) := by
        rw [Branching.run, if_neg (not_lt.2 (List.getElem?_eq_none_iff.1 hend))]
      simpa using hsteps.run hrun
    · refine ⟨1 + us.length, hsteps.run ?_⟩
      rw [Branching.run, hi]
      dsimp only
      rw [he]

/-- The runs of forward code are its pass. -/
theorem exists_run_iff_sweep {code : List ι} (hf : B.Forward code) {s : σ}
    {r : List (ℕ × σ) × Except ε σ} : (∃ fuel, B.run code fuel 0 s = some r) ↔
      r = ((B.sweep 0 code 0 s).1, (B.sweep 0 code 0 s).2.map Prod.snd) := by
  have hrun : ∀ fuel, code.length ≤ fuel → B.run code fuel 0 s =
      some ((B.sweep 0 code 0 s).1, (B.sweep 0 code 0 s).2.map Prod.snd) := by
    intro fuel hle
    rw [run_eq_sweep hf (by omega), List.drop_zero]
  constructor
  · rintro ⟨fuel, h⟩
    have hmono := run_mono h (le_max_left fuel code.length)
    rw [hrun _ (le_max_right ..)] at hmono
    exact (Option.some.inj hmono).symm
  · rintro rfl
    exact ⟨code.length, hrun _ le_rfl⟩

/-- A pass over two lists is a pass over the first and then, unless it failed, over the second. -/
lemma sweep_append (base : ℕ) (is js : List ι) (nx : ℕ) (s : σ) :
    B.sweep base (is ++ js) nx s =
      match B.sweep base is nx s with
      | (vs, .error e) => (vs, .error e)
      | (vs, .ok (nx', s')) =>
        (vs ++ (B.sweep (base + is.length) js nx' s').1, (B.sweep (base + is.length) js nx' s').2) := by
  induction is generalizing base nx s with
  | nil => simp [sweep]
  | cons i is ih =>
    rw [List.cons_append, List.length_cons, show base + (is.length + 1) = base + 1 + is.length by omega]
    rcases lt_or_ge base nx with h | h
    · rw [sweep_cons_skip h, sweep_cons_skip h, ih]
    · cases he : B.exec i s with
      | error e => rw [sweep_cons_error h he, sweep_cons_error h he]
      | ok s' =>
        rw [sweep_cons_ok h he, sweep_cons_ok h he, ih]
        rcases B.sweep (base + 1) is (B.next i base s) s' with ⟨vs, e | ⟨nx', t⟩⟩ <;> rfl

/-- Below its first instruction the next position of a pass does not matter. -/
lemma sweep_congr_next {base nx nx' : ℕ} {is : List ι} (hne : is ≠ []) (h : nx ≤ base)
    (h' : nx' ≤ base) (s : σ) : B.sweep base is nx s = B.sweep base is nx' s := by
  cases is with
  | nil => exact absurd rfl hne
  | cons i is => simp [sweep, not_lt.2 h, not_lt.2 h']

/-! ## What holds along a pass -/

/-- A property of the position, the next position, the visits so far and the state that every executed
instruction establishes for the next position, and every skipped one keeps, holds at the end of a
pass. -/
theorem sweep_invariant {code : List ι} {I : ℕ → ℕ → List (ℕ × σ) → σ → Prop}
    (hstep : ∀ k nx i vs s s', code[k]? = some i → nx ≤ k → I k nx vs s → B.exec i s = .ok s' →
      I (k + 1) (B.next i k s) (vs ++ [(k, s)]) s')
    (hskip : ∀ k nx vs s, k < nx → I k nx vs s → I (k + 1) nx vs s) {base : ℕ} {is : List ι}
    (his : code.drop base = is) {nx : ℕ} {vs₀ vs : List (ℕ × σ)} {s t : σ} {nx' : ℕ}
    (h : I base nx vs₀ s) (hrun : B.sweep base is nx s = (vs, .ok (nx', t))) :
    I (base + is.length) nx' (vs₀ ++ vs) t := by
  induction is generalizing base nx vs₀ vs s with
  | nil =>
    rw [sweep] at hrun
    injection hrun with h1 h2
    injection h2 with h2
    injection h2 with h3 h4
    subst h1 h3 h4
    simpa using h
  | cons i is ih =>
    have hget : code[base]? = some i := by
      rw [← Nat.add_zero base, ← List.getElem?_drop, his]
      rfl
    have hdrop : code.drop (base + 1) = is := by
      rw [← List.drop_drop, his]
      rfl
    rw [List.length_cons, show base + (is.length + 1) = base + 1 + is.length by omega]
    rcases lt_or_ge base nx with hlt | hge
    · rw [sweep_cons_skip hlt] at hrun
      exact ih hdrop (hskip _ _ _ _ hlt h) hrun
    · cases he : B.exec i s with
      | error e =>
        rw [sweep_cons_error hge he] at hrun
        injection hrun with _ h2
        exact absurd h2 (by simp)
      | ok s' =>
        rw [sweep_cons_ok hge he] at hrun
        injection hrun with h1 h2
        have := ih hdrop (hstep _ _ _ _ _ _ hget hge h he) (Prod.ext rfl h2)
        rw [← h1]
        simpa using this

/-- What holds at the start of a pass over the whole code, and is kept, holds at its end. -/
theorem sweep_invariant_start {code : List ι} {I : ℕ → ℕ → List (ℕ × σ) → σ → Prop}
    (hstep : ∀ k nx i vs s s', code[k]? = some i → nx ≤ k → I k nx vs s → B.exec i s = .ok s' →
      I (k + 1) (B.next i k s) (vs ++ [(k, s)]) s')
    (hskip : ∀ k nx vs s, k < nx → I k nx vs s → I (k + 1) nx vs s) {vs : List (ℕ × σ)} {s t : σ}
    {nx' : ℕ} (h : I 0 0 [] s) (hrun : B.sweep 0 code 0 s = (vs, .ok (nx', t))) :
    I code.length nx' vs t := by
  simpa using sweep_invariant hstep hskip (List.drop_zero (l := code)) h hrun

/-- Two passes end alike: both fail with the same error, or both reach the end. -/
def EndsAlike (R : List (ℕ × σ) → List (ℕ × τ) → σ → τ → Prop)
    (E : List (ℕ × σ) → List (ℕ × τ) → Prop) (r : List (ℕ × σ) × Except ε (ℕ × σ))
    (r' : List (ℕ × τ) × Except ε (ℕ × τ)) : Prop :=
  match r.2, r'.2 with
  | .error e, .error e' => e = e' ∧ E r.1 r'.1
  | .ok (_, s), .ok (_, t) => R r.1 r'.1 s t
  | _, _ => False

/-- A relation between two machines on the same code that every instruction both execute keeps, holds
at the ends of their passes. -/
theorem sweep_lockstep {B : Branching ι σ ε} {C : Branching ι τ ε} {code : List ι}
    {R : ℕ → ℕ → List (ℕ × σ) → List (ℕ × τ) → σ → τ → Prop}
    (hfail : ∀ k nx i vs ws s t e, code[k]? = some i → nx ≤ k → R k nx vs ws s t →
      B.exec i s = .error e → C.exec i t = .error e)
    (hstep : ∀ k nx i vs ws s t s', code[k]? = some i → nx ≤ k → R k nx vs ws s t →
      B.exec i s = .ok s' → ∃ t', C.exec i t = .ok t' ∧ C.next i k t = B.next i k s ∧
        R (k + 1) (B.next i k s) (vs ++ [(k, s)]) (ws ++ [(k, t)]) s' t')
    (hskip : ∀ k nx vs ws s t, k < nx → R k nx vs ws s t → R (k + 1) nx vs ws s t) {base : ℕ}
    {is : List ι} (his : code.drop base = is) {nx : ℕ} {vs : List (ℕ × σ)} {ws : List (ℕ × τ)}
    {s : σ} {t : τ} (h : R base nx vs ws s t) :
    EndsAlike (fun vs' ws' s' t' => ∃ nx', R (base + is.length) nx' (vs ++ vs') (ws ++ ws') s' t')
      (fun _ _ => True) (B.sweep base is nx s) (C.sweep base is nx t) := by
  induction is generalizing base nx vs ws s t with
  | nil => exact ⟨nx, by simpa [sweep] using h⟩
  | cons i is ih =>
    have hget : code[base]? = some i := by
      rw [← Nat.add_zero base, ← List.getElem?_drop, his]
      rfl
    have hdrop : code.drop (base + 1) = is := by
      rw [← List.drop_drop, his]
      rfl
    rw [List.length_cons, show base + (is.length + 1) = base + 1 + is.length by omega]
    rcases lt_or_ge base nx with hlt | hge
    · rw [sweep_cons_skip hlt, sweep_cons_skip hlt]
      exact ih hdrop (hskip _ _ _ _ _ _ hlt h)
    · cases he : B.exec i s with
      | error e =>
        rw [sweep_cons_error hge he, sweep_cons_error hge (hfail _ _ _ _ _ _ _ _ hget hge h he)]
        exact ⟨rfl, trivial⟩
      | ok s' =>
        obtain ⟨t', he', hnext, h'⟩ := hstep _ _ _ _ _ _ _ _ hget hge h he
        rw [sweep_cons_ok hge he, sweep_cons_ok hge he', hnext]
        simpa [EndsAlike] using ih hdrop h'

/-- The visits of a pass: their positions grow and lie in the code, and where the pass did not fail
every visited instruction ran. -/
lemma sweep_visits {base : ℕ} {is : List ι} {nx : ℕ} {s t : σ} {vs : List (ℕ × σ)} {nx' : ℕ}
    (hrun : B.sweep base is nx s = (vs, .ok (nx', t))) :
    (vs.map Prod.fst).Pairwise (· < ·) ∧ ∀ v ∈ vs, base ≤ v.1 ∧
      ∃ i s', is[v.1 - base]? = some i ∧ B.exec i v.2 = .ok s' := by
  induction is generalizing base nx vs s with
  | nil =>
    rw [sweep] at hrun
    injection hrun with h1 _
    subst h1
    exact ⟨List.Pairwise.nil, by simp⟩
  | cons i is ih =>
    have hshift : ∀ {v : ℕ × σ}, base + 1 ≤ v.1 → (i :: is)[v.1 - base]? = is[v.1 - (base + 1)]? := by
      intro v hv
      rw [show v.1 - base = v.1 - (base + 1) + 1 by omega, List.getElem?_cons_succ]
    rcases lt_or_ge base nx with hlt | hge
    · rw [sweep_cons_skip hlt] at hrun
      obtain ⟨hsorted, hvs⟩ := ih hrun
      refine ⟨hsorted, fun v hv => ?_⟩
      obtain ⟨hle, h⟩ := hvs v hv
      exact ⟨by omega, hshift hle ▸ h⟩
    · cases he : B.exec i s with
      | error e =>
        rw [sweep_cons_error hge he] at hrun
        injection hrun with _ h2
        exact absurd h2 (by simp)
      | ok s' =>
        rw [sweep_cons_ok hge he] at hrun
        injection hrun with h1 h2
        obtain ⟨hsorted, hvs⟩ := ih (Prod.ext rfl h2)
        subst h1
        constructor
        · rw [List.map_cons, List.pairwise_cons]
          refine ⟨fun a ha => ?_, hsorted⟩
          obtain ⟨v, hv, rfl⟩ := List.mem_map.1 ha
          exact (hvs v hv).1
        · intro v hv
          rcases List.mem_cons.1 hv with rfl | hv
          · exact ⟨le_rfl, i, s', by simp, he⟩
          · obtain ⟨hle, h⟩ := hvs v hv
            exact ⟨by omega, hshift hle ▸ h⟩

/-- Code without branches is run instruction by instruction. -/
lemma sweep_straight {is : List ι} (hne : is ≠ [])
    (hnext : ∀ i ∈ is, ∀ pc s, B.next i pc s = pc + 1) {base nx : ℕ} (hnx : nx ≤ base) {s t : σ}
    (hexec : is.foldlM (fun s i => B.exec i s) s = .ok t) :
    ∃ vs, B.sweep base is nx s = (vs, .ok (base + is.length, t)) ∧
      ∀ v ∈ vs, base ≤ v.1 ∧ v.1 < base + is.length := by
  induction is generalizing base nx s with
  | nil => exact absurd rfl hne
  | cons i is ih =>
    rw [List.foldlM_cons] at hexec
    cases he : B.exec i s with
    | error e =>
      rw [he] at hexec
      exact absurd hexec (by simp [bind, Except.bind])
    | ok s' =>
      rw [he] at hexec
      change is.foldlM (fun s i => B.exec i s) s' = .ok t at hexec
      rw [sweep_cons_ok hnx he, hnext i (List.mem_cons_self ..)]
      rcases eq_or_ne is [] with rfl | htail
      · obtain rfl : s' = t := by simpa [pure, Except.pure] using hexec
        exact ⟨[(base, s)], rfl, by simp⟩
      · obtain ⟨vs, hrun, hvs⟩ := ih htail (fun j hj => hnext j (List.mem_cons_of_mem _ hj))
          le_rfl hexec
        rw [hrun]
        refine ⟨(base, s) :: vs, ?_, ?_⟩
        · rw [List.length_cons, show base + 1 + is.length = base + (is.length + 1) by omega]
        · intro v hv
          rw [List.length_cons]
          rcases List.mem_cons.1 hv with rfl | hv
          · exact ⟨le_rfl, by omega⟩
          · obtain ⟨h1, h2⟩ := hvs v hv
            omega

/-- Code without branches is run from its start to its end, also when there is none of it. -/
lemma sweep_straight_self {is : List ι} (hnext : ∀ i ∈ is, ∀ pc s, B.next i pc s = pc + 1)
    (base : ℕ) {s t : σ} (hexec : is.foldlM (fun s i => B.exec i s) s = .ok t) :
    ∃ vs, B.sweep base is base s = (vs, .ok (base + is.length, t)) ∧
      ∀ v ∈ vs, base ≤ v.1 ∧ v.1 < base + is.length := by
  rcases eq_or_ne is [] with rfl | hne
  · obtain rfl : s = t := by simpa [pure, Except.pure] using hexec
    exact ⟨[], rfl, by simp⟩
  · exact sweep_straight hne hnext le_rfl hexec

/-- An instruction that fails behind straight code. -/
lemma sweep_around_error {as : List ι} (has : ∀ i ∈ as, ∀ pc s, B.next i pc s = pc + 1) (base : ℕ)
    {i : ι} {s t : σ} {e : ε} (h : as.foldlM (fun s i => B.exec i s) s = .ok t)
    (he : B.exec i t = .error e) (cs : List ι) :
    ∃ us, B.sweep base (as ++ i :: cs) base s = (us ++ [(base + as.length, t)], .error e) ∧
      ∀ v ∈ us, base ≤ v.1 ∧ v.1 < base + as.length := by
  obtain ⟨us, hus, hpos⟩ := sweep_straight_self has base h
  refine ⟨us, ?_, hpos⟩
  rw [sweep_append, hus]
  dsimp only
  rw [sweep_cons_error le_rfl he]

/-- An instruction between straight code. -/
lemma sweep_around {as cs : List ι} (has : ∀ i ∈ as, ∀ pc s, B.next i pc s = pc + 1)
    (hcs : ∀ i ∈ cs, ∀ pc s, B.next i pc s = pc + 1) (base : ℕ) {i : ι} {s t t' u : σ}
    (h : as.foldlM (fun s i => B.exec i s) s = .ok t) (he : B.exec i t = .ok t')
    (h' : cs.foldlM (fun s i => B.exec i s) t' = .ok u)
    (hi : cs ≠ [] → B.next i (base + as.length) t = base + as.length + 1) :
    ∃ us us', B.sweep base (as ++ i :: cs) base s = (us ++ (base + as.length, t) :: us',
        .ok (if cs = [] then B.next i (base + as.length) t else base + as.length + 1 + cs.length, u)) ∧
      (∀ v ∈ us, base ≤ v.1 ∧ v.1 < base + as.length) ∧
      ∀ v ∈ us', base + as.length + 1 ≤ v.1 ∧ v.1 < base + as.length + 1 + cs.length := by
  obtain ⟨us, hus, hpos⟩ := sweep_straight_self has base h
  rw [sweep_append, hus]
  dsimp only
  rw [sweep_cons_ok le_rfl he]
  rcases eq_or_ne cs [] with rfl | hne
  · obtain rfl : t' = u := by simpa [pure, Except.pure] using h'
    exact ⟨us, [], by simp [sweep], hpos, by simp⟩
  · obtain ⟨us', hus', hpos'⟩ := sweep_straight_self hcs (base + as.length + 1) h'
    rw [hi hne, hus', if_neg hne]
    exact ⟨us, us', rfl, hpos, hpos'⟩

/-! ## Translating instruction by instruction -/

/-- Where the block of instruction `k` starts, after a prefix of `pre` instructions. -/
def blockPos (pre : ℕ) (blocks : List (List κ)) (k : ℕ) : ℕ :=
  pre + (blocks.take k).flatten.length

lemma blockPos_succ {n k : ℕ} {blocks : List (List κ)} {c : List κ} (h : blocks[k]? = some c) :
    blockPos n blocks (k + 1) = blockPos n blocks k + c.length := by
  obtain ⟨hlt, rfl⟩ := List.getElem?_eq_some_iff.1 h
  rw [blockPos, blockPos, List.take_succ_eq_append_getElem hlt, List.flatten_append,
    List.length_append]
  simp [Nat.add_assoc]

lemma blockPos_mono (pre : ℕ) (blocks : List (List κ)) : Monotone (blockPos pre blocks) := by
  refine monotone_nat_of_le_succ fun k => ?_
  cases h : blocks[k]? with
  | none =>
    have hlen := List.getElem?_eq_none_iff.1 h
    rw [blockPos, blockPos, List.take_of_length_le hlen, List.take_of_length_le (by omega)]
  | some c =>
    rw [blockPos_succ h]
    omega

/-- The instructions of a block are found from its start on. -/
lemma getElem?_blockPos {pre : List κ} {blocks : List (List κ)} {k j : ℕ} {b : List κ} {i : κ}
    (h : blocks[k]? = some b) (hj : b[j]? = some i) :
    (pre ++ blocks.flatten)[blockPos pre.length blocks k + j]? = some i := by
  have hjlt := (List.getElem?_eq_some_iff.1 hj).1
  obtain ⟨hlt, rfl⟩ := List.getElem?_eq_some_iff.1 h
  rw [blockPos, List.getElem?_append_right (by omega), Nat.add_assoc, Nat.add_sub_cancel_left]
  have hsplit : blocks.flatten = (blocks.take k).flatten ++ (blocks.drop k).flatten := by
    rw [← List.flatten_append, List.take_append_drop]
  rw [hsplit, List.getElem?_append_right (by omega), Nat.add_sub_cancel_left,
    List.drop_eq_getElem_cons hlt, List.flatten_cons, List.getElem?_append_left hjlt]
  exact hj

/-- Every instruction is one of the prefix or of a block. -/
lemma exists_block {pre : List κ} {blocks : List (List κ)} {pc : ℕ} {i : κ}
    (h : (pre ++ blocks.flatten)[pc]? = some i) : pre[pc]? = some i ∨ ∃ k b j,
      blocks[k]? = some b ∧ b[j]? = some i ∧ pc = blockPos pre.length blocks k + j := by
  induction blocks generalizing pre with
  | nil => exact Or.inl (by simpa using h)
  | cons b blocks ih =>
    rw [List.flatten_cons, ← List.append_assoc] at h
    rcases ih h with hpre | ⟨k, c, j, hk, hj, rfl⟩
    · rcases lt_or_ge pc pre.length with hlt | hge
      · exact Or.inl (by rwa [List.getElem?_append_left hlt] at hpre)
      · rw [List.getElem?_append_right hge] at hpre
        exact Or.inr ⟨0, b, pc - pre.length, rfl, hpre, by simp [blockPos]; omega⟩
    · refine Or.inr ⟨k + 1, c, j, hk, hj, ?_⟩
      simp [blockPos]
      omega

/-- Changing the instructions of the blocks leaves where they start. -/
lemma blockPos_map {κ' : Type*} (f : κ → κ') (pre : ℕ) (blocks : List (List κ)) (k : ℕ) :
    blockPos pre (blocks.map (List.map f)) k = blockPos pre blocks k := by
  rw [blockPos, blockPos, ← List.map_take, ← List.map_flatten, List.length_map]

/-- What a translation has to show of one block.  `R` relates the two machines before the block of
instruction `k`, with what both have visited, and `E` what both have visited when they fail.  The first
instruction is never skipped. -/
structure BlockStep (B : Branching ι σ ε) (C : Branching κ τ ε)
    (R : ℕ → List (ℕ × σ) → List (ℕ × τ) → σ → τ → Prop)
    (E : List (ℕ × σ) → List (ℕ × τ) → Prop) (pos : ℕ → ℕ) (k : ℕ) (i : ι) (c : List κ) : Prop where
  fails : ∀ vs ws s t e, R k vs ws s t → B.exec i s = .error e →
    ∃ ws', C.sweep (pos k) c (pos k) t = (ws', .error e) ∧ E (vs ++ [(k, s)]) (ws ++ ws')
  steps : ∀ vs ws s t s', R k vs ws s t → B.exec i s = .ok s' →
    ∃ ws' t', C.sweep (pos k) c (pos k) t = (ws', .ok (pos (B.next i k s), t')) ∧
      R (k + 1) (vs ++ [(k, s)]) (ws ++ ws') s' t'
  skips : 0 < k → ∀ vs ws s t, R k vs ws s t → R (k + 1) vs ws s t

/-- A translation block by block simulates forward code: the pass over the blocks starts where the
pass over the code starts, skips the blocks of the skipped instructions, and ends alike. -/
theorem sweep_blocks {B : Branching ι σ ε} {C : Branching κ τ ε} {code : List ι}
    {blocks : List (List κ)} {pre : ℕ} {R : ℕ → List (ℕ × σ) → List (ℕ × τ) → σ → τ → Prop}
    {E : List (ℕ × σ) → List (ℕ × τ) → Prop} (hlen : blocks.length = code.length)
    (hstep : ∀ k i c, code[k]? = some i → blocks[k]? = some c →
      BlockStep B C R E (blockPos pre blocks) k i c) {base : ℕ} {is : List ι} {cs : List (List κ)}
    (his : code.drop base = is) (hcs : blocks.drop base = cs) {nx nx' : ℕ} (hstart : base = 0 → nx = 0)
    (hnx : max nx' (blockPos pre blocks base) = blockPos pre blocks (max nx base))
    {vs : List (ℕ × σ)} {ws : List (ℕ × τ)} {s : σ} {t : τ} (hR : R base vs ws s t) :
    EndsAlike (fun vs' ws' => R (base + is.length) (vs ++ vs') (ws ++ ws'))
      (fun vs' ws' => E (vs ++ vs') (ws ++ ws')) (B.sweep base is nx s)
      (C.sweep (blockPos pre blocks base) cs.flatten nx' t) := by
  induction is generalizing base cs nx nx' vs ws s t with
  | nil =>
    have hle : code.length ≤ base := by simpa using his
    obtain rfl : cs = [] := by rw [← hcs, List.drop_eq_nil_of_le (by omega)]
    simpa [sweep, EndsAlike] using hR
  | cons i is ih =>
    have hlt : base < code.length := by
      by_contra hge
      rw [List.drop_eq_nil_of_le (by omega)] at his
      exact absurd his (by simp)
    have hi : code[base]? = some i := by
      rw [← Nat.add_zero base, ← List.getElem?_drop, his]
      rfl
    have hdrop : code.drop (base + 1) = is := by
      rw [← List.drop_drop, his]
      rfl
    obtain ⟨c, hc⟩ : ∃ c, blocks[base]? = some c := ⟨_, List.getElem?_eq_getElem (by omega)⟩
    have hcons : cs = c :: blocks.drop (base + 1) := by
      rw [← hcs, List.drop_eq_getElem_cons (by omega), (List.getElem?_eq_some_iff.1 hc).2]
    obtain ⟨hfails, hsteps, hskips⟩ := hstep base i c hi hc
    have hsucc : blockPos pre blocks (base + 1) = blockPos pre blocks base + c.length :=
      blockPos_succ hc
    have hmono := blockPos_mono pre blocks
    rw [hcons, List.flatten_cons, sweep_append, List.length_cons,
      show base + (is.length + 1) = base + 1 + is.length by omega, ← hsucc]
    rcases lt_or_ge base nx with hskip | hexec
    · -- The instruction is skipped, and so is its block.
      rw [sweep_cons_skip hskip]
      rw [max_eq_left hskip.le] at hnx
      have hnext : blockPos pre blocks (base + 1) ≤ blockPos pre blocks nx := hmono (by omega)
      have hblock : C.sweep (blockPos pre blocks base) c nx' t = ([], .ok (nx', t)) := by
        cases c with
        | nil => rfl
        | cons j c =>
          rw [List.length_cons] at hsucc
          exact sweep_skip (by rw [List.length_cons]; omega) t
      rw [hblock]
      refine ih hdrop rfl (by simp) ?_ (hskips (by omega) _ _ _ _ hR)
      rw [max_eq_left (Nat.succ_le_of_lt hskip), ← hnx]
      omega
    · rw [max_eq_right hexec] at hnx
      have hle : nx' ≤ blockPos pre blocks base := by omega
      cases he : B.exec i s with
      | error e =>
        obtain ⟨ws', hrun, hE⟩ := hfails vs ws s t e hR he
        have hne : c ≠ [] := by
          rintro rfl
          rw [sweep] at hrun
          injection hrun with _ h
          exact absurd h (by simp)
        rw [sweep_cons_error hexec he, sweep_congr_next hne hle le_rfl, hrun]
        exact ⟨rfl, hE⟩
      | ok s' =>
        obtain ⟨ws', t', hrun, hR'⟩ := hsteps vs ws s t s' hR he
        rw [sweep_cons_ok hexec he]
        obtain ⟨nx'', hblock, hnx''⟩ : ∃ nx'',
            C.sweep (blockPos pre blocks base) c nx' t = (ws', .ok (nx'', t')) ∧
            max nx'' (blockPos pre blocks (base + 1)) =
              blockPos pre blocks (max (B.next i base s) (base + 1)) := by
          rcases eq_or_ne c [] with rfl | hne
          · rw [sweep] at hrun
            injection hrun with h1 h2
            injection h2 with h2
            injection h2 with h3 h4
            refine ⟨nx', by rw [sweep, h1, h4], ?_⟩
            rw [hmono.map_max, ← h3, hsucc, List.length_nil]
            omega
          · exact ⟨_, by rw [sweep_congr_next hne hle le_rfl, hrun], (hmono.map_max).symm⟩
        rw [hblock]
        have := ih hdrop rfl (by simp) hnx'' hR'
        simpa [EndsAlike] using this

/-- The simulation from the start, behind a prologue that has taken the second machine to the first
block. -/
theorem sweep_blocks_start {B : Branching ι σ ε} {C : Branching κ τ ε} {code : List ι}
    {blocks : List (List κ)} {n : ℕ} {R : ℕ → List (ℕ × σ) → List (ℕ × τ) → σ → τ → Prop}
    {E : List (ℕ × σ) → List (ℕ × τ) → Prop} (hlen : blocks.length = code.length)
    (hstep : ∀ k i c, code[k]? = some i → blocks[k]? = some c →
      BlockStep B C R E (blockPos n blocks) k i c) {w : List (ℕ × τ)} {s : σ} {t : τ}
    (hR : R 0 [] w s t) :
    EndsAlike (fun vs' ws' => R code.length vs' (w ++ ws')) (fun vs' ws' => E vs' (w ++ ws'))
      (B.sweep 0 code 0 s) (C.sweep n blocks.flatten n t) := by
  have hzero : blockPos n blocks 0 = n := by simp [blockPos]
  have hnx : max n (blockPos n blocks 0) = blockPos n blocks (max 0 0) := by
    rw [hzero]
    simp [hzero]
  have := sweep_blocks hlen hstep (List.drop_zero (l := code)) (List.drop_zero (l := blocks))
    (fun _ => rfl) hnx hR
  rw [hzero] at this
  simpa using this

end Branching

end Stanli
