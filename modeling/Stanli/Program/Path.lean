import Stanli.Program.Exec

/-!
# Paths through a program

Definite initialisation is a property of the control paths of a program: every register an
instruction reads was seeded or written by an instruction before it on every path.  A run follows
such a path, so what it reads has been written in the run itself; the scratch of a `CALL` does not
count as written.
-/

namespace Stanli

open Program

namespace Program

/-- Where control can go from an instruction at `pc`. -/
def Instr.successors (I : Instr) (pc : ℕ) : List ℕ :=
  match I.code with
  | .jz => [pc + 1, I.dst]
  | .jmp => [I.dst]
  | .reject => []
  | _ => [pc + 1]

variable {V E S : Type*}

/-- The control path that visits the positions `vs` and then is at `pc`. -/
inductive ControlPath (p : Program V) : List ℕ → ℕ → Prop
  | start : ControlPath p [] 0
  | step {vs : List ℕ} {pc pc' : ℕ} {I : Instr} (h : ControlPath p vs pc)
    (hI : p.code[pc]? = some I) (hnext : pc' ∈ I.successors pc) : ControlPath p (vs ++ [pc]) pc'

/-- A control path is at each of its positions with the positions before it visited. -/
lemma ControlPath.before {p : Program V} {vs : List ℕ} {pc : ℕ} (h : p.ControlPath vs pc)
    {pre post : List ℕ} {v : ℕ} (hvs : vs = pre ++ v :: post) : p.ControlPath pre v := by
  induction h generalizing post with
  | start => exact absurd hvs (by simp)
  | @step vs pc pc' I hpath hI hnext ih =>
    rcases List.eq_nil_or_concat post with rfl | ⟨post, w, rfl⟩
    · obtain ⟨rfl, h⟩ := List.append_inj' hvs rfl
      obtain rfl : pc = v := by simpa using h
      exact hpath
    · refine ih (?_ : vs = pre ++ v :: post)
      rw [List.concat_eq_append, ← List.cons_append, ← List.append_assoc] at hvs
      exact (List.append_inj' hvs rfl).1

/-- What an instruction is known to have written: the scratch of a `CALL` does not count. -/
def defines (p : Program V) (I : Instr) : List ℕ :=
  if I.code = .call then
    match p.calls[I.a]? with
    | some call => call.out.regs
    | none => []
  else (Span.mk I.dst I.outputLen).regs

/-- What an instruction is known to have written is among what it writes. -/
lemma mem_writes_of_defines {p : Program V} {I : Instr} {r : ℕ} (h : r ∈ p.defines I) :
    r ∈ p.writes I := by
  unfold defines at h
  unfold writes
  by_cases hc : I.code = .call
  · rw [if_pos hc] at h ⊢
    cases hcall : p.calls[I.a]? with
    | none => simp [hcall] at h
    | some call =>
      rw [hcall] at h
      exact List.mem_append_left _ h
  · rwa [if_neg hc] at h ⊢

/-- A register is seeded or written by one of the visited instructions. -/
def Defined (p : Program V) (seeded : ℕ → Prop) (vs : List ℕ) (r : ℕ) : Prop :=
  seeded r ∨ ∃ j ∈ vs, ∃ J, p.code[j]? = some J ∧ r ∈ p.defines J

lemma Defined.append {p : Program V} {seeded : ℕ → Prop} {vs : List ℕ} {r v : ℕ}
    (h : p.Defined seeded vs r) : p.Defined seeded (vs ++ [v]) r := by
  refine h.imp_right ?_
  rintro ⟨j, hj, J, hJ, hr⟩
  exact ⟨j, List.mem_append_left _ hj, J, hJ, hr⟩

end Program

namespace IslandProg

variable {V E S : Type*}

/-- The registers an instruction reads: a density all its arguments. -/
def readRegs (R : Registry) (p : IslandProg V) (I : Instr) : List ℕ :=
  if I.code = .density then I.densityArgs R else (p.readSpans R I).flatMap Span.regs

/-- Every read is definitely initialised: on every control path, whatever an instruction reads and
every live-out at the end is a live-in or written before. -/
structure InitialisesReads (R : Registry) (p : IslandProg V) : Prop where
  reads : ∀ vs pc I, p.ControlPath vs pc → p.code[pc]? = some I →
    ∀ r ∈ p.readRegs R I, p.Defined (fun r => p.isLiveIn r = true) vs r
  outs : ∀ vs pc, p.ControlPath vs pc → p.code.length ≤ pc →
    ∀ r ∈ p.outRegs, p.Defined (fun r => p.isLiveIn r = true) vs r

end IslandProg

namespace Program

variable {V E S : Type*} [Field V]

/-- Where a run goes from an instruction is one of its successors. -/
lemma next_mem_successors {M : StanMath V E S} {p : Program V} {I : Instr} {pc : ℕ}
    {s s' : File V S} (h : p.exec M I s = .ok s') : I.next M pc s ∈ I.successors pc := by
  cases hc : I.code with
  | jz =>
    simp only [Instr.next, Instr.successors, hc]
    split <;> simp
  | reject =>
    simp only [exec, hc] at h
    cases hm : p.messages[I.a]? <;> simp only [hm] at h <;> cases h
  | _ => simp [Instr.next, Instr.successors, hc]

/-- A run that does not fail follows a control path. -/
theorem controlPath_of_sweep {M : StanMath V E S} {p : Program V}
    (hf : (p.machine M).Forward p.code) {s t : File V S} {vs : List (ℕ × File V S)} {nx : ℕ}
    (hrun : (p.machine M).sweep 0 p.code 0 s = (vs, .ok (nx, t))) :
    ∃ pc, p.code.length ≤ pc ∧ p.ControlPath (vs.map Prod.fst) pc := by
  have := Branching.sweep_invariant_start (B := p.machine M)
    (I := fun k nx vs _ => p.ControlPath (vs.map Prod.fst) (max nx k))
    (fun k nx I vs s s' hI hle h he => by
      rw [max_eq_right hle] at h
      have hlt : k < I.next M k s := hf k I s hI
      change p.ControlPath _ (max (I.next M k s) (k + 1))
      rw [max_eq_left hlt, List.map_append]
      exact h.step hI (next_mem_successors he))
    (fun k nx vs s hlt h => by
      rw [max_eq_left (Nat.succ_le_of_lt hlt), ← max_eq_left hlt.le]
      exact h)
    ControlPath.start hrun
  exact ⟨_, by simp, this⟩

/-- At the end of a run a register holds what the last visited instruction that may write it left. -/
theorem final_eq_of_notMem {M : StanMath V E S} {p : Program V}
    (hframe : ∀ I ∈ p.code, ∀ s s' : File V S, p.exec M I s = .ok s' →
      ∀ r ∉ p.writes I, s'.reg r = s.reg r) {s t : File V S} {vs : List (ℕ × File V S)} {nx : ℕ}
    (hrun : (p.machine M).sweep 0 p.code 0 s = (vs, .ok (nx, t))) {v : ℕ × File V S} (hv : v ∈ vs)
    {I : Instr} {s' : File V S} (hI : p.code[v.1]? = some I) (he : p.exec M I v.2 = .ok s') {r : ℕ}
    (hr : ∀ j J, v.1 < j → p.code[j]? = some J → r ∉ p.writes J) : t.reg r = s'.reg r := by
  have := Branching.sweep_invariant_start (B := p.machine M)
    (I := fun k _ vs s => (∀ v ∈ vs, v.1 < k) ∧ ∀ v ∈ vs, ∀ I s', p.code[v.1]? = some I →
      p.exec M I v.2 = .ok s' → ∀ r, (∀ j J, v.1 < j → p.code[j]? = some J → r ∉ p.writes J) →
        s.reg r = s'.reg r)
    (fun k nx I vs s s' hI hle h he => by
      refine ⟨fun v hv => ?_, fun v hv J s'' hJ he' r hr => ?_⟩
      · rcases List.mem_append.1 hv with hv | hv
        · exact (h.1 v hv).trans (Nat.lt_succ_self k)
        · obtain rfl : v = (k, s) := by simpa using hv
          exact Nat.lt_succ_self k
      · rcases List.mem_append.1 hv with hv | hv
        · rw [hframe I (List.mem_of_getElem? hI) s s' he r (hr k I (h.1 v hv) hI)]
          exact h.2 v hv J s'' hJ he' r hr
        · obtain rfl : v = (k, s) := by simpa using hv
          obtain rfl : I = J := Option.some.inj (hI.symm.trans hJ)
          obtain rfl : s' = s'' := Except.ok.inj (he.symm.trans he')
          rfl)
    (fun k nx vs s hlt h => ⟨fun v hv => (h.1 v hv).trans (Nat.lt_succ_self k), h.2⟩)
    ⟨by simp, by simp⟩ hrun
  exact this.2 v (by simpa using hv) I s' hI he r hr

end Program

end Stanli
