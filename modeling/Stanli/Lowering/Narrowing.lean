import Stanli.Lowering.IslandInputsSound
import Stanli.Program.DeadConstants

/-!
# Narrowed live-ins

`used_program_inputs` cuts the window of each live-in down to the registers that something reads.  What the
island no longer seeds is read by no instruction and is no live-out, so it takes the same path, reads the
same values on it and returns the same (`narrowInputs_preserves`).
-/

namespace Stanli

open Program

namespace Program

variable {V E S : Type*}

/-! ## The registers that are read -/

section Seeding

variable {read : ℕ → Bool} {x y : ℕ → V}

lemma LiveIn.Narrowed.writeRun_values {li li' : LiveIn} (h : li.Narrowed read li')
    (hxy : ∀ r, read r = true → x r = y r) (inputs : List (List V)) (k : ℕ) :
    ∀ r, read r = true → writeRun x li.reg (li.values inputs k) r =
      writeRun y li'.reg (li'.values inputs k) r := by
  have hout : ∀ (l : LiveIn) (r : ℕ), ¬r < l.reg + l.len →
      (l.values inputs k)[r - l.reg]? = none := fun l r hr => by
    rw [List.getElem?_eq_none_iff, LiveIn.values, List.window, List.length_take]
    omega
  have hreg := h.reg_le
  have hend := h.end_le
  have hoffset := h.offset_eq
  intro r hr
  unfold writeRun
  by_cases hmem : r ∈ li.regs
  · have hkept := Span.mem_regs.1 (h.keeps r hmem hr)
    have hwhole := Span.mem_regs.1 hmem
    dsimp only at hkept hwhole
    have helem : li.offset + (r - li.reg) = li'.offset + (r - li'.reg) := by omega
    rw [if_pos hwhole.1, if_pos hkept.1, hxy r hr, LiveIn.values, LiveIn.values,
      List.getElem?_window (by omega), List.getElem?_window (by omega), h.input_eq, helem]
  · have hwhole : ¬(li.reg ≤ r ∧ r < li.reg + li.len) := fun h => hmem (Span.mem_regs.2 h)
    have hleft : (if li.reg ≤ r then ((li.values inputs k)[r - li.reg]?).getD (x r) else x r) = x r := by
      split
      · rw [hout li r (by omega), Option.getD_none]
      · rfl
    have hright : (if li'.reg ≤ r then ((li'.values inputs k)[r - li'.reg]?).getD (y r) else y r) =
        y r := by
      split
      · rw [hout li' r (by omega), Option.getD_none]
      · rfl
    rw [hleft, hright, hxy r hr]

/-- Both seedings leave the same in the registers that are read. -/
lemma foldl_seeds_narrowed {ins ins' : List LiveIn} (h : List.Forall₂ (LiveIn.Narrowed read) ins ins')
    (hxy : ∀ r, read r = true → x r = y r) (inputs : List (List V)) (k : ℕ) :
    ∀ r, read r = true →
      (seeds inputs k ins).foldl (fun reg e => writeRun reg e.1 e.2) x r =
        (seeds inputs k ins').foldl (fun reg e => writeRun reg e.1 e.2) y r := by
  induction h generalizing x y k with
  | nil => exact hxy
  | cons hli _ ih => exact ih (hli.writeRun_values hxy inputs k) (k + 1)

end Seeding

/-! ## Runs from files that agree there -/

section Runs

variable [Field V] {M : StanMath V E S} {p : Program V} {s t : File V S}

/-- What a run shows of a visit: the position and what the instruction there sees. -/
def visible (M : StanMath V E S) (p : Program V) (v : ℕ × File V S) :
    ℕ × Option (Code × List (List V) × Option Bool) := (v.1, p.seenAt M v)

/-- From the file `t` the program does what it does from `s`: executions of any length visit the same
positions and see the same there, and runs end with the same error or the same live-outs. -/
structure RunsLike (M : StanMath V E S) (p : Program V) (s t : File V S) : Prop where
  steps : ∀ vs k s', (p.machine M).Steps p.code 0 s vs k s' →
    ∃ ws t', (p.machine M).Steps p.code 0 t ws k t' ∧ ws.map (p.visible M) = vs.map (p.visible M)
  runs : ∀ vs r, p.Runs M s vs r → ∃ ws r', p.Runs M t ws r' ∧
    ws.map (p.visible M) = vs.map (p.visible M) ∧ Alike (AgreeOn fun r => r ∈ p.outRegs) r r'

lemma RunsLike.refl (M : StanMath V E S) (p : Program V) (s : File V S) : RunsLike M p s s :=
  ⟨fun vs _ s' h => ⟨vs, s', h, rfl⟩,
    fun vs r h => ⟨vs, r, h, rfl, Alike.refl (fun _ => ⟨fun _ _ => rfl, rfl⟩) r⟩⟩

/-- The program follows itself from a file that agrees on what is read anywhere. -/
lemma follows_of_readAnywhere (hW : M.FillsOutputs) (haudit : ∀ I ∈ p.code, I.isAudited = true) :
    Branching.Follows (p.machine M) (p.machine M) p.code p.code id (fun v => some (p.visible M v))
      (fun v => some (p.visible M v))
      fun _ => AgreeOn fun r => p.readAnywhere M.toRegistry r = true := by
  have hreads : ∀ {k I}, p.code[k]? = some I → ∀ i ∈ p.eachRead M.toRegistry I, ∀ r ∈ i.regs,
      p.readAnywhere M.toRegistry r = true := fun hI i hi r hr => by
    rw [readAnywhere, Bool.or_eq_true, List.any_eq_true]
    exact .inl ⟨_, List.mem_of_getElem? hI, List.any_eq_true.2 ⟨i, hi, decide_eq_true hr⟩⟩
  have hsame : ∀ I : Instr, IslandProg.retarget id I = I := fun I => by
    unfold IslandProg.retarget
    split <;> rfl
  have hseen : ∀ {k I s t}, p.code[k]? = some I →
      AgreeOn (fun r => p.readAnywhere M.toRegistry r = true) s t →
      some (p.visible M (k, s)) = some (p.visible M (k, t)) := fun {k I s t} hI hrel => by
    have hI' : (p.withCode p.code).code[k]? = some (IslandProg.retarget id I) := by
      rw [hsame]
      exact hI
    rw [visible, visible, seenAt_congr (hreads hI) hrel hI hI']
    rfl
  refine ⟨fun k s t _ h => h, fun k I s t e hrel hI hex => ?_, fun k I s t s' hrel hI hex => ?_⟩ <;>
    have halike := exec_agree_audited (haudit I (List.mem_of_getElem? hI)) hW (hreads hI) hrel
  · change p.exec M I s = .error e at hex
    rw [hex] at halike
    refine ⟨hseen hI hrel, I, hI, ?_⟩
    cases ht : p.exec M I t with
    | ok t' =>
      rw [ht] at halike
      exact halike.elim
    | error e' =>
      rw [ht] at halike
      exact ht.trans (congrArg _ (Eq.symm halike))
  · change p.exec M I s = .ok s' at hex
    rw [hex] at halike
    cases ht : p.exec M I t with
    | error e' =>
      rw [ht] at halike
      exact halike.elim
    | ok t' =>
      rw [ht] at halike
      exact .inr ⟨I, t', hI, ht, (next_agree k (hreads hI) hrel).symm, hseen hI hrel,
        fun r hr => halike.1 r (.inl hr), halike.2⟩

lemma runsLike_of_agree (hW : M.FillsOutputs) (haudit : ∀ I ∈ p.code, I.isAudited = true)
    (h : AgreeOn (fun r => p.readAnywhere M.toRegistry r = true) s t) : RunsLike M p s t := by
  have hfollows := follows_of_readAnywhere hW haudit
  have hmap : ∀ vs : List (ℕ × File V S), vs.filterMap (fun v => some (p.visible M v)) =
      vs.map (p.visible M) := fun vs =>
    congrFun List.filterMap_eq_map' vs
  constructor
  · intro vs k s' hsteps
    obtain ⟨ws, t', hws, hshown, -⟩ := hfollows.execution h hsteps
    exact ⟨ws, t', hws, by rwa [hmap, hmap] at hshown⟩
  · rintro vs r ⟨fuel, hrun⟩
    obtain ⟨ws, r', hws, hshown, hends⟩ := hfollows.run h hrun
    refine ⟨ws, r', ⟨fuel, hws⟩, by rwa [hmap, hmap] at hshown, ?_⟩
    rcases hends with ⟨e, rfl, rfl⟩ | ⟨k, s', t', rfl, rfl, -, hrel⟩
    · exact rfl
    · refine ⟨fun r hr => hrel.1 r ?_, hrel.2⟩
      change p.readAnywhere M.toRegistry r = true
      rw [readAnywhere, Bool.or_eq_true]
      exact .inr (decide_eq_true hr)

/-- Seeding the narrowed windows and seeding the whole ones come to the same. -/
theorem narrowInputs_preserves (hW : M.FillsOutputs) (p : Program V) (ins : List LiveIn)
    (inputs : List (List V)) (reg : ℕ → V) (eff : S) :
    let whole : File V S := ⟨seedIsland ins inputs reg, eff⟩
    let narrowed : File V S := ⟨seedIsland (p.narrowInputs M.toRegistry ins) inputs reg, eff⟩
    RunsLike M p whole narrowed ∧ RunsLike M p narrowed whole := by
  intro whole narrowed
  by_cases hgate : (p.code.any fun I => I.rule.has .noAdjoint && !I.isJump) = true
  · have hsame : p.narrowInputs M.toRegistry ins = ins := by
      rw [narrowInputs, usedProgramInputs, if_pos hgate, zipWith_narrow_self]
    have heq : narrowed = whole := by
      simp only [narrowed, whole, hsame]
    rw [heq]
    exact ⟨.refl M p whole, .refl M p whole⟩
  · have haudit : ∀ I ∈ p.code, I.isAudited = true := fun I hI => by
      refine isAudited_of_rule ?_
      have hno := List.any_eq_false.1 (Bool.eq_false_iff.2 hgate) I hI
      cases hj : I.isJump <;> simp_all
    have hagree : AgreeOn (fun r => p.readAnywhere M.toRegistry r = true) whole narrowed :=
      ⟨foldl_seeds_narrowed (narrowInputs_narrowed _ p ins) (fun _ _ => rfl) inputs 0, rfl⟩
    exact ⟨runsLike_of_agree hW haudit hagree,
      runsLike_of_agree hW haudit ⟨fun r hr => (hagree.1 r hr).symm, rfl⟩⟩

end Runs

/-- `y = x[1] + x[2]` in front of an island that seeds `x[0]` to `x[3]`. -/
def sumOfTwo : Program ℚ where
  code := [{ code := .add, dst := 4, a := 1, b := 2 }]
  nRegs := 5
  outRegs := [4]

/-- Two of the four registers stay seeded. -/
theorem sumOfTwo_narrowed :
    sumOfTwo.narrowInputs noKernels.toRegistry [{ reg := 0, len := 4 }] =
        [{ reg := 1, len := 2, offset := 1 }] ∧
      RunsLike noKernels sumOfTwo ⟨seedIsland [{ reg := 0, len := 4 }] [[1, 2, 3, 4]] 0, ()⟩
        ⟨seedIsland [{ reg := 1, len := 2, offset := 1 }] [[1, 2, 3, 4]] 0, ()⟩ := by
  have hnarrow : sumOfTwo.narrowInputs noKernels.toRegistry [{ reg := 0, len := 4 }] =
      [{ reg := 1, len := 2, offset := 1 }] := by decide
  have h := (narrowInputs_preserves noKernels_fillsOutputs sumOfTwo [{ reg := 0, len := 4 }]
    [[1, 2, 3, 4]] 0 ()).1
  rw [hnarrow] at h
  exact ⟨hnarrow, h⟩

end Program

end Stanli
