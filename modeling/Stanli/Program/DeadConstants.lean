import Stanli.Lib.Search
import Stanli.Program.DeadStores

/-!
# Dead constants

`Program.elideAcyclicConstants` and `Program.elideDeadConstants` are `elide_acyclic_program_constants`
and `elide_program_dead_constants` of `program.cpp`.  The first looks for every constant store at all
paths behind it, in code whose branches go forward; the second only at the straight code behind it, in
any code.  What they mark are dead stores, so erasing all marks at once leaves every value read, every
branch and every live-out.
-/

namespace Stanli

open Program

namespace Program

variable {V : Type*}

/-- `overlaps`. -/
def Span.overlaps (s t : Span) : Bool := decide (s.reg < t.reg + t.len) && decide (t.reg < s.reg + s.len)

/-- A span covers a cell. -/
def Span.covers (s cell : Span) : Bool :=
  decide (s.reg ≤ cell.reg) && decide (cell.reg + cell.len ≤ s.reg + s.len)

/-- The constant stores. -/
def Instr.isConstant (I : Instr) : Bool := decide (I.code = .const ∨ I.code = .constr ∨ I.code = .fill)

/-! ## In code whose branches go forward -/

/-- The checks in front of the pass. -/
def acyclicEligible (p : Program V) : Bool :=
  let n := p.code.length
  decide (0 < n) && decide (n ≤ 2048) &&
  (p.code.zipIdx.all fun e =>
    (if e.1.isJump then decide (e.2 < e.1.dst) && decide (e.1.dst ≤ n) else !e.1.rule.has .noAdjoint) &&
    (decide (e.1.code ≠ .call) || decide (e.1.a < p.calls.length))) &&
  p.code.any Instr.isJump &&
  decide (p.code.countP Instr.isConstant * n ≤ 1024 * 1024)

/-- One instruction of the reachability scan. -/
def reachStep (reached : List ℕ) (e : Instr × ℕ) : List ℕ :=
  if e.2 ∈ reached then
    (if e.1.code ≠ .jmp then [e.2 + 1] else []) ++ (if e.1.isJump then [e.1.dst] else []) ++ reached
  else reached

/-- `reached`. -/
def reachedList (p : Program V) : List ℕ := p.code.zipIdx.foldl reachStep [0]

/-- What the search for a read of a cell finds at a position: a read of it, or where it goes on. -/
def cellVisit (R : Registry) (p : Program V) (cell : Span) (pc : ℕ) : Option (List ℕ) :=
  match p.code[pc]? with
  | none => if p.outRegs.any fun r => cell.overlaps ⟨r, 1⟩ then none else some []
  | some I =>
    if (p.eachRead R I).any cell.overlaps then none
    else if (p.storedSpans I).any fun s => s.covers cell then some []
    else some ((if I.code ≠ .jmp then [pc + 1] else []) ++ if I.isJump then [I.dst] else [])

/-- Some path from a position reads or returns the cell before it is overwritten. -/
def cellRead (R : Registry) (p : Program V) (cell : Span) (pc : ℕ) : Bool :=
  search (p.cellVisit R cell) (3 * (p.code.length + 1) + 2) [pc] []

/-- `remove`: the instructions that are never reached, and the dead constants. -/
def acyclicMarks (R : Registry) (p : Program V) : List Bool :=
  p.code.zipIdx.map fun e =>
    !decide (e.2 ∈ p.reachedList) ||
      (e.1.isConstant && !p.cellRead R ⟨e.1.dst, e.1.outputLen⟩ (e.2 + 1))

/-- `elide_acyclic_program_constants`: whether the program changed, and the program.  `disabled` is
the environment's `STANLI_NO_CFG_DEAD_CONSTANTS`. -/
def elideAcyclicConstants (R : Registry) (disabled : Bool) (p : Program V) : Bool × Program V :=
  if disabled || !p.acyclicEligible || (p.acyclicMarks R).all (!·) then (false, p)
  else (true, p.eraseStores (p.acyclicMarks R))

/-! ## In any code -/

/-- The code behind a constant overwrites its cell before it reads it, with no control flow and no
instruction without modelled spans in between. -/
def overwrittenFirst (R : Registry) (p : Program V) (cell : Span) : List Instr → Bool
  | [] => false
  | I :: is =>
    if I.rule.has .noAdjoint then false
    else if (p.eachRead R I).any cell.overlaps then false
    else if (p.storedSpans I).any cell.overlaps then true
    else overwrittenFirst R p cell is

/-- `remove`. -/
def straightMarks (R : Registry) (p : Program V) : List Bool :=
  p.code.zipIdx.map fun e =>
    decide (e.1.code = .const) && p.overwrittenFirst R ⟨e.1.dst, 1⟩ (p.code.drop (e.2 + 1))

/-- `elide_program_dead_constants`: whether the program changed, and the program. -/
def elideDeadConstants (R : Registry) (p : Program V) : Bool × Program V :=
  if !(p.code.all fun I => !I.isJump || decide (I.dst ≤ p.code.length)) ||
      (p.straightMarks R).all (!·) then (false, p)
  else (true, p.eraseStores (p.straightMarks R))

/-! ## The marks are dead stores -/

variable {R : Registry} {p : Program V} {I : Instr} {k : ℕ}

lemma Span.overlaps_iff_exists {s t : Span} (hs : 0 < s.len) (ht : 0 < t.len) :
    s.overlaps t = true ↔ ∃ r ∈ s.regs, r ∈ t.regs := by
  simp only [overlaps, Bool.and_eq_true, decide_eq_true_eq, Span.mem_regs]
  constructor
  · rintro ⟨h1, h2⟩
    exact ⟨max s.reg t.reg, by omega, by omega⟩
  · rintro ⟨r, h1, h2⟩
    omega

lemma Span.overlaps_of_mem {s t : Span} {r : ℕ} (hs : r ∈ s.regs) (ht : r ∈ t.regs) :
    s.overlaps t = true := by
  have h1 := Span.mem_regs.1 hs
  have h2 := Span.mem_regs.1 ht
  exact (Span.overlaps_iff_exists (by omega) (by omega)).2 ⟨r, hs, ht⟩

lemma Span.mem_of_covers {s cell : Span} {r : ℕ} (h : s.covers cell = true) (hr : r ∈ cell.regs) :
    r ∈ s.regs := by
  simp only [covers, Bool.and_eq_true, decide_eq_true_eq] at h
  have := Span.mem_regs.1 hr
  exact Span.mem_regs.2 (by omega)

lemma droppable_of_isConstant (h : I.isConstant = true) : I.droppable = true := by
  simp only [Instr.isConstant, decide_eq_true_eq] at h
  simp only [Instr.droppable, decide_eq_true_eq]
  tauto

lemma writes_of_isConstant (h : I.isConstant = true) : p.writes I = (Span.mk I.dst I.outputLen).regs := by
  simp only [Instr.isConstant, decide_eq_true_eq] at h
  rw [writes, if_neg (by rcases h with h | h | h <;> simp [h])]

/-- The marks of a position. -/
lemma getElem?_marks {f : Instr × ℕ → Bool} (hI : p.code[k]? = some I) :
    (p.code.zipIdx.map f)[k]? = some (f (I, k)) := by
  rw [List.getElem?_map, List.getElem?_zipIdx, hI]
  simp

lemma isAudited_of_rule (h : I.isJump = true ∨ I.rule.has .noAdjoint = false) : I.isAudited = true := by
  rcases h with h | h
  · simp only [Instr.isJump, decide_eq_true_eq] at h
    rcases h with h | h <;> simp [Instr.isAudited, h]
  · by_cases hc : I.code = .range
    · simp [Instr.isAudited, hc, Code.has, Code.flags]
    · rw [Instr.rule, if_neg hc] at h
      simp [Instr.isAudited, h]

/-- The facts of an eligible program. -/
structure AcyclicChecked (p : Program V) : Prop where
  audited : ∀ I ∈ p.code, I.isAudited = true
  jump : ∀ (k : ℕ) (I : Instr), p.code[k]? = some I → I.isJump = true → k < I.dst ∧ I.dst ≤ p.code.length

lemma acyclicChecked_of_eligible (h : p.acyclicEligible = true) : AcyclicChecked p := by
  simp only [acyclicEligible, Bool.and_eq_true, List.all_eq_true] at h
  obtain ⟨⟨⟨-, hcode⟩, -⟩, -⟩ := h
  have hat : ∀ {k : ℕ} {I : Instr}, p.code[k]? = some I → (if I.isJump = true then
      decide (k < I.dst) && decide (I.dst ≤ p.code.length) else !I.rule.has .noAdjoint) = true :=
    fun {k I} hI => (hcode (I, k) (List.mk_mem_zipIdx_iff_getElem?.2 hI)).1
  constructor
  · intro I hmem
    obtain ⟨k, hI⟩ := List.getElem?_of_mem hmem
    have := hat hI
    split at this
    · exact isAudited_of_rule (Or.inl ‹_›)
    · exact isAudited_of_rule (Or.inr (by simpa using this))
  · intro k I hI hj
    have := hat hI
    rw [if_pos hj] at this
    simpa using this

/-! ### Reachability -/

lemma subset_reachStep (reached : List ℕ) (e : Instr × ℕ) : reached ⊆ reachStep reached e := by
  unfold reachStep
  split
  · exact List.subset_append_right ..
  · exact List.Subset.refl _

/-- The scan finds the positions of all control paths. -/
theorem AcyclicChecked.mem_reachedList (h : AcyclicChecked p) {vs : List ℕ} (hpath : p.ControlPath vs k) :
    k ∈ p.reachedList := by
  have hmono : ∀ (es : List (Instr × ℕ)) (reached : List ℕ), reached ⊆ es.foldl reachStep reached := by
    intro es
    induction es with
    | nil => exact fun _ => List.Subset.refl _
    | cons e es ih => exact fun reached => List.Subset.trans (subset_reachStep reached e) (ih _)
  -- A position found from the scan of position `j` on lies behind `j`.
  have hlate : ∀ (is : List Instr) (j : ℕ), (∀ i I, is[i]? = some I → p.code[j + i]? = some I) →
      ∀ (reached : List ℕ) (k : ℕ), k ≤ j → k ∈ (is.zipIdx j).foldl reachStep reached → k ∈ reached := by
    intro is
    induction is with
    | nil => exact fun j _ reached k _ hk => hk
    | cons I is ih =>
      intro j his reached k hkj hk
      rw [List.zipIdx_cons, List.foldl_cons] at hk
      have hk := ih (j + 1) (fun i J hJ => by
        rw [Nat.add_right_comm, Nat.add_assoc]
        exact his (i + 1) J hJ) _ k (by omega) hk
      unfold reachStep at hk
      split at hk
      · rw [List.mem_append, List.mem_append] at hk
        rcases hk with (hk | hk) | hk
        · split at hk <;> simp at hk
          omega
        · split at hk
          · rename_i hjump
            have := (h.jump j I (his 0 I rfl) hjump).1
            simp only [List.mem_singleton] at hk
            omega
          · simp at hk
        · exact hk
      · exact hk
  induction hpath with
  | start => exact hmono _ _ (List.mem_singleton_self 0)
  | @step vs k k' I _ hI hnext ih =>
    have hsplit : p.code.zipIdx = (p.code.take k).zipIdx ++ (I, k) :: (p.code.drop (k + 1)).zipIdx (k + 1) := by
      obtain ⟨hlt, hget⟩ := List.getElem?_eq_some_iff.1 hI
      conv_lhs => rw [← List.take_append_drop k p.code, List.drop_eq_getElem_cons hlt, hget]
      rw [List.zipIdx_append, List.zipIdx_cons, List.length_take, Nat.min_eq_left hlt.le, Nat.zero_add]
    unfold reachedList at ih ⊢
    rw [hsplit, List.foldl_append, List.foldl_cons] at ih ⊢
    have hk : k ∈ (p.code.take k).zipIdx.foldl reachStep [0] := by
      have := hlate (I :: p.code.drop (k + 1)) k (fun i J hJ => ?_) _ k le_rfl
        (by rw [List.zipIdx_cons, List.foldl_cons]; exact ih)
      · exact this
      · cases i with
        | zero =>
          obtain rfl : I = J := by simpa using hJ
          exact hI
        | succ i =>
          rw [List.getElem?_cons_succ, List.getElem?_drop] at hJ
          rwa [show k + (i + 1) = k + 1 + i by omega]
    refine hmono _ _ ?_
    rw [show reachStep _ (I, k) = _ from if_pos hk]
    exact List.mem_append_left _ (mem_of_successors hnext)

/-! ### The search -/

/-- Where a register of the cell is live the search finds a read. -/
lemma AcyclicChecked.exists_of_live (h : AcyclicChecked p) {cell : Span} {r : ℕ} (hr : r ∈ cell.regs)
    (hlive : Live R p k r) {root : ℕ} (hreach : Reached (p.cellVisit R cell) [root] k) :
    ∃ j, Reached (p.cellVisit R cell) [root] j ∧ p.cellVisit R cell j = none := by
  induction hlive with
  | @read pc r I s hI hs hrs =>
    refine ⟨pc, hreach, ?_⟩
    unfold cellVisit
    rw [hI]
    dsimp only
    rw [if_pos (List.any_eq_true.2 ⟨s, hs, Span.overlaps_of_mem hr hrs⟩)]
  | @unmodelled pc r I hI haudit =>
    rw [h.audited I (List.mem_of_getElem? hI)] at haudit
    cases haudit
  | @out pc r hend hout =>
    refine ⟨pc, hreach, ?_⟩
    unfold cellVisit
    rw [hend]
    dsimp only
    rw [if_pos (List.any_eq_true.2 ⟨r, hout, Span.overlaps_of_mem hr (by simp)⟩)]
  | @flow pc pc' r I hI hnext hdef _ ih =>
    cases hvisit : p.cellVisit R cell pc with
    | none => exact ⟨pc, hreach, hvisit⟩
    | some next =>
      refine ih hr (hreach.step hvisit ?_)
      unfold cellVisit at hvisit
      rw [hI] at hvisit
      dsimp only at hvisit
      split at hvisit
      · cases hvisit
      · split at hvisit
        · rename_i hcover
          obtain ⟨s, hs, hcov⟩ := List.any_eq_true.1 hcover
          exact absurd ((exists_storedSpans (h.audited I (List.mem_of_getElem? hI))).1
            ⟨s, hs, Span.mem_of_covers hcov hr⟩) hdef
        · rw [← Option.some.inj hvisit]
          exact mem_of_successors hnext

/-- The search is exact. -/
lemma AcyclicChecked.cellRead_iff (h : AcyclicChecked p) {cell : Span} (hk : k ≤ p.code.length) :
    p.cellRead R cell k = true ↔
      ∃ j, Reached (p.cellVisit R cell) [k] j ∧ p.cellVisit R cell j = none := by
  have hlt : ∀ j next, j < p.code.length + 1 → p.cellVisit R cell j = some next →
      next.length ≤ 2 ∧ ∀ j' ∈ next, j' < p.code.length + 1 := by
    intro j next hj hvisit
    unfold cellVisit at hvisit
    cases hI : p.code[j]? with
    | none =>
      rw [hI] at hvisit
      dsimp only at hvisit
      split at hvisit
      · cases hvisit
      · rw [← Option.some.inj hvisit]
        simp
    | some I =>
      have hlt := (List.getElem?_eq_some_iff.1 hI).1
      rw [hI] at hvisit
      dsimp only at hvisit
      split at hvisit
      · cases hvisit
      · split at hvisit
        · rw [← Option.some.inj hvisit]
          simp
        · rw [← Option.some.inj hvisit]
          constructor
          · rw [List.length_append]
            split <;> split <;> simp
          · intro j' hj'
            rcases List.mem_append.1 hj' with hj' | hj'
            · split at hj' <;> simp at hj'
              omega
            · split at hj'
              · rename_i hjump
                have := (h.jump j I hI hjump).2
                simp only [List.mem_singleton] at hj'
                omega
              · simp at hj'
  exact search_iff (Nat.lt_succ_of_le hk) hlt (by omega)

theorem AcyclicChecked.deadStores (h : AcyclicChecked p) : DeadStores R p (p.acyclicMarks R) := by
  refine ⟨by rw [acyclicMarks, List.length_map, List.length_zipIdx], fun k I vs hI hgone hpath => ?_⟩
  rw [acyclicMarks, getElem?_marks hI, Option.some.injEq] at hgone
  simp only [h.mem_reachedList hpath, decide_true, Bool.not_true, Bool.false_or, Bool.and_eq_true,
    Bool.not_eq_true'] at hgone
  obtain ⟨hconst, hread⟩ := hgone
  refine ⟨droppable_of_isConstant hconst, fun r hr hlive => ?_⟩
  have hlt := (List.getElem?_eq_some_iff.1 hI).1
  rw [writes_of_isConstant hconst] at hr
  have hfound := h.exists_of_live hr hlive (.root (List.mem_singleton_self _))
  rw [(h.cellRead_iff (Nat.succ_le_of_lt hlt)).2 hfound] at hread
  cases hread

/-! ### Straight code -/

/-- Behind a constant that is overwritten first its cell is not live. -/
lemma not_live_of_overwrittenFirst {cell : ℕ} {is : List Instr} (his : p.code.drop k = is)
    (h : p.overwrittenFirst R ⟨cell, 1⟩ is = true) : ¬Live R p k cell := by
  induction is generalizing k with
  | nil => simp [overwrittenFirst] at h
  | cons I is ih =>
    have hI : p.code[k]? = some I := by
      rw [← Nat.add_zero k, ← List.getElem?_drop, his]
      rfl
    have hdrop : p.code.drop (k + 1) = is := by
      rw [← List.drop_drop, his]
      rfl
    rw [overwrittenFirst] at h
    split at h
    · cases h
    · rename_i hadj
      have haudit := isAudited_of_rule (I := I) (Or.inr (by simpa using hadj))
      split at h
      · cases h
      · rename_i hread
        intro hlive
        cases hlive with
        | @read _ _ J s hJ hs hr =>
          obtain rfl := Option.some.inj (hI.symm.trans hJ)
          exact hread (List.any_eq_true.2 ⟨s, hs, Span.overlaps_of_mem (r := cell) (by simp) hr⟩)
        | @unmodelled _ _ J hJ hno =>
          obtain rfl := Option.some.inj (hI.symm.trans hJ)
          rw [haudit] at hno
          cases hno
        | out hend _ =>
          rw [hI] at hend
          cases hend
        | @flow _ k' _ J hJ hnext hdef hlive' =>
          obtain rfl := Option.some.inj (hI.symm.trans hJ)
          split at h
          · rename_i hwrite
            obtain ⟨s, hs, hover⟩ := List.any_eq_true.1 hwrite
            refine hdef ((exists_storedSpans haudit).1 ⟨s, hs, Span.mem_regs.2 ?_⟩)
            simp only [Span.overlaps, Bool.and_eq_true, decide_eq_true_eq] at hover
            omega
          · have hj : I.isJump = false := by
              cases hj : I.isJump with
              | false => rfl
              | true =>
                simp only [Instr.isJump, decide_eq_true_eq] at hj
                rcases hj with hc | hc <;> simp [Instr.rule, hc, Code.has, Code.flags] at hadj
            have hk' : k' = k + 1 := by
              have := mem_of_successors hnext
              rw [hj] at this
              split at this <;> simp at this
              exact this
            rw [hk'] at hlive'
            exact ih hdrop h hlive'

theorem straightMarks_dead : DeadStores R p (p.straightMarks R) := by
  refine ⟨by rw [straightMarks, List.length_map, List.length_zipIdx], fun k I vs hI hgone _ => ?_⟩
  rw [straightMarks, getElem?_marks hI, Option.some.injEq] at hgone
  simp only [Bool.and_eq_true, decide_eq_true_eq] at hgone
  obtain ⟨hc, hover⟩ := hgone
  have hconst : I.isConstant = true := by simp [Instr.isConstant, hc]
  refine ⟨droppable_of_isConstant hconst, fun r hr => ?_⟩
  have hlen : I.outputLen = 1 := by simp [Instr.outputLen, hc, Code.has, Code.flags]
  rw [writes_of_isConstant hconst, hlen, Span.mem_regs] at hr
  obtain rfl : r = I.dst := by
    dsimp only at hr
    omega
  exact not_live_of_overwrittenFirst rfl hover

/-! ## The passes -/

/-- Both passes preserve what surviving instructions read, the branches and the live-outs, on
executions of any length from any file, however many stores they erase at once. -/
theorem elideConstants_preserve {E S : Type*} [Field V] {M : StanMath V E S} (hW : M.FillsOutputs)
    (disabled : Bool) (p : Program V) :
    PreservesSurvivors M p (p.elideAcyclicConstants M.toRegistry disabled).2
      (if (p.elideAcyclicConstants M.toRegistry disabled).1 then p.acyclicMarks M.toRegistry else []) ∧
    PreservesSurvivors M p (p.elideDeadConstants M.toRegistry).2
      (if (p.elideDeadConstants M.toRegistry).1 then p.straightMarks M.toRegistry else []) := by
  constructor
  · unfold elideAcyclicConstants
    split
    · exact .refl M p
    · rename_i hrun
      simp only [Bool.or_eq_true, Bool.not_eq_true', not_or, Bool.not_eq_true,
        Bool.not_eq_false] at hrun
      exact eraseStores_preserves hW (acyclicChecked_of_eligible hrun.1.2).deadStores
  · unfold elideDeadConstants
    split
    · exact .refl M p
    · exact eraseStores_preserves hW straightMarks_dead

/-- `y = c; y = d; y = x ? d : c; z = y`. -/
def shadowedConstants : Program ℚ where
  code := [{ code := .const, dst := 1, a := 0 }, { code := .const, dst := 1, a := 1 },
    { code := .jz, a := 0, dst := 5 }, { code := .const, dst := 1, a := 1 }, { code := .jmp, dst := 6 },
    { code := .const, dst := 1, a := 0 }, { code := .mov, dst := 2, a := 1 }]
  pool := [3, 4]
  nRegs := 3
  outRegs := [2]

/-- The first constant of `shadowedConstants` is dead because of the second, and the second because of
the branches: both go in one call. -/
theorem shadowedConstants_preserved :
    ((shadowedConstants.elideAcyclicConstants noKernels.toRegistry false).2.code.map Instr.code =
      [.jz, .const, .jmp, .const, .mov]) ∧
    PreservesSurvivors noKernels shadowedConstants
      (shadowedConstants.elideAcyclicConstants noKernels.toRegistry false).2
      (if (shadowedConstants.elideAcyclicConstants noKernels.toRegistry false).1 then
        shadowedConstants.acyclicMarks noKernels.toRegistry else []) ∧
    PreservesSurvivors noKernels shadowedConstants
      (shadowedConstants.elideDeadConstants noKernels.toRegistry).2
      (if (shadowedConstants.elideDeadConstants noKernels.toRegistry).1 then
        shadowedConstants.straightMarks noKernels.toRegistry else []) :=
  ⟨by decide +kernel, elideConstants_preserve noKernels_fillsOutputs false shadowedConstants⟩

end Program

end Stanli
