import Stanli.Lib.Simulation
import Stanli.Program.DeadConstants

/-!
# Sinking fills

`Program.sinkFills` is `sink_program_fills` of `program.cpp`: a range initialisation moves to the
latest position that dominates everything that touches its registers.  Neither position may lie in a
cycle.  Here are the pass and what it has checked of a move, in terms of the paths of the program
(`SinkChecked.path`): on no path the registers are touched between the two positions.
-/

namespace Stanli

open Program

namespace Program

variable {V : Type*}

/-! ## The pass -/

/-- `cyclic`: some back edge spans a position. -/
def inCycle (p : Program V) (k : ℕ) : Bool :=
  p.code.zipIdx.any fun e => e.1.isJump && decide (e.1.dst ≤ k) && decide (k ≤ e.2)

/-- The nodes on every path to a node, and the node itself. -/
def dominatorFlow (p : Program V) : Flow where
  size := p.code.length + 1
  width := 64 * ((p.code.length + 64) / 64)
  pred := p.preds
  entry := ∅
  gen := fun pc => {pc}

/-- `dom`. -/
def dominators (p : Program V) : Flow.Facts :=
  p.dominatorFlow.solve
    ({0} :: List.replicate p.code.length (Finset.range p.dominatorFlow.width))

/-- An instruction reads or writes a register of a range. -/
def touches (R : Registry) (p : Program V) (range : Span) (I : Instr) : Bool :=
  (p.eachRead R I ++ p.eachWrite I).any range.overlaps

/-- The positions other than `pc` that touch a range; behind the code the live-outs do. -/
def accesses (R : Registry) (p : Program V) (range : Span) (pc : ℕ) : List ℕ :=
  (p.code.zipIdx.filter fun e => decide (e.2 ≠ pc) && p.touches R range e.1).map Prod.snd ++
    if p.outRegs.any fun r => range.overlaps ⟨r, 1⟩ then [p.code.length] else []

/-- `other_fill`. -/
def otherFill (R : Registry) (p : Program V) (range : Span) (pc : ℕ) : Bool :=
  p.code.zipIdx.any fun e =>
    decide (e.2 ≠ pc) && p.touches R range e.1 && decide (e.1.code = .fill)

/-- `destination`: where the `FILL` at a position goes. -/
def sinkTarget (R : Registry) (p : Program V) (dom : Flow.Facts) (e : Instr × ℕ) : Option ℕ :=
  if e.1.code ≠ .fill ∨ e.1.len ≤ 1 ∨ p.inCycle e.2 = true then none
  else
    let range : Span := ⟨e.1.dst, e.1.len⟩
    let uses := p.accesses R range e.2
    let common := uses.foldl (fun bits use => bits ∩ dom.getD use ∅)
      (Finset.range p.dominatorFlow.width)
    if uses.isEmpty || p.otherFill R range e.2 then none
    else (List.range (p.code.length + 1)).reverse.find? fun target =>
      decide (e.2 + 1 < target) && !p.inCycle target && decide (target ∈ common) &&
        decide (e.2 ∈ dom.getD target ∅)

/-- The checks in front of the pass. -/
def sinkEligible (p : Program V) : Bool :=
  decide (0 < p.code.length) && decide (p.code.length ≤ 2048) &&
  p.code.all (fun I => I.isAudited && (!I.isJump || decide (I.dst ≤ p.code.length))) &&
  p.code.any fun I => decide (I.code = .fill)

/-- The destinations of all instructions. -/
def sinkTargets (R : Registry) (p : Program V) : List (Option ℕ) :=
  let dom := p.dominators
  p.code.zipIdx.map (p.sinkTarget R dom)

/-- The new code at an old position: the fills that have moved there, and the instruction unless it
has moved away. -/
def sinkBlock (p : Program V) (targets : List (Option ℕ)) (k : ℕ) : List (Instr × ℕ) :=
  (p.code.zipIdx.filter fun e => decide (targets.getD e.2 none = some k)) ++
    (p.code[k]?).elim [] fun I => if (targets.getD k none).isNone then [(I, k)] else []

/-- The blocks of all positions and of the end. -/
def sinkBlocks (p : Program V) (targets : List (Option ℕ)) : List (List (Instr × ℕ)) :=
  (List.range (p.code.length + 1)).map (p.sinkBlock targets)

/-- `new_pc`. -/
def sunkPos (p : Program V) (targets : List (Option ℕ)) (k : ℕ) : ℕ :=
  Branching.blockPos 0 (p.sinkBlocks targets) k

/-- The program with the fills at their new positions. -/
def sunk (p : Program V) (targets : List (Option ℕ)) : Program V :=
  p.withCode ((p.sinkBlocks targets).flatten.map fun e =>
    IslandProg.retarget (p.sunkPos targets) e.1)

/-- `sink_program_fills`: whether the program changed, and the program.  `disabled` is the
environment's `STANLI_NO_FILL_SINK`. -/
def sinkFills (R : Registry) (disabled : Bool) (p : Program V) : Bool × Program V :=
  if disabled || !p.sinkEligible || (p.sinkTargets R).all Option.isNone then (false, p)
  else (true, p.sunk (p.sinkTargets R))

/-! ## Dominance on paths -/

variable {R : Registry} {p : Program V} {k : ℕ}

/-- A control path is a path of every analysis over the predecessors. -/
lemma ControlPath.flow {F : Flow} (hpred : F.pred = p.preds) (hsize : F.size = p.code.length + 1)
    {vs : List ℕ} (hpath : p.ControlPath vs k) : F.Path vs k := by
  induction hpath with
  | start => exact .start
  | step _ hI hnext ih =>
    have hlt := (List.getElem?_eq_some_iff.1 hI).1
    exact ih.step (by omega) (hpred ▸ mem_preds hI hnext)

lemma dominators_fixed (p : Program V) : p.dominatorFlow.Fixed p.dominators := by
  have hbit : ∀ pc ≤ p.code.length, pc < p.dominatorFlow.width := by
    intro pc hpc
    change pc < 64 * ((p.code.length + 64) / 64)
    omega
  refine Flow.solve_fixed ⟨by simp [dominatorFlow], fun pc hpc => ?_⟩ fun bits hbits => ?_
  · cases pc with
    | zero =>
      intro r hr
      rcases Finset.mem_union.1 hr with hr | hr
      · exact absurd (Flow.mem_entry_of_mem_incoming hr) (Finset.notMem_empty r)
      · simpa [dominatorFlow] using hr
    | succ pc =>
      have hlt : pc < p.code.length := Nat.lt_of_succ_lt_succ hpc
      rw [List.getD_cons_succ, List.getD_eq_getElem?_getD, List.getElem?_replicate, if_pos hlt]
      refine Finset.union_subset (fun r hr => ?_) fun r hr => ?_
      · have hinit := (Flow.mem_foldl_inter.1 hr).1
        rw [if_neg (Nat.succ_ne_zero pc)] at hinit
        split at hinit
        · exact absurd hinit (Finset.notMem_empty r)
        · exact hinit
      · obtain rfl := Finset.mem_singleton.1 hr
        exact Finset.mem_range.2 (hbit _ hlt)
  · rcases List.mem_cons.1 hbits with rfl | hbits
    · exact Finset.singleton_subset_iff.2 (Finset.mem_range.2 (hbit 0 (Nat.zero_le _)))
    · rw [List.eq_of_mem_replicate hbits]

/-- A dominator of a position is on every path to it. -/
theorem mem_of_mem_dominators {vs : List ℕ} {d : ℕ} (hpath : p.ControlPath vs k)
    (hk : k ≤ p.code.length) (h : d ∈ p.dominators.getD k ∅) : d ∈ vs ∨ d = k := by
  rw [dominators_fixed p k (Nat.lt_succ_of_le hk), Finset.mem_union] at h
  rcases h with h | h
  · have hflow : p.dominatorFlow.Path vs k := hpath.flow rfl rfl
    rcases Flow.sound (dominators_fixed p) hflow h with hentry | ⟨j, hj, hgen⟩
    · exact absurd hentry (Finset.notMem_empty d)
    · obtain rfl := Finset.mem_singleton.1 hgen
      exact Or.inl hj
  · exact Or.inr (Finset.mem_singleton.1 h)

/-- A path that is in front of a position outside all cycles, or at it, has been in front of it all
the time. -/
theorem ControlPath.before_acyclic {vs : List ℕ} {j : ℕ} (hpath : p.ControlPath vs k)
    (hj : p.inCycle j = false) (hk : k ≤ j) : ∀ v ∈ vs, v < j := by
  induction hpath with
  | start => simp
  | @step vs k k' I _ hI hnext ih =>
    have hlt : k < j := by
      by_contra hge
      have hback : I.isJump = true ∧ I.dst = k' := by
        have := mem_of_successors hnext
        rcases List.mem_append.1 this with h | h
        · split at h <;> simp at h
          omega
        · split at h
          · rename_i hjump
            exact ⟨hjump, (List.mem_singleton.1 h).symm⟩
          · simp at h
      have hcycle : p.inCycle j = true := by
        refine List.any_eq_true.2 ⟨(I, k), List.mk_mem_zipIdx_iff_getElem?.2 hI, ?_⟩
        simp only [hback.1, hback.2, Bool.true_and, Bool.and_eq_true, decide_eq_true_eq]
        omega
      rw [hj] at hcycle
      cases hcycle
    intro v hv
    rcases List.mem_append.1 hv with hv | hv
    · exact ih hlt.le v hv
    · obtain rfl := List.mem_singleton.1 hv
      exact hlt

/-- A position outside all cycles is visited once. -/
lemma ControlPath.lt_of_mem_acyclic {vs : List ℕ} {j : ℕ} (hpath : p.ControlPath vs k)
    (hj : p.inCycle j = false) (hmem : j ∈ vs) : j < k := by
  by_contra hge
  exact absurd (hpath.before_acyclic hj (by omega) j hmem) (lt_irrefl j)

lemma ControlPath.count_acyclic {vs : List ℕ} {j : ℕ} (hpath : p.ControlPath vs k)
    (hj : p.inCycle j = false) : (vs ++ [k]).count j ≤ 1 := by
  induction hpath with
  | start =>
    rw [List.nil_append]
    exact List.count_le_length
  | @step vs k k' I hpath hI hnext ih =>
    rw [List.count_append]
    rcases eq_or_ne k' j with rfl | hne
    · have hlt := (hpath.step hI hnext).before_acyclic hj le_rfl
      rw [List.count_eq_zero_of_not_mem fun hmem => absurd (hlt _ hmem) (lt_irrefl _)]
      simp
    · rw [List.count_singleton, beq_eq_false_iff_ne.2 hne]
      simpa using ih

/-! ## What the pass has checked -/

/-- The registers of the fill at a position. -/
def fillRange (p : Program V) (pc : ℕ) : Span :=
  (p.code[pc]?).elim ⟨0, 0⟩ fun I => ⟨I.dst, I.len⟩

/-- What is known of a program whose fills are sunk to `targets`. -/
structure SinkChecked (R : Registry) (p : Program V) (targets : List (Option ℕ)) : Prop where
  audited : ∀ I ∈ p.code, I.isAudited = true
  jump : ∀ I ∈ p.code, I.isJump = true → I.dst ≤ p.code.length
  fill : ∀ pc target, targets.getD pc none = some target → ∃ I, p.code[pc]? = some I ∧ I.code = .fill
  behind : ∀ pc target, targets.getD pc none = some target → pc + 1 < target ∧ target ≤ p.code.length
  acyclic : ∀ pc target, targets.getD pc none = some target →
    p.inCycle pc = false ∧ p.inCycle target = false
  through : ∀ pc target, targets.getD pc none = some target → pc ∈ p.dominators.getD target ∅
  access : ∀ pc target k I, targets.getD pc none = some target → p.code[k]? = some I → k ≠ pc →
    p.touches R (p.fillRange pc) I = true → target ∈ p.dominators.getD k ∅ ∧ I.code ≠ .fill
  out : ∀ pc target r, targets.getD pc none = some target → r ∈ p.outRegs →
    r ∈ (p.fillRange pc).regs → target ∈ p.dominators.getD p.code.length ∅

lemma getD_sinkTargets {pc : ℕ} :
    (p.sinkTargets R).getD pc none =
      (p.code[pc]?).elim none fun I => p.sinkTarget R p.dominators (I, pc) := by
  rw [sinkTargets, List.getD_eq_getElem?_getD, List.getElem?_map, List.getElem?_zipIdx]
  cases p.code[pc]? with
  | none => rfl
  | some I => simp

theorem sinkChecked_of_eligible (h : p.sinkEligible = true) : SinkChecked R p (p.sinkTargets R) := by
  simp only [sinkEligible, Bool.and_eq_true, List.all_eq_true] at h
  obtain ⟨⟨-, hcode⟩, -⟩ := h
  -- What a destination says of the fill and of the destination.
  have hfind : ∀ {pc target}, (p.sinkTargets R).getD pc none = some target →
      ∃ I, p.code[pc]? = some I ∧ I.code = .fill ∧ p.inCycle pc = false ∧
        p.otherFill R ⟨I.dst, I.len⟩ pc = false ∧ pc + 1 < target ∧ target ≤ p.code.length ∧
        p.inCycle target = false ∧ pc ∈ p.dominators.getD target ∅ ∧
        ∀ use ∈ p.accesses R ⟨I.dst, I.len⟩ pc, target ∈ p.dominators.getD use ∅ := by
    intro pc target htarget
    rw [getD_sinkTargets] at htarget
    cases hI : p.code[pc]? with
    | none => simp [hI] at htarget
    | some I =>
      rw [hI] at htarget
      change p.sinkTarget R p.dominators (I, pc) = some target at htarget
      unfold sinkTarget at htarget
      split at htarget
      · cases htarget
      · rename_i hfill
        simp only [not_or, not_not, Bool.not_eq_true] at hfill
        dsimp only at htarget
        split at htarget
        · cases htarget
        · rename_i hother
          simp only [Bool.or_eq_true, not_or, Bool.not_eq_true] at hother
          have hmem := List.mem_range.1 (List.mem_reverse.1 (List.mem_of_find?_eq_some htarget))
          have hsome := List.find?_some htarget
          simp only [Bool.and_eq_true, Bool.not_eq_true', decide_eq_true_eq] at hsome
          obtain ⟨⟨⟨hlt, hcycle⟩, hcommon⟩, hdom⟩ := hsome
          exact ⟨I, rfl, hfill.1, hfill.2.2, hother.2, hlt, by omega, hcycle, hdom,
            (Flow.mem_foldl_inter.1 hcommon).2⟩
  refine ⟨fun I hI => ?_, fun I hI hj => ?_, fun pc target ht => ?_, fun pc target ht => ?_,
    fun pc target ht => ?_, fun pc target ht => ?_, fun pc target k J ht hJ hne htouch => ?_,
    fun pc target r ht hr hreg => ?_⟩
  · exact (hcode I hI).1
  · have := (hcode I hI).2
    simp only [Bool.or_eq_true, Bool.not_eq_true', decide_eq_true_eq] at this
    exact this.resolve_left (by simp [hj])
  · obtain ⟨I, hI, hc, -⟩ := hfind ht
    exact ⟨I, hI, hc⟩
  · obtain ⟨I, -, -, -, -, h1, h2, -⟩ := hfind ht
    exact ⟨h1, h2⟩
  · obtain ⟨I, -, -, h1, -, -, -, h2, -⟩ := hfind ht
    exact ⟨h1, h2⟩
  · obtain ⟨I, -, -, -, -, -, -, -, h, -⟩ := hfind ht
    exact h
  · obtain ⟨I, hI, -, -, hother, -, -, -, -, huse⟩ := hfind ht
    rw [fillRange, hI] at htouch
    change p.touches R ⟨I.dst, I.len⟩ J = true at htouch
    have hmem := List.mk_mem_zipIdx_iff_getElem?.2 hJ
    constructor
    · refine huse k (List.mem_append_left _ (List.mem_map.2 ⟨(J, k), List.mem_filter.2 ⟨hmem, ?_⟩, rfl⟩))
      simp [hne, htouch]
    · intro hc
      have : p.otherFill R ⟨I.dst, I.len⟩ pc = true :=
        List.any_eq_true.2 ⟨(J, k), hmem, by simp [hne, htouch, hc]⟩
      rw [hother] at this
      cases this
  · obtain ⟨I, hI, -, -, -, -, -, -, -, huse⟩ := hfind ht
    rw [fillRange, hI] at hreg
    refine huse _ (List.mem_append_right _ ?_)
    rw [if_pos (List.any_eq_true.2 ⟨r, hr, Span.overlaps_of_mem hreg (by simp)⟩)]
    exact List.mem_singleton_self _

/-! ## A move on a path -/

/-- What holds of a move on every path: the registers are not touched between the old and the new
position, nor returned; the new position is reached through the old one only, and visited once. -/
structure MovesSafely (R : Registry) (p : Program V) (pc target : ℕ) : Prop where
  untouched : ∀ vs k I, p.ControlPath vs k → p.code[k]? = some I → k ≠ pc → target ∉ vs → k ≠ target →
    ∀ s ∈ p.eachRead R I ++ p.eachWrite I, ∀ r ∈ s.regs, r ∉ (p.fillRange pc).regs
  unreturned : ∀ vs, p.ControlPath vs p.code.length → target ∉ vs → p.code.length ≠ target →
    ∀ r ∈ p.outRegs, r ∉ (p.fillRange pc).regs
  through : ∀ vs k, p.ControlPath vs k → target ∈ vs ++ [k] → pc ∈ vs
  once : ∀ vs k, p.ControlPath vs k → (vs ++ [k]).count target ≤ 1

theorem SinkChecked.path {targets : List (Option ℕ)} (h : SinkChecked R p targets) {pc target : ℕ}
    (ht : targets.getD pc none = some target) : MovesSafely R p pc target := by
  have hthrough : ∀ {vs : List ℕ}, p.ControlPath vs target → pc ∈ vs := fun hpath =>
    (mem_of_mem_dominators hpath (h.behind pc target ht).2 (h.through pc target ht)).resolve_right (by
      have := (h.behind pc target ht).1
      omega)
  refine ⟨fun vs k I hpath hI hne hnot hk s hs r hr hreg => ?_, fun vs hpath hnot hk r hr hreg => ?_,
    fun vs k hpath hmem => ?_, fun vs k hpath => hpath.count_acyclic (h.acyclic pc target ht).2⟩
  · have htouch : p.touches R (p.fillRange pc) I = true :=
      List.any_eq_true.2 ⟨s, hs, Span.overlaps_of_mem hreg hr⟩
    have hlt := (List.getElem?_eq_some_iff.1 hI).1
    rcases mem_of_mem_dominators hpath hlt.le (h.access pc target k I ht hI hne htouch).1 with hmem | heq
    · exact hnot hmem
    · exact hk heq.symm
  · rcases mem_of_mem_dominators hpath le_rfl (h.out pc target r ht hr hreg) with hmem | heq
    · exact hnot hmem
    · exact hk heq.symm
  · rcases List.mem_append.1 hmem with hmem | hmem
    · obtain ⟨pre, post, rfl⟩ := List.append_of_mem hmem
      exact List.mem_append_left _ (hthrough (hpath.before rfl))
    · obtain rfl := List.mem_singleton.1 hmem
      exact hthrough hpath

end Program

end Stanli
