import Stanli.Program.CopyForward
import Stanli.Program.GenAdjointSound

/-!
# Propagating copies preserves execution

The rewritten program does what the program did, and dropping the stores whose registers are not live
behind them keeps the live and the seeded registers.  Both together are followed along a run
(`propagateCopies_preserves`): the program takes the same branches and ends alike.  This needs that
no operand is moved onto registers that its instruction overwrites before it has read them, which
the pass does not check, and that no register of a call's scratch is read behind a call that may have
left it unwritten.
-/

namespace Stanli

open Program

namespace Program

variable {V E S : Type*}

/-! ## The backward scan -/

section Live

variable {R : Registry} {q : Program V} {pinned : ℕ → Bool} {noOp : List Bool} {k : ℕ} {J : Instr}

lemma liveScanAt_succ (hJ : q.code[k]? = some J) : q.liveScanAt R pinned noOp k =
    q.liveStep R pinned (q.isTarget k) (noOp.getD k false) k J (q.liveScanAt R pinned noOp (k + 1)) := by
  have hlt : k < q.code.zipIdx.length := by simpa using (List.getElem?_eq_some_iff.1 hJ).1
  have hget : q.code.zipIdx[k] = (J, k) := by
    have : q.code.zipIdx[k]? = some (J, k) := by simp [hJ]
    exact (List.getElem?_eq_some_iff.1 this).2
  unfold liveScanAt
  dsimp only
  rw [List.drop_eq_getElem_cons hlt, hget, List.foldr_cons]

lemma liveScanAt_end : q.liveScanAt R pinned noOp q.code.length =
    { live := fun r => decide (r ∈ q.outRegs)
      snapshot := if q.isTarget q.code.length then
          Function.update (fun _ _ => false) q.code.length fun r => decide (r ∈ q.outRegs)
        else fun _ _ => false } := by
  unfold liveScanAt
  dsimp only
  rw [List.drop_eq_nil_of_le (by simp), List.foldr_nil]

/-- The live registers in front of a position. -/
def liveAt (R : Registry) (q : Program V) (pinned : ℕ → Bool) (noOp : List Bool) (pc : ℕ) : ℕ → Bool :=
  (q.liveScanAt R pinned noOp pc).live

/-- An instruction is dropped. -/
def goneAt (R : Registry) (q : Program V) (pinned : ℕ → Bool) (noOp : List Bool) (pc : ℕ) (J : Instr) :
    Bool :=
  (q.liveScanAt R pinned noOp (pc + 1)).removable q pinned (noOp.getD pc false) J

/-- The registers live behind an instruction. -/
def behindAt (R : Registry) (q : Program V) (pinned : ℕ → Bool) (noOp : List Bool) (pc : ℕ) (J : Instr) :
    ℕ → Bool :=
  (q.liveScanAt R pinned noOp (pc + 1)).behind J

/-- The flags of the dropped instructions. -/
lemma remove_getElem (hJ : q.code[k]? = some J) :
    (q.liveScanAt R pinned noOp 0).remove[k]? = some (goneAt R q pinned noOp k J) := by
  have hk := (List.getElem?_eq_some_iff.1 hJ).1
  have key : ∀ j ≤ k, (q.liveScanAt R pinned noOp (k - j)).remove[j]? =
      some (goneAt R q pinned noOp k J) := by
    intro j
    induction j with
    | zero =>
      intro _
      rw [Nat.sub_zero, liveScanAt_succ hJ]
      rfl
    | succ j ih =>
      intro hj
      have hget : q.code[k - (j + 1)]? = some q.code[k - (j + 1)] := List.getElem?_eq_getElem (by omega)
      rw [liveScanAt_succ hget, show k - (j + 1) + 1 = k - j by omega]
      exact ih (by omega)
  simpa using key k le_rfl

lemma length_remove (R : Registry) (q : Program V) (pinned : ℕ → Bool) (noOp : List Bool) :
    (q.liveScanAt R pinned noOp 0).remove.length = q.code.length := by
  have key : ∀ j ≤ q.code.length,
      (q.liveScanAt R pinned noOp (q.code.length - j)).remove.length = j := by
    intro j
    induction j with
    | zero =>
      intro _
      rw [Nat.sub_zero, liveScanAt_end]
      rfl
    | succ j ih =>
      intro hj
      have hget : q.code[q.code.length - (j + 1)]? = some q.code[q.code.length - (j + 1)] :=
        List.getElem?_eq_getElem (by omega)
      rw [liveScanAt_succ hget, show q.code.length - (j + 1) + 1 = q.code.length - j by omega]
      exact congrArg (· + 1) (ih (by omega))
  simpa using key _ le_rfl

/-- Below a branch target the snapshot taken there stays. -/
lemma snapshot_eq {d : ℕ} (hd : d ≤ q.code.length) (ht : q.isTarget d = true) (hk : k ≤ d) :
    (q.liveScanAt R pinned noOp k).snapshot d = liveAt R q pinned noOp d := by
  have key : ∀ j ≤ d, (q.liveScanAt R pinned noOp (d - j)).snapshot d = liveAt R q pinned noOp d := by
    intro j
    induction j with
    | zero =>
      intro _
      rw [Nat.sub_zero]
      rcases hd.eq_or_lt with rfl | hlt
      · simp [liveAt, liveScanAt_end, ht]
      · have hget : q.code[d]? = some q.code[d] := List.getElem?_eq_getElem hlt
        rw [liveAt, liveScanAt_succ hget]
        simp [liveStep, ht]
    | succ j ih =>
      intro hj
      have hget : q.code[d - (j + 1)]? = some q.code[d - (j + 1)] := List.getElem?_eq_getElem (by omega)
      rw [liveScanAt_succ hget, show d - (j + 1) + 1 = d - j by omega]
      unfold liveStep
      dsimp only
      split
      · rw [Function.update_of_ne (by omega)]
        exact ih (by omega)
      · exact ih (by omega)
  have := key (d - k) (by omega)
  rwa [show d - (d - k) = k by omega] at this

/-- Whatever is live where control goes is live behind the instruction. -/
lemma behind_of_next (hJ : q.code[k]? = some J)
    (hjump : J.isJump = true → k < J.dst ∧ J.dst ≤ q.code.length) {next : ℕ}
    (hnext : next ∈ J.successors k) {r : ℕ} (hr : liveAt R q pinned noOp next r = true) :
    behindAt R q pinned noOp k J r = true := by
  have hsnap : J.isJump = true → (q.liveScanAt R pinned noOp (k + 1)).snapshot J.dst =
      liveAt R q pinned noOp J.dst := fun hj => by
    refine snapshot_eq (hjump hj).2 (List.any_eq_true.2 ⟨J, List.mem_of_getElem? hJ, ?_⟩) (hjump hj).1
    simp [hj]
  unfold behindAt LiveScan.behind
  cases hc : J.code with
  | jz =>
    have hj : J.isJump = true := by simp [Instr.isJump, hc]
    simp only [Instr.successors, hc, List.mem_cons, List.not_mem_nil, or_false] at hnext
    rw [if_neg (by simp), if_pos rfl, hsnap hj, Bool.or_eq_true]
    rcases hnext with rfl | rfl
    · exact Or.inl hr
    · exact Or.inr hr
  | jmp =>
    have hj : J.isJump = true := by simp [Instr.isJump, hc]
    simp only [Instr.successors, hc, List.mem_cons, List.not_mem_nil, or_false] at hnext
    rw [if_pos rfl, hsnap hj]
    exact hnext ▸ hr
  | reject => simp [Instr.successors, hc] at hnext
  | _ =>
    simp only [Instr.successors, hc, List.mem_cons, List.not_mem_nil, or_false] at hnext
    rw [if_neg (by simp), if_neg (by simp)]
    exact hnext ▸ hr

/-- In front of a kept instruction everything is live that it reads, or that is live behind it and not
written by it. -/
lemma liveAt_of_kept (hJ : q.code[k]? = some J) (he : J.isEligible)
    (hkept : goneAt R q pinned noOp k J = false) {r : ℕ} :
    liveAt R q pinned noOp k r = true ↔ (∃ s ∈ q.eachRead R J, r ∈ s.regs) ∨
      (behindAt R q pinned noOp k J r = true ∧ r ∉ q.writes J) := by
  have hgone : (q.liveScanAt R pinned noOp (k + 1)).removable q pinned (noOp.getD k false) J = false :=
    hkept
  rw [liveAt, liveScanAt_succ hJ]
  unfold liveStep
  simp only [hgone, Bool.false_eq_true, if_false, Bool.or_eq_true, Bool.and_eq_true, Bool.not_eq_true',
    List.any_eq_true, decide_eq_true_eq, behindAt, ← exists_eachWrite he.code_ne_transform]
  refine or_congr Iff.rfl (and_congr Iff.rfl ?_)
  rw [← Bool.not_eq_true, List.any_eq_true]
  simp

/-- A dropped instruction is a move onto itself, or stores nothing that is live or seeded. -/
lemma goneAt_spec (hJ : q.code[k]? = some J) (he : J.isEligible)
    (hgone : goneAt R q pinned noOp k J = true) :
    liveAt R q pinned noOp k = behindAt R q pinned noOp k J ∧ (noOp.getD k false = true ∨
      J.droppable = true ∧ ∀ r ∈ q.writes J, behindAt R q pinned noOp k J r = false ∧
        pinned r = false) := by
  have hgone' : (q.liveScanAt R pinned noOp (k + 1)).removable q pinned (noOp.getD k false) J = true :=
    hgone
  constructor
  · rw [liveAt, liveScanAt_succ hJ]
    unfold liveStep
    simp only [hgone', if_true, behindAt]
  · unfold LiveScan.removable at hgone'
    rw [Bool.or_eq_true, Bool.and_eq_true] at hgone'
    refine hgone'.imp_right (And.imp_right fun hall r hr => ?_)
    obtain ⟨s, hs, hrs⟩ := (exists_eachWrite he.code_ne_transform).2 hr
    have := List.all_eq_true.1 (List.all_eq_true.1 hall s hs) r hrs
    simpa [behindAt] using this

end Live

end Program

/-- The kernel of a payload writes the whole scratch. -/
def StanMath.FillsScratch {V E S : Type*} (M : StanMath V E S) (call : Call) : Prop :=
  ∀ f ins e r, call.forward = some f → M.forward f call.shape ins e = .ok r →
    call.scratch.len ≤ r.1.2.length

namespace Program

variable {V E S : Type*} [Field V] {M : StanMath V E S} {p q : Program V} {k : ℕ} {I J : Instr}
  {D : ℕ → Prop} {s t : File V S}

/-- An instruction that reads only registers on which two files agree does the same in both, and where
its kernel fills its scratch they agree on everything it writes. -/
lemma exec_agree_writes (he : J.isEligible) (hW : M.FillsOutputs)
    (hpay : J.code = .call → ∃ call, q.calls[J.a]? = some call)
    (hD : ∀ r, (∃ s ∈ q.eachRead M.toRegistry J, r ∈ s.regs) → D r) (hst : AgreeOn D s t) :
    Alike (AgreeOn fun r => D r ∨ r ∈ q.writes J ∧
        ∀ call, J.code = .call → q.calls[J.a]? = some call → r ∈ call.scratch.regs →
          M.FillsScratch call)
      (q.exec M J s) (q.exec M J t) := by
  have hagree : Alike (AgreeOn fun r => D r ∨ r ∈ q.defines J) (q.exec M J s) (q.exec M J t) :=
    IslandProg.exec_agree (p := ⟨q, [], {}⟩) he.plain rfl (fun _ => Or.inl hW) he.code_ne.2
      (fun r hr => hD r (exists_eachRead he hpay hr)) hst
  by_cases hcall : J.code = .call
  · obtain ⟨call, hget⟩ := hpay hcall
    have hreads : (call.ins.map fun i => i.read s.reg) = call.ins.map fun i => i.read t.reg :=
      List.map_congr_left fun i hi => hst.read fun r hr => hD r ⟨i, by simpa [eachRead, hcall, hget], hr⟩
    simp only [exec, hcall, hget] at hagree ⊢
    cases hf : call.forward with
    | none => exact rfl
    | some f =>
      simp only [hf, hreads, hst.2] at hagree ⊢
      cases hfwd : M.forward f call.shape (call.ins.map fun i => i.read t.reg) t.eff with
      | error e => exact rfl
      | ok r =>
        rw [hfwd] at hagree
        refine ⟨fun w hw => ?_, rfl⟩
        rcases hw with hw | ⟨hw, hfill⟩
        · exact hagree.1 w (Or.inl hw)
        · rw [writes, if_pos hcall, hget] at hw
          by_cases hscratch : w ∈ call.scratch.regs
          · -- The scratch is written last, all of it.
            have hlen := hfill call trivial rfl hscratch f _ _ r hf hfwd
            have hmem := Span.mem_regs.1 hscratch
            change writeRun _ _ _ w = writeRun _ _ _ w
            unfold writeRun
            rw [if_pos hmem.1, if_pos hmem.1, List.getElem?_eq_getElem (by rw [List.length_take]; omega)]
            rfl
          · refine hagree.1 w (Or.inr ?_)
            rw [defines, if_pos hcall, hget]
            exact (List.mem_append.1 hw).resolve_right hscratch
  · refine hagree.mono fun a b hab => ⟨fun r hr => hab.1 r (hr.imp_right ?_), hab.2⟩
    rintro ⟨hr, -⟩
    rw [writes, if_neg hcall] at hr
    rw [defines, if_neg hcall]
    exact hr

/-! ## The pass -/

omit [Field V] in
lemma copyChecked_of_eligible {R : Registry} {seeded : List Span}
    (h : p.copiesEligible R seeded = true) : CopyChecked p := by
  simp only [copiesEligible, Bool.and_eq_true, List.all_eq_true] at h
  obtain ⟨⟨⟨⟨⟨⟨⟨-, helig⟩, hjumps⟩, -⟩, -⟩, hfile⟩, -⟩, -⟩ := h
  have he : ∀ I ∈ p.code, I.isEligible := fun I hI => by
    have := helig I hI
    simp only [copyEligible, Bool.or_eq_true, Bool.and_eq_true, Bool.not_eq_true'] at this
    exact this.imp_right And.left
  refine ⟨he, fun I hI r hr => ?_, fun pc I hI hj => ?_, fun I hI hc => ?_⟩
  · obtain ⟨s, hs, hrs⟩ := (exists_eachWrite (he I hI).code_ne_transform).2 hr
    have := hfile I hI
    simp only [spansInFile, Bool.and_eq_true, List.all_eq_true, inFile, decide_eq_true_eq] at this
    have := this.1.1 s hs
    have := Span.mem_regs.1 hrs
    omega
  · have := hjumps (I, pc) (by simp [List.mem_zipIdx_iff_getElem?, hI])
    simpa [hj] using this
  · have := helig I hI
    simp only [copyEligible, Bool.or_eq_true, Bool.and_eq_true, decide_eq_true_eq] at this
    rcases this with hj | ⟨-, hlt⟩
    · simp [Instr.isJump, hc] at hj
    · exact ⟨_, List.getElem?_eq_getElem (hlt.resolve_left (by simp [hc]))⟩

/-- What the pass relies on and does not check: no operand is moved onto registers that its
instruction overwrites before it has read them, and no register of a call's scratch is live behind the
call, or the kernel fills the scratch. -/
structure CopiesSafely (M : StanMath V E S) (p : Program V) (seeded : List Span) : Prop where
  operands : OperandsApart M.toRegistry p
  scratch : ∀ (pc : ℕ) (I : Instr) (call : Call), p.code[pc]? = some I → I.code = .call →
    p.calls[I.a]? = some call → M.FillsScratch call ∨ ∀ r ∈ call.scratch.regs,
      liveAt M.toRegistry (p.forwarded M.toRegistry) (pinnedBy seeded)
        (p.copyScan M.toRegistry).noOp (pc + 1) r = false

/-- Running `q` instead of `p`, from any file: the same branches, and the same error or the same values
in the registers that matter. -/
def PreservesExecution (M : StanMath V E S) (p q : Program V) (kept : ℕ → Prop) : Prop :=
  ∀ s vs r, p.Runs M s vs r → ∃ ws r', q.Runs M s ws r' ∧ q.branches M ws = p.branches M vs ∧
    Alike (AgreeOn kept) r r'

/-- A program has one run from a file. -/
lemma Runs.eq {vs ws : List (ℕ × File V S)} {r r' : Except E (File V S)} (h : p.Runs M s vs r)
    (h' : p.Runs M s ws r') : vs = ws ∧ r = r' := by
  obtain ⟨m, hm⟩ := h
  obtain ⟨n, hn⟩ := h'
  have hmono := Branching.run_mono hm (le_max_left m n)
  rw [Branching.run_mono hn (le_max_right m n)] at hmono
  exact Prod.mk.inj (Option.some.inj hmono.symm)

lemma PreservesExecution.refl (M : StanMath V E S) (p : Program V) (kept : ℕ → Prop) :
    PreservesExecution M p p kept := fun _ vs r h =>
  ⟨vs, r, h, rfl, Alike.refl (fun _ => ⟨fun _ _ => rfl, rfl⟩) r⟩

/-- The branch a visit takes, if its instruction is one. -/
def branchAt (M : StanMath V E S) (p : Program V) (v : ℕ × File V S) : Option Bool :=
  (p.code[v.1]?).bind fun I => if I.code = .jz then some (M.eq (v.2.reg I.a) 0) else none

/-- What relates the two runs in front of a position. -/
structure CopyRelated (M : StanMath V E S) (p : Program V) (seeded : List Span) (k : ℕ)
    (s t : File V S) : Prop where
  le : k ≤ p.code.length
  holds : Holds (entry M.toRegistry p k).copyOf s.reg
  agree : AgreeOn (fun r => liveAt M.toRegistry (p.forwarded M.toRegistry) (pinnedBy seeded)
    (p.copyScan M.toRegistry).noOp k r = true ∨ pinnedBy seeded r = true) s t

/-- The program without the dropped instructions. -/
def dropped (R : Registry) (p : Program V) (seeded : List Span) : Program V :=
  { p.forwarded R with
    code := (erase (p.removed R seeded) (p.forwarded R).code).map
      (IslandProg.retarget (erasedPos (p.removed R seeded))) }

/-! ### A dropped instruction -/

omit [Field V] in
lemma droppable_of_noOp (h : J.isNoOp = true) : J.droppable = true := by
  simp only [Instr.isNoOp, Instr.isMove, Bool.and_eq_true, decide_eq_true_eq] at h
  simp only [Instr.droppable, decide_eq_true_eq]
  tauto

variable {seeded : List Span}

omit [Field V] in
/-- What is dropped is a store. -/
lemma droppable_of_gone {R : Registry} (h : CopyChecked p) (hI : p.code[k]? = some I)
    (hgone : goneAt R (p.forwarded R) (pinnedBy seeded) (p.copyScan R).noOp k (rewrittenAt R p k I) =
      true) : (rewrittenAt R p k I).droppable = true := by
  obtain ⟨hJ, hnoOp⟩ := copyScan_code (R := R) hI
  have he := eligible_rewritten (R := R) (p := p) (k := k) (h.eligible I (List.mem_of_getElem? hI))
  rcases (goneAt_spec hJ he hgone).2 with hno | hdrop
  · rw [List.getD_eq_getElem?_getD, hnoOp] at hno
    exact droppable_of_noOp hno
  · exact hdrop.1

/-- Behind a dropped instruction the runs are related with the second one where it was. -/
lemma CopyRelated.gone (hrel : CopyRelated M p seeded k s t) (h : CopyChecked p)
    (hap : OperandsApart M.toRegistry p) (hI : p.code[k]? = some I)
    (hgone : goneAt M.toRegistry (p.forwarded M.toRegistry) (pinnedBy seeded)
      (p.copyScan M.toRegistry).noOp k (rewrittenAt M.toRegistry p k I) = true) {s' : File V S}
    (hex : p.exec M I s = .ok s') : CopyRelated M p seeded (k + 1) s' t := by
  have hk := (List.getElem?_eq_some_iff.1 hI).1
  have heI := h.eligible I (List.mem_of_getElem? hI)
  have he := eligible_rewritten (R := M.toRegistry) (p := p) (k := k) heI
  obtain ⟨hJ, hnoOp⟩ := copyScan_code (R := M.toRegistry) hI
  obtain ⟨hlive, hcause⟩ := goneAt_spec hJ he hgone
  have hdrop := droppable_of_gone h hI hgone
  obtain ⟨hjump, -⟩ := droppable_not_jump hdrop
  have hcode := (rewrittenAt_shape M.toRegistry p k I).1
  have hnext : I.next M k s = k + 1 := by
    refine next_of_not_jump ?_ k s
    unfold Instr.isJump at hjump ⊢
    rwa [hcode] at hjump
  have hholds := entry_holds_next h hap hI hrel.holds hex
  rw [hnext] at hholds
  rw [← exec_forwarded hap hI heI hrel.holds] at hex
  obtain ⟨s₁, hs₁, heff⟩ := exec_droppable (M := M) (q := p.forwarded M.toRegistry) hdrop s
  obtain rfl : s₁ = s' := Except.ok.inj (hs₁.symm.trans hex)
  -- What matters behind the instruction is what it was in front of it.
  have hsame : ∀ r, liveAt M.toRegistry (p.forwarded M.toRegistry) (pinnedBy seeded)
      (p.copyScan M.toRegistry).noOp (k + 1) r = true ∨ pinnedBy seeded r = true →
      s₁.reg r = s.reg r ∧ (liveAt M.toRegistry (p.forwarded M.toRegistry) (pinnedBy seeded)
        (p.copyScan M.toRegistry).noOp k r = true ∨ pinnedBy seeded r = true) := by
    intro r hr
    have hbehind : liveAt M.toRegistry (p.forwarded M.toRegistry) (pinnedBy seeded)
        (p.copyScan M.toRegistry).noOp (k + 1) r = true →
        behindAt M.toRegistry (p.forwarded M.toRegistry) (pinnedBy seeded)
          (p.copyScan M.toRegistry).noOp k (rewrittenAt M.toRegistry p k I) r = true :=
      behind_of_next hJ (fun hj => absurd hj (by simp [hjump]))
        (by rw [← next_of_not_jump (M := M) hjump k s]; exact next_mem_successors hex)
    refine ⟨?_, hr.imp_left fun hr => by rw [hlive]; exact hbehind hr⟩
    rcases hcause with hno | ⟨-, hdead⟩
    · rw [List.getD_eq_getElem?_getD, hnoOp] at hno
      rw [exec_noOp hno hex]
    · refine IslandProg.exec_frame (p := ⟨p.forwarded M.toRegistry, [], {}⟩) he.plain hex fun hw => ?_
      obtain ⟨h1, h2⟩ := hdead r hw
      rcases hr with hr | hr
      · simp [hbehind hr] at h1
      · simp [hr] at h2
  refine ⟨hk, hholds, fun r hr => ?_, heff.trans hrel.agree.2⟩
  obtain ⟨h1, h2⟩ := hsame r hr
  rw [h1]
  exact hrel.agree.1 r h2

/-! ### A kept instruction -/

/-- A kept instruction does the same in both runs. -/
lemma CopyRelated.kept (hrel : CopyRelated M p seeded k s t) (h : CopyChecked p)
    (hW : M.FillsOutputs) (hsafe : CopiesSafely M p seeded) (hI : p.code[k]? = some I)
    (hkept : goneAt M.toRegistry (p.forwarded M.toRegistry) (pinnedBy seeded)
      (p.copyScan M.toRegistry).noOp k (rewrittenAt M.toRegistry p k I) = false) :
    (∀ e, p.exec M I s = .error e →
      (p.forwarded M.toRegistry).exec M (rewrittenAt M.toRegistry p k I) t = .error e) ∧
    (∀ s', p.exec M I s = .ok s' → ∃ t',
      (p.forwarded M.toRegistry).exec M (rewrittenAt M.toRegistry p k I) t = .ok t' ∧
        CopyRelated M p seeded (I.next M k s) s' t') ∧
    (I.code = .jz → t.reg (rewrittenAt M.toRegistry p k I).a = s.reg I.a) := by
  have hmem := List.mem_of_getElem? hI
  have hk := (List.getElem?_eq_some_iff.1 hI).1
  have heI := h.eligible I hmem
  have he := eligible_rewritten (R := M.toRegistry) (p := p) (k := k) heI
  obtain ⟨hJ, -⟩ := copyScan_code (R := M.toRegistry) hI
  obtain ⟨hcode, -, -, -, hdst, -⟩ := rewrittenAt_shape M.toRegistry p k I
  have hlive := fun r => liveAt_of_kept (r := r) hJ he hkept
  have hD : ∀ r, (∃ w ∈ (p.forwarded M.toRegistry).eachRead M.toRegistry
      (rewrittenAt M.toRegistry p k I), r ∈ w.regs) →
      liveAt M.toRegistry (p.forwarded M.toRegistry) (pinnedBy seeded)
        (p.copyScan M.toRegistry).noOp k r = true ∨ pinnedBy seeded r = true := fun r hr =>
    Or.inl ((hlive r).2 (Or.inl hr))
  have hpay : (rewrittenAt M.toRegistry p k I).code = .call →
      ∃ call, (p.forwarded M.toRegistry).calls[(rewrittenAt M.toRegistry p k I).a]? = some call := by
    intro hc
    rw [hcode] at hc
    rw [rewrittenAt_of_call hc]
    obtain ⟨call, hcall⟩ := h.payload I hmem hc
    rcases forwarded_call_static (R := M.toRegistry) hI hc with ⟨h1, -⟩ | ⟨-, call', -, h2, -⟩
    · simp [hcall] at h1
    · exact ⟨call', h2⟩
  have hagree := exec_agree_writes he hW hpay hD hrel.agree
  rw [exec_forwarded hsafe.operands hI heI hrel.holds] at hagree
  refine ⟨fun e hex => ?_, fun s' hex => ?_, fun hc => ?_⟩
  · rw [hex] at hagree
    cases ht : (p.forwarded M.toRegistry).exec M (rewrittenAt M.toRegistry p k I) t with
    | error e' =>
      rw [ht] at hagree
      exact congrArg Except.error (show e = e' from hagree).symm
    | ok t' =>
      rw [ht] at hagree
      exact hagree.elim
  · rw [hex] at hagree
    have hholds := entry_holds_next h hsafe.operands hI hrel.holds hex
    have hsucc : I.next M k s ∈ I.successors k := next_mem_successors hex
    cases ht : (p.forwarded M.toRegistry).exec M (rewrittenAt M.toRegistry p k I) t with
    | error e' =>
      rw [ht] at hagree
      exact hagree.elim
    | ok t' =>
      rw [ht] at hagree
      refine ⟨t', rfl, ?_, hholds, fun r hr => hagree.1 r ?_, hagree.2⟩
      · have hjump := h.jumps k I hI
        unfold Instr.successors at hsucc
        split at hsucc
        · have := hjump (by simp [Instr.isJump, *])
          simp only [List.mem_cons, List.not_mem_nil, or_false] at hsucc
          omega
        · have := hjump (by simp [Instr.isJump, *])
          simp only [List.mem_cons, List.not_mem_nil, or_false] at hsucc
          omega
        · simp at hsucc
        · simp only [List.mem_cons, List.not_mem_nil, or_false] at hsucc
          omega
      · rcases hr with hr | hr
        · have hjump : (rewrittenAt M.toRegistry p k I).isJump = true →
              k < (rewrittenAt M.toRegistry p k I).dst ∧
                (rewrittenAt M.toRegistry p k I).dst ≤ (p.forwarded M.toRegistry).code.length := by
            intro hj
            rw [length_forwarded, hdst]
            refine h.jumps k I hI ?_
            unfold Instr.isJump at hj ⊢
            rwa [hcode] at hj
          have hsuccJ : I.next M k s ∈ (rewrittenAt M.toRegistry p k I).successors k := by
            unfold Instr.successors at hsucc ⊢
            rwa [hcode, hdst]
          have hbehind := behind_of_next hJ hjump hsuccJ hr
          by_cases hw : r ∈ (p.forwarded M.toRegistry).writes (rewrittenAt M.toRegistry p k I)
          · refine Or.inr ⟨hw, fun call hc hget hscratch => ?_⟩
            rw [hcode] at hc
            rw [rewrittenAt_of_call hc] at hget
            rcases forwarded_call_static (R := M.toRegistry) hI hc with ⟨-, h2⟩ | ⟨c, c', h1, h2, h3⟩
            · simp [h2] at hget
            · obtain rfl : c' = call := Option.some.inj (h2.symm.trans hget)
              have hscr : c'.scratch = c.scratch := by rcases h3 with rfl | rfl <;> rfl
              have hfill : M.FillsScratch c → M.FillsScratch c' := by
                rcases h3 with rfl | rfl
                · exact id
                · exact fun hf => hf
              refine hfill ((hsafe.scratch k I c hI hc h1).resolve_right fun hdead => ?_)
              have := hdead r (hscr ▸ hscratch)
              -- Behind a call control falls through.
              have hnext : I.next M k s = k + 1 := by simp [Instr.next, hc]
              rw [hnext] at hr
              simp [hr] at this
          · exact Or.inl (Or.inl ((hlive r).2 (Or.inr ⟨hbehind, hw⟩)))
        · exact Or.inl (Or.inr hr)
  · have hcall : I.code ≠ .call := by simp [hc]
    have hren := rewrittenAt_renamed hsafe.operands hI hcall hrel.holds
    have hops : (0, 1) ∈ I.readOperands M.toRegistry := by
      simp [Instr.readOperands, Instr.rule, Instr.inputLen, hc, Code.has, Code.flags]
    have hval := hren.value hops (i := 0) (by omega)
    simp only [Instr.operand, Nat.add_zero] at hval
    rw [← hval]
    refine (hrel.agree.1 _ (hD _ ⟨⟨(rewrittenAt M.toRegistry p k I).a, 1⟩, ?_, by simp⟩)).symm
    rw [← hcode] at hc
    simp only [eachRead, hc, List.mem_map]
    exact ⟨(0, 1), by simp [Instr.readOperands, Instr.rule, Instr.inputLen, hc, Code.has, Code.flags],
      rfl⟩

/-! ### The whole run -/

omit [Field V] in
lemma isJump_rewritten {R : Registry} : (rewrittenAt R p k I).isJump = I.isJump := by
  unfold Instr.isJump
  rw [(rewrittenAt_shape R p k I).1]

/-- The program without the dropped instructions follows the program. -/
theorem dropped_follows (h : CopyChecked p) (hW : M.FillsOutputs) (hsafe : CopiesSafely M p seeded) :
    Branching.Follows (p.machine M) ((p.dropped M.toRegistry seeded).machine M) p.code
      (p.dropped M.toRegistry seeded).code (erasedPos (p.removed M.toRegistry seeded))
      (p.branchAt M) ((p.dropped M.toRegistry seeded).branchAt M) (CopyRelated M p seeded) := by
  have hlen : (p.removed M.toRegistry seeded).length = (p.forwarded M.toRegistry).code.length :=
    length_remove ..
  -- The new code at the new position of a kept instruction.
  have hcode : ∀ {k I}, p.code[k]? = some I → goneAt M.toRegistry (p.forwarded M.toRegistry)
      (pinnedBy seeded) (p.copyScan M.toRegistry).noOp k (rewrittenAt M.toRegistry p k I) = false →
      (p.dropped M.toRegistry seeded).code[erasedPos (p.removed M.toRegistry seeded) k]? =
        some (IslandProg.retarget (erasedPos (p.removed M.toRegistry seeded))
          (rewrittenAt M.toRegistry p k I)) := by
    intro k I hI hkept
    have hJ := (copyScan_code (R := M.toRegistry) hI).1
    have hflag : (p.removed M.toRegistry seeded)[k]? = some false := by
      rw [← hkept]
      exact remove_getElem hJ
    change ((erase _ _).map _)[_]? = _
    rw [List.getElem?_map, getElem?_erase hJ hflag, Option.map_some]
  have hexec : ∀ (J : Instr) (t : File V S), (p.dropped M.toRegistry seeded).exec M
      (IslandProg.retarget (erasedPos (p.removed M.toRegistry seeded)) J) t =
        (p.forwarded M.toRegistry).exec M J t := by
    intro J t
    unfold IslandProg.retarget
    split
    · rename_i hj
      simp only [Instr.isJump, decide_eq_true_eq] at hj
      rcases hj with hc | hc <;> simp only [exec, hc]
    · rfl
  have hbranch : ∀ {k I s t}, p.code[k]? = some I → CopyRelated M p seeded k s t →
      goneAt M.toRegistry (p.forwarded M.toRegistry) (pinnedBy seeded)
        (p.copyScan M.toRegistry).noOp k (rewrittenAt M.toRegistry p k I) = false →
      p.branchAt M (k, s) = (p.dropped M.toRegistry seeded).branchAt M
        (erasedPos (p.removed M.toRegistry seeded) k, t) := by
    intro k I s t hI hrel hkept
    have hsh := (rewrittenAt_shape M.toRegistry p k I).1
    have hjz := (hrel.kept h hW hsafe hI hkept).2.2
    unfold branchAt
    simp only [hI, hcode hI hkept, Option.bind_some]
    have hret : (IslandProg.retarget (erasedPos (p.removed M.toRegistry seeded))
        (rewrittenAt M.toRegistry p k I)).code = I.code ∧
        (IslandProg.retarget (erasedPos (p.removed M.toRegistry seeded))
          (rewrittenAt M.toRegistry p k I)).a = (rewrittenAt M.toRegistry p k I).a := by
      unfold IslandProg.retarget
      split <;> exact ⟨hsh, rfl⟩
    rw [hret.1, hret.2]
    split
    · rename_i hc
      rw [hjz hc]
    · rfl
  refine ⟨fun k s t hrel hnone => ?_, fun k I s t e hrel hI hex => ?_, fun k I s t s' hrel hI hex => ?_⟩
  · change ((erase _ _).map _)[_]? = _
    rw [List.getElem?_map, getElem?_erase_end hlen, Option.map_none]
    rw [List.getElem?_eq_none_iff, length_forwarded]
    exact List.getElem?_eq_none_iff.1 hnone
  · cases hgone : goneAt M.toRegistry (p.forwarded M.toRegistry) (pinnedBy seeded)
        (p.copyScan M.toRegistry).noOp k (rewrittenAt M.toRegistry p k I) with
    | true =>
      -- A store does not fail.
      obtain ⟨s', hs', -⟩ := exec_droppable (M := M) (q := p.forwarded M.toRegistry)
        (droppable_of_gone h hI hgone) s
      rw [exec_forwarded hsafe.operands hI (h.eligible I (List.mem_of_getElem? hI)) hrel.holds] at hs'
      change p.exec M I s = .error e at hex
      simp [hs'] at hex
    | false =>
      exact ⟨hbranch hI hrel hgone, _, hcode hI hgone,
        (hexec _ _).trans ((hrel.kept h hW hsafe hI hgone).1 e hex)⟩
  · cases hgone : goneAt M.toRegistry (p.forwarded M.toRegistry) (pinnedBy seeded)
        (p.copyScan M.toRegistry).noOp k (rewrittenAt M.toRegistry p k I) with
    | true =>
      have hJ := (copyScan_code (R := M.toRegistry) hI).1
      have hflag : (p.removed M.toRegistry seeded)[k]? = some true := by
        rw [← hgone]
        exact remove_getElem hJ
      obtain ⟨hj, hnz⟩ := droppable_not_jump (droppable_of_gone h hI hgone)
      rw [isJump_rewritten] at hj
      rw [(rewrittenAt_shape M.toRegistry p k I).1] at hnz
      have hnext : (p.machine M).next I k s = k + 1 := next_of_not_jump hj k s
      rw [hnext]
      refine Or.inl ⟨erasedPos_succ_of_gone hflag, ?_, hrel.gone h hsafe.operands hI hgone hex⟩
      simp [branchAt, hI, hnz]
    | false =>
      obtain ⟨t', ht', hrel'⟩ := (hrel.kept h hW hsafe hI hgone).2.1 s' hex
      have hJ := (copyScan_code (R := M.toRegistry) hI).1
      have hflag : (p.removed M.toRegistry seeded)[k]? = some false := by
        rw [← hgone]
        exact remove_getElem hJ
      refine Or.inr ⟨_, t', hcode hI hgone, (hexec _ _).trans ht', ?_, hbranch hI hrel hgone, hrel'⟩
      have hjz := (hrel.kept h hW hsafe hI hgone).2.2
      obtain ⟨hc, -, -, -, hd, -⟩ := rewrittenAt_shape M.toRegistry p k I
      change (IslandProg.retarget _ _).next M _ t = erasedPos _ (I.next M k s)
      cases hj : I.isJump with
      | true =>
        have hkind : I.code = .jz ∨ I.code = .jmp := by simpa [Instr.isJump] using hj
        rw [IslandProg.retarget, if_pos (isJump_rewritten.trans hj)]
        unfold Instr.next
        rcases hkind with hz | hz
        · simp only [hc, hz, hd, hjz hz]
          split
          · rfl
          · rw [erasedPos_succ_of_kept hflag]
        · simp only [hc, hz, hd]
      | false =>
        have hnj : (rewrittenAt M.toRegistry p k I).isJump = false := isJump_rewritten.trans hj
        rw [IslandProg.retarget, if_neg (by simp [hnj]), next_of_not_jump hnj, next_of_not_jump hj,
          erasedPos_succ_of_kept hflag]

/-! ### Nothing dropped -/

omit [Field V] in
/-- Where nothing is dropped the code is the rewritten code. -/
lemma dropped_eq_forwarded {R : Registry} (h : CopyChecked p)
    (hnone : (p.removed R seeded).all (!·) = true) : p.dropped R seeded = p.forwarded R := by
  have hlen : (p.removed R seeded).length = (p.forwarded R).code.length := length_remove ..
  have hpos : ∀ k ≤ p.code.length, erasedPos (p.removed R seeded) k = k := by
    intro k
    induction k with
    | zero => exact fun _ => rfl
    | succ k ih =>
      intro hk
      rw [length_forwarded] at hlen
      have hget : (p.removed R seeded)[k]? = some (p.removed R seeded)[k] :=
        List.getElem?_eq_getElem (by omega)
      have hfalse : (p.removed R seeded)[k] = false := by
        simpa using List.all_eq_true.1 hnone _ (List.getElem_mem (by omega))
      rw [erasedPos_succ_of_kept (by rw [hget, hfalse]), ih (by omega)]
  have hkeep : ∀ {gone : List Bool} {code : List Instr}, gone.length = code.length →
      gone.all (!·) = true → erase gone code = code := by
    intro gone code hl hall
    unfold erase
    rw [List.filter_eq_self.2 fun e he => List.all_eq_true.1 hall _ (List.of_mem_zip he).2,
      List.map_fst_zip hl.ge]
  have hcode : (erase (p.removed R seeded) (p.forwarded R).code).map
      (IslandProg.retarget (erasedPos (p.removed R seeded))) = (p.forwarded R).code := by
    rw [hkeep hlen hnone]
    refine (List.map_congr_left fun J hJ => ?_).trans (List.map_id _)
    obtain ⟨k, hk⟩ := List.getElem?_of_mem hJ
    have hlt := (List.getElem?_eq_some_iff.1 hk).1
    rw [length_forwarded] at hlt
    have hI : p.code[k]? = some p.code[k] := List.getElem?_eq_getElem hlt
    obtain rfl : rewrittenAt R p k p.code[k] = J :=
      Option.some.inj ((copyScan_code hI).1.symm.trans hk)
    unfold IslandProg.retarget
    split
    · rename_i hj
      rw [isJump_rewritten] at hj
      have hd := (rewrittenAt_shape R p k p.code[k]).2.2.2.2.1
      rw [hpos _ (by rw [hd]; exact (h.jumps k _ hI hj).2)]
      rfl
    · rfl
  unfold dropped
  rw [hcode]

/-- `propagate_program_copies` preserves execution where no operand is moved onto registers that its
instruction overwrites before it has read them and no unwritten scratch is read: the program takes the
same branches, ends with the same error, or leaves the same values in the live-outs and in the seeded
registers. -/
theorem propagateCopies_preserves (hW : M.FillsOutputs) (disabled : Bool) (seeded : List Span)
    (hsafe : disabled = false → p.copiesEligible M.toRegistry seeded = true →
      CopiesSafely M p seeded) :
    PreservesExecution M p (p.propagateCopies M.toRegistry disabled seeded).2
      fun r => r ∈ p.outRegs ∨ pinnedBy seeded r = true := by
  unfold propagateCopies
  split
  · exact .refl M p _
  · rename_i hrun
    simp only [Bool.or_eq_true, Bool.not_eq_true', not_or, Bool.not_eq_true, Bool.not_eq_false] at hrun
    have hsafe := hsafe hrun.1 hrun.2
    have h := copyChecked_of_eligible hrun.2
    have hmain : PreservesExecution M p (p.dropped M.toRegistry seeded)
        fun r => r ∈ p.outRegs ∨ pinnedBy seeded r = true := by
      rintro s vs r ⟨fuel, hfuel⟩
      have hstart : CopyRelated M p seeded 0 s s := by
        refine ⟨Nat.zero_le _, fun r b hr => ?_, fun _ _ => rfl, rfl⟩
        have hzero : Knows (entry M.toRegistry p 0).copyOf (p.copyScanAt M.toRegistry 0).copyOf :=
          (CopyScan.arrive_spec (copyScanAt_wf h M.toRegistry 0 (Nat.zero_le _)) _ _).2.2.1 rfl
        simpa [copyScanAt] using hzero r b hr
      obtain ⟨ws, r', hws, hobs, hends⟩ := (dropped_follows h hW hsafe).run hstart hfuel
      refine ⟨ws, r', ⟨fuel, hws⟩, hobs, ?_⟩
      rcases hends with ⟨e, rfl, rfl⟩ | ⟨k, s', t', rfl, rfl, hnone, hrel⟩
      · exact rfl
      · have hk : k = (p.forwarded M.toRegistry).code.length := by
          rw [length_forwarded]
          exact le_antisymm hrel.le (List.getElem?_eq_none_iff.1 hnone)
        refine ⟨fun r hr => hrel.agree.1 r (hr.imp_left fun hr => ?_), hrel.agree.2⟩
        rw [hk, liveAt, liveScanAt_end]
        exact decide_eq_true hr
    dsimp only
    split
    · rename_i hnone
      rw [← dropped_eq_forwarded h hnone]
      exact hmain
    · exact hmain

/-! ## Two copies of a range -/

/-- No kernels. -/
def noKernels : StanMath ℚ String Unit :=
  { ratMath with forward := fun _ _ _ _ => .error "unavailable" }

lemma noKernels_fillsOutputs : noKernels.FillsOutputs := fun _ _ _ _ _ h => by cases h

/-- `y = x; z = y; w = z + z`. -/
def chainedMoves : Program ℚ where
  code := [{ code := .mov, dst := 1, a := 0 }, { code := .mov, dst := 2, a := 1 },
    { code := .add, dst := 3, a := 2, b := 2 }]
  nRegs := 4
  outRegs := [3]

/-- Both copies of `chainedMoves` are dropped, and its execution is preserved. -/
theorem chainedMoves_preserved :
    (chainedMoves.propagateCopies noKernels.toRegistry false [⟨0, 1⟩]).2.code =
      [{ code := .add, dst := 3, a := 0, b := 0 }] ∧
    PreservesExecution noKernels chainedMoves
      (chainedMoves.propagateCopies noKernels.toRegistry false [⟨0, 1⟩]).2
      fun r => r ∈ chainedMoves.outRegs ∨ pinnedBy [⟨0, 1⟩] r = true := by
  refine ⟨by decide +kernel, propagateCopies_preserves noKernels_fillsOutputs false _ ?_⟩
  refine fun _ _ => ⟨fun pc I hI o _ base _ hread => ?_, fun pc I call hI hc => ?_⟩
  all_goals
    have hpc := (List.getElem?_eq_some_iff.1 hI).1
    change pc < 3 at hpc
    interval_cases pc <;> obtain rfl := Option.some.inj hI
  · exact absurd hread.1 (by decide)
  · exact absurd hread.1 (by decide)
  · exact absurd hread.1 (by decide)
  · cases hc
  · cases hc
  · cases hc

/-- `y[1:3] = x[1:3]; x[2:4] = y[1:3]` on registers. -/
def overlappingMoves : Program ℚ where
  code := [{ code := .movr, dst := 4, a := 0, len := 3 }, { code := .movr, dst := 1, a := 4, len := 3 }]
  nRegs := 7
  outRegs := [1, 2, 3]

/-- The second copy of `overlappingMoves` reads the original range instead, which it overwrites in
front of its own reads: the live-outs change. -/
theorem overlappingMoves_changed :
    (overlappingMoves.propagateCopies noKernels.toRegistry false [⟨0, 4⟩]).2.code =
      [{ code := .movr, dst := 1, a := 0, len := 3 }] ∧
    ¬PreservesExecution noKernels overlappingMoves
      (overlappingMoves.propagateCopies noKernels.toRegistry false [⟨0, 4⟩]).2
      fun r => r ∈ overlappingMoves.outRegs ∨ pinnedBy [⟨0, 4⟩] r = true := by
  refine ⟨by decide +kernel, fun h => ?_⟩
  obtain ⟨ws, r', hrun, -, halike⟩ := h ⟨fun r => r, ()⟩ _ _ ⟨2, rfl⟩
  obtain ⟨-, rfl⟩ := hrun.eq ⟨1, rfl⟩
  have := halike.1 2 (Or.inl (by decide))
  revert this
  decide +kernel

end Program

end Stanli
