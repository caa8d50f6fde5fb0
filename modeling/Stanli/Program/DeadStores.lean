import Stanli.Program.InitialReads

/-!
# Erasing dead stores

A register is live at a position when some path from there reads it before it is written, or returns
it (`Program.Live`).  Stores whose registers are not live behind them can be erased, all of them at
once: liveness is a property of the program before the erasure, and what the two runs disagree on is
not live (`eraseStores_preserves`).
-/

namespace Stanli

open Program

namespace Program

variable {V : Type*}

/-! ## Liveness -/

/-- A path from a position reads or returns a register that it does not write before.  An instruction
without modelled spans reads everything. -/
inductive Live (R : Registry) (p : Program V) : ℕ → ℕ → Prop
  | read {pc r : ℕ} {I : Instr} {s : Span} (hI : p.code[pc]? = some I) (hs : s ∈ p.eachRead R I)
    (hr : r ∈ s.regs) : Live R p pc r
  | unmodelled {pc r : ℕ} {I : Instr} (hI : p.code[pc]? = some I) (h : I.isAudited = false) :
    Live R p pc r
  | out {pc r : ℕ} (hend : p.code[pc]? = none) (hr : r ∈ p.outRegs) : Live R p pc r
  | flow {pc pc' r : ℕ} {I : Instr} (hI : p.code[pc]? = some I) (hnext : pc' ∈ I.successors pc)
    (hr : r ∉ p.defines I) (h : Live R p pc' r) : Live R p pc r

/-- The same payloads and live-outs with other code. -/
def withCode (p : Program V) (code : List Instr) : Program V := { p with code := code }

/-- The program without some of its instructions; branches go to the first one left at or behind their
targets. -/
def eraseStores (p : Program V) (gone : List Bool) : Program V :=
  p.withCode ((erase gone p.code).map (IslandProg.retarget (erasedPos gone)))

/-- The instructions to be erased are stores that are not live behind them, or are never reached. -/
structure DeadStores (R : Registry) (p : Program V) (gone : List Bool) : Prop where
  length : gone.length = p.code.length
  store : ∀ k I vs, p.code[k]? = some I → gone[k]? = some true → p.ControlPath vs k →
    I.droppable = true ∧ ∀ r ∈ p.writes I, ¬Live R p (k + 1) r

lemma isAudited_of_droppable {I : Instr} (h : I.droppable = true) : I.isAudited = true := by
  simp only [Instr.droppable, decide_eq_true_eq] at h
  rcases h with hc | hc | hc | hc | hc <;> simp [Instr.isAudited, hc, Code.has, Code.flags]

lemma defines_of_droppable {p : Program V} {I : Instr} (h : I.droppable = true) :
    p.defines I = p.writes I := by
  simp only [Instr.droppable, decide_eq_true_eq] at h
  have hc : I.code ≠ .call := by rcases h with hc | hc | hc | hc | hc <;> simp [hc]
  rw [defines, writes, if_neg hc, if_neg hc]

/-! ## Other code -/

lemma exec_retarget {E S : Type*} [Field V] {M : StanMath V E S} (p : Program V) (code : List Instr)
    (pos : ℕ → ℕ) (I : Instr) (t : File V S) :
    (p.withCode code).exec M (IslandProg.retarget pos I) t = p.exec M I t := by
  unfold IslandProg.retarget
  split
  · rename_i hj
    simp only [Instr.isJump, decide_eq_true_eq] at hj
    rcases hj with hc | hc <;> simp only [exec, hc]
  · rfl

lemma eachRead_retarget (R : Registry) (p : Program V) (code : List Instr) (pos : ℕ → ℕ) (I : Instr) :
    (p.withCode code).eachRead R (IslandProg.retarget pos I) = p.eachRead R I := by
  unfold IslandProg.retarget
  split
  · rename_i hj
    simp only [Instr.isJump, decide_eq_true_eq] at hj
    rcases hj with hc | hc <;>
      simp [eachRead, Instr.readOperands, Instr.rule, Instr.inputLen, Instr.operand, hc]
  · rfl

lemma code_retarget (pos : ℕ → ℕ) (I : Instr) :
    (IslandProg.retarget pos I).code = I.code ∧ (IslandProg.retarget pos I).a = I.a := by
  unfold IslandProg.retarget
  split <;> exact ⟨rfl, rfl⟩

/-- A retargeted instruction goes to the image of where the instruction goes, if what is behind it is
the image of what was behind it. -/
lemma next_retarget {E S : Type*} [Field V] {M : StanMath V E S} {pos : ℕ → ℕ} {I : Instr} {k k' : ℕ}
    (hk : pos (k + 1) = k' + 1) (s : File V S) :
    (IslandProg.retarget pos I).next M k' s = pos (I.next M k s) := by
  unfold IslandProg.retarget
  cases hj : I.isJump with
  | true =>
    have hkind : I.code = .jz ∨ I.code = .jmp := by simpa [Instr.isJump] using hj
    rw [if_pos rfl]
    rcases hkind with hz | hz
    · simp only [Instr.next, hz]
      split
      · rfl
      · exact hk.symm
    · simp only [Instr.next, hz]
  | false =>
    rw [if_neg (by simp), next_of_not_jump hj, next_of_not_jump hj]
    exact hk.symm

/-! ## What the runs show -/

section Runs

variable {E S : Type*} [Field V] {M : StanMath V E S} {p q : Program V} {gone : List Bool}

/-- What a visit shows: the instruction's code, the values it reads, and at a `JZ` whether it jumps. -/
def seenAt (M : StanMath V E S) (p : Program V) (v : ℕ × File V S) :
    Option (Code × List (List V) × Option Bool) :=
  (p.code[v.1]?).map fun I =>
    (I.code, (p.eachRead M.toRegistry I).map fun i => i.read v.2.reg, p.branchAt M v)

/-- The visits of the instructions that are not gone. -/
def surviving (gone : List Bool) (vs : List (ℕ × File V S)) : List (ℕ × File V S) :=
  vs.filter fun v => !gone.getD v.1 false

/-- The visits `ws` of `q` show what the surviving visits of `p` show, and take the same branches as
all visits of `p`. -/
structure ShowsSame (M : StanMath V E S) (p q : Program V) (gone : List Bool)
    (vs ws : List (ℕ × File V S)) : Prop where
  branches : q.branches M ws = p.branches M vs
  seen : ws.filterMap (q.seenAt M) = (surviving gone vs).filterMap (p.seenAt M)

/-- Running `q`, which is `p` without the instructions that are gone, from the same file: executions
of any length read the same values and take the same branches, and runs end with the same error or the
same live-outs. -/
structure PreservesSurvivors (M : StanMath V E S) (p q : Program V) (gone : List Bool) : Prop where
  steps : ∀ s vs k t, (p.machine M).Steps p.code 0 s vs k t →
    ∃ ws k' t', (q.machine M).Steps q.code 0 s ws k' t' ∧ ShowsSame M p q gone vs ws
  runs : ∀ s vs r, p.Runs M s vs r → ∃ ws r', q.Runs M s ws r' ∧ ShowsSame M p q gone vs ws ∧
    Alike (AgreeOn fun r => r ∈ p.outRegs) r r'

lemma PreservesSurvivors.refl (M : StanMath V E S) (p : Program V) : PreservesSurvivors M p p [] := by
  have hsame : ∀ vs, ShowsSame M p p [] vs vs := fun vs => ⟨rfl, by simp [surviving]⟩
  exact ⟨fun s vs k t h => ⟨vs, k, t, h, hsame vs⟩, fun s vs r h =>
    ⟨vs, r, h, hsame vs, Alike.refl (fun _ => ⟨fun _ _ => rfl, rfl⟩) r⟩⟩

/-! ## The simulation -/

/-- What relates the two runs in front of a position. -/
structure LiveRelated (R : Registry) (p : Program V) (k : ℕ) (s t : File V S) : Prop where
  path : ∃ vs, p.ControlPath vs k
  agree : AgreeOn (Live R p k) s t

/-- What an erased visit does not show. -/
def shownAt (M : StanMath V E S) (p : Program V) (gone : List Bool) (v : ℕ × File V S) :
    Option (Code × List (List V) × Option Bool) :=
  if gone.getD v.1 false then none else p.seenAt M v

/-- An instruction with modelled spans or not: related files end alike, related behind it. -/
lemma LiveRelated.exec {k : ℕ} {s t : File V S} {I : Instr} (hW : M.FillsOutputs)
    (h : LiveRelated M.toRegistry p k s t) (hI : p.code[k]? = some I) :
    Alike (fun s' t' => p.exec M I s = .ok s' → LiveRelated M.toRegistry p (I.next M k s) s' t')
      (p.exec M I s) (p.exec M I t) := by
  obtain ⟨vs, hpath⟩ := h.path
  have hreads : ∀ i ∈ p.eachRead M.toRegistry I, ∀ r ∈ i.regs, Live M.toRegistry p k r :=
    fun i hi r hr => .read hI hi hr
  by_cases haudit : I.isAudited = true
  · refine (exec_agree_audited haudit hW hreads h.agree).mono fun s' t' hst hex => ?_
    have hnext : I.next M k s ∈ I.successors k := next_mem_successors hex
    refine ⟨⟨_, hpath.step hI hnext⟩, fun r hr => hst.1 r ?_, hst.2⟩
    by_cases hdef : r ∈ p.defines I
    · exact Or.inr hdef
    · exact Or.inl (.flow hI hnext hdef hr)
  · have hall : s = t := by
      obtain ⟨x, e⟩ := s
      obtain ⟨y, e'⟩ := t
      have hreg : x = y := funext fun r => h.agree.1 r (.unmodelled hI (by simpa using haudit))
      have heff : e = e' := h.agree.2
      rw [hreg, heff]
    rw [← hall]
    cases hex : p.exec M I s with
    | error e => rfl
    | ok s' =>
      intro _
      exact ⟨⟨_, hpath.step hI (next_mem_successors hex)⟩, fun _ _ => rfl, rfl⟩

/-- Behind an erased store the runs are related with the second one where it was. -/
lemma LiveRelated.store {k : ℕ} {s s' t : File V S} {I : Instr} (h : LiveRelated M.toRegistry p k s t)
    (hI : p.code[k]? = some I) (hdrop : I.droppable = true)
    (hdead : ∀ r ∈ p.writes I, ¬Live M.toRegistry p (k + 1) r) (hex : p.exec M I s = .ok s') :
    LiveRelated M.toRegistry p (k + 1) s' t := by
  obtain ⟨vs, hpath⟩ := h.path
  have hnext : k + 1 ∈ I.successors k := by
    rw [← next_of_not_jump (M := M) (droppable_not_jump hdrop).1 k s]
    exact next_mem_successors hex
  obtain ⟨s'', hs'', heff⟩ := exec_droppable (M := M) (q := p) hdrop s
  obtain rfl : s'' = s' := Except.ok.inj (hs''.symm.trans hex)
  refine ⟨⟨_, hpath.step hI hnext⟩, fun r hr => ?_, heff.trans h.agree.2⟩
  have hr' : r ∉ p.writes I := fun hw => hdead r hw hr
  rw [exec_frame_audited (isAudited_of_droppable hdrop) hex hr']
  exact h.agree.1 r (.flow hI hnext (by rwa [defines_of_droppable hdrop]) hr)

/-- Files that agree on what an instruction reads show the same of it. -/
lemma seenAt_congr {code : List Instr} {D : ℕ → Prop} {k k' : ℕ} {s t : File V S} {I : Instr}
    {pos : ℕ → ℕ} (hD : ∀ i ∈ p.eachRead M.toRegistry I, ∀ r ∈ i.regs, D r) (h : AgreeOn D s t)
    (hI : p.code[k]? = some I) (hI' : (p.withCode code).code[k']? = some (IslandProg.retarget pos I)) :
    p.seenAt M (k, s) = (p.withCode code).seenAt M (k', t) := by
  have hreads : ∀ i ∈ p.eachRead M.toRegistry I, i.read s.reg = i.read t.reg := fun i hi =>
    h.read fun r hr => hD i hi r hr
  simp only [seenAt, branchAt, hI, hI', Option.map_some, Option.bind_some, eachRead_retarget,
    (code_retarget pos I).1, (code_retarget pos I).2]
  rw [List.map_congr_left hreads]
  by_cases hc : I.code = .jz
  · have ha := hreads ⟨I.a, 1⟩ (by
      simp [eachRead, Instr.readOperands, Instr.rule, Instr.inputLen, Instr.operand, hc, Code.has,
        Code.flags])
    have ha' : s.reg I.a = t.reg I.a := by simpa [Span.read, Span.regs] using ha
    rw [if_pos hc, if_pos hc, ha']
  · rw [if_neg hc, if_neg hc]

/-- The program without the dead stores follows the program. -/
theorem eraseStores_follows (hW : M.FillsOutputs) (hdead : DeadStores M.toRegistry p gone) :
    Branching.Follows (p.machine M) ((p.eraseStores gone).machine M) p.code (p.eraseStores gone).code
      (erasedPos gone) (p.shownAt M gone) ((p.eraseStores gone).seenAt M)
      (LiveRelated M.toRegistry p) := by
  have hcode : ∀ {k I}, p.code[k]? = some I → gone[k]? = some false →
      (p.eraseStores gone).code[erasedPos gone k]? =
        some (IslandProg.retarget (erasedPos gone) I) := by
    intro k I hI hkept
    change ((erase _ _).map _)[_]? = _
    rw [List.getElem?_map, getElem?_erase hI hkept, Option.map_some]
  have hmark : ∀ {k I}, p.code[k]? = some I → ∃ b, gone[k]? = some b := fun hI =>
    ⟨_, List.getElem?_eq_getElem (by
      rw [hdead.length]
      exact (List.getElem?_eq_some_iff.1 hI).1)⟩
  have hshown : ∀ {k b} (s : File V S), gone[k]? = some b →
      p.shownAt M gone (k, s) = if b then none else p.seenAt M (k, s) := by
    intro k b s hb
    rw [shownAt, List.getD_eq_getElem?_getD, hb]
    rfl
  refine ⟨fun k s t hrel hnone => ?_, fun k I s t e hrel hI hex => ?_, fun k I s t s' hrel hI hex => ?_⟩
  · change ((erase _ _).map _)[_]? = _
    rw [List.getElem?_map, getElem?_erase_end hdead.length hnone, Option.map_none]
  · obtain ⟨b, hb⟩ := hmark hI
    cases b with
    | true =>
      -- A store does not fail.
      obtain ⟨vs, hpath⟩ := hrel.path
      obtain ⟨s', hs', -⟩ := exec_droppable (M := M) (q := p) (hdead.store k I vs hI hb hpath).1 s
      change p.exec M I s = .error e at hex
      rw [hex] at hs'
      cases hs'
    | false =>
      have halike := hrel.exec hW hI
      change p.exec M I s = .error e at hex
      rw [hex] at halike
      refine ⟨?_, _, hcode hI hb, (exec_retarget p _ _ I t).trans ?_⟩
      · rw [hshown s hb]
        exact seenAt_congr (fun i hi r hr => .read hI hi hr) hrel.agree hI (hcode hI hb)
      · cases he' : p.exec M I t with
        | ok t' =>
          rw [he'] at halike
          exact halike.elim
        | error e' =>
          rw [he'] at halike
          exact congrArg _ (Eq.symm halike)
  · obtain ⟨b, hb⟩ := hmark hI
    change p.exec M I s = .ok s' at hex
    cases b with
    | true =>
      obtain ⟨vs, hpath⟩ := hrel.path
      obtain ⟨hdrop, hregs⟩ := hdead.store k I vs hI hb hpath
      have hnext : (p.machine M).next I k s = k + 1 := next_of_not_jump (droppable_not_jump hdrop).1 k s
      rw [hnext]
      exact Or.inl ⟨erasedPos_succ_of_gone hb, hshown s hb, hrel.store hI hdrop hregs hex⟩
    | false =>
      have halike := hrel.exec hW hI
      rw [hex] at halike
      cases he' : p.exec M I t with
      | error e' =>
        rw [he'] at halike
        exact halike.elim
      | ok t' =>
        rw [he'] at halike
        refine Or.inr ⟨_, t', hcode hI hb, (exec_retarget p _ _ I t).trans he', ?_, ?_, halike rfl⟩
        · change (IslandProg.retarget _ I).next M _ t = erasedPos _ (I.next M k s)
          rw [next_agree k (fun i hi r hr => .read hI hi hr) hrel.agree]
          exact next_retarget (erasedPos_succ_of_kept hb) t
        · rw [hshown s hb]
          exact seenAt_congr (fun i hi r hr => .read hI hi hr) hrel.agree hI (hcode hI hb)

/-- What is shown of the visits is what is shown of the surviving ones. -/
lemma filterMap_shownAt (vs : List (ℕ × File V S)) :
    vs.filterMap (p.shownAt M gone) = (surviving gone vs).filterMap (p.seenAt M) := by
  rw [surviving, List.filterMap_filter]
  congr 1
  funext v
  unfold shownAt
  cases gone.getD v.1 false <;> rfl

/-- The branches are shown. -/
lemma branches_eq_seen (vs : List (ℕ × File V S)) :
    p.branches M vs = (vs.filterMap (p.seenAt M)).filterMap fun o => o.2.2 := by
  rw [List.filterMap_filterMap]
  refine List.filterMap_congr fun v _ => ?_
  unfold seenAt branchAt
  cases p.code[v.1]? <;> rfl

/-- No erased visit is a branch. -/
lemma branches_surviving (hdead : DeadStores M.toRegistry p gone) {vs : List (ℕ × File V S)}
    (hpaths : ∀ v ∈ vs, ∃ us, p.ControlPath us v.1) :
    p.branches M vs = p.branches M (surviving gone vs) := by
  rw [surviving, branches, branches, List.filterMap_filter]
  refine List.filterMap_congr fun v hv => ?_
  obtain ⟨us, hpath⟩ := hpaths v hv
  cases hI : p.code[v.1]? with
  | none => cases gone.getD v.1 false <;> rfl
  | some I =>
    cases hb : gone.getD v.1 false with
    | false => rfl
    | true =>
      have hgone : gone[v.1]? = some true := by
        rw [List.getD_eq_getElem?_getD] at hb
        cases hg : gone[v.1]? with
        | none => simp [hg] at hb
        | some b =>
          rw [hg] at hb
          exact congrArg some hb
      have hjz := (droppable_not_jump (hdead.store v.1 I us hI hgone hpath).1).2
      simp [hjz]

lemma showsSame_of_shown (hdead : DeadStores M.toRegistry p gone) {vs ws : List (ℕ × File V S)}
    (hpaths : ∀ v ∈ vs, ∃ us, p.ControlPath us v.1)
    (h : ws.filterMap (q.seenAt M) = vs.filterMap (p.shownAt M gone)) :
    ShowsSame M p q gone vs ws := by
  rw [filterMap_shownAt] at h
  refine ⟨?_, h⟩
  rw [branches_eq_seen, h, branches_surviving hdead hpaths, branches_eq_seen]

/-- Dead stores can be erased. -/
theorem eraseStores_preserves (hW : M.FillsOutputs) (hdead : DeadStores M.toRegistry p gone) :
    PreservesSurvivors M p (p.eraseStores gone) gone := by
  have hfollows := eraseStores_follows hW hdead
  have hstart : ∀ s : File V S, LiveRelated M.toRegistry p 0 s s := fun s =>
    ⟨⟨[], .start⟩, fun _ _ => rfl, rfl⟩
  have hpaths : ∀ {s t : File V S} {vs k}, (p.machine M).Steps p.code 0 s vs k t →
      ∀ v ∈ vs, ∃ us, p.ControlPath us v.1 := fun hsteps v hv => by
    obtain ⟨us, -, -, hus, -⟩ := hsteps.visits v hv
    exact ⟨_, controlPath_of_steps hus⟩
  constructor
  · intro s vs k t hsteps
    obtain ⟨ws, t', hws, hshown, -⟩ := hfollows.execution (hstart s) hsteps
    exact ⟨ws, _, t', hws, showsSame_of_shown hdead (hpaths hsteps) hshown⟩
  · rintro s vs r ⟨fuel, hrun⟩
    obtain ⟨ws, r', hws, hshown, hends⟩ := hfollows.run (hstart s) hrun
    have hvs : ∀ v ∈ vs, ∃ us, p.ControlPath us v.1 := by
      rcases Branching.exists_run_iff_ends.1 ⟨fuel, hrun⟩ with ⟨k, t, hsteps, -⟩ |
        ⟨us, k, t, I, e, hsteps, rfl, -⟩
      · exact hpaths hsteps
      · intro v hv
        rcases List.mem_append.1 hv with hv | hv
        · exact hpaths hsteps v hv
        · obtain rfl := List.mem_singleton.1 hv
          exact ⟨_, controlPath_of_steps hsteps⟩
    refine ⟨ws, r', ⟨fuel, hws⟩, showsSame_of_shown hdead hvs hshown, ?_⟩
    rcases hends with ⟨e, rfl, rfl⟩ | ⟨k, s', t', rfl, rfl, hnone, hrel⟩
    · exact rfl
    · exact ⟨fun r hr => hrel.agree.1 r (.out hnone hr), hrel.agree.2⟩

end Runs

end Program

end Stanli
