import Stanli.Program.FillSink

/-!
# Sinking fills preserves execution

The program with the fills at their new positions answers every step of the program: arriving at a
position it first runs the fills that have moved there, and then the instruction.  In between the two
files differ in the registers of the fills that have been passed at their old position and not yet at
their new one (`Deferred`), which nothing touches.
-/

namespace Stanli

open Program

namespace Program

variable {V E S : Type*}

/-! ## Deferred fills -/

/-- The value of the fill at a position. -/
def fillValue [Field V] (p : Program V) (pc : ℕ) : V :=
  (p.code[pc]?).elim 0 fun I => p.pool.getD I.a 0

/-- The file `s` has run the pending fills and `t` has not; otherwise they agree. -/
structure Deferred [Field V] (p : Program V) (pend : ℕ → Prop) (s t : File V S) : Prop where
  agree : AgreeOn (fun r => ∀ pc, pend pc → r ∉ (p.fillRange pc).regs) s t
  value : ∀ pc, pend pc → ∀ r ∈ (p.fillRange pc).regs, s.reg r = p.fillValue pc

section Deferred

variable [Field V] {M : StanMath V E S} {p : Program V} {pend pend' : ℕ → Prop} {s s' t t' : File V S}
  {pc : ℕ} {I : Instr}

/-- What a fill does. -/
lemma exec_fill (hI : p.code[pc]? = some I) (hc : I.code = .fill) (s : File V S) :
    ∃ s', p.exec M I s = .ok s' ∧ s'.eff = s.eff ∧
      (∀ r ∈ (p.fillRange pc).regs, s'.reg r = p.fillValue pc) ∧
      ∀ r, r ∉ (p.fillRange pc).regs → s'.reg r = s.reg r := by
  refine ⟨⟨writeRun s.reg I.dst (List.replicate I.len (p.pool.getD I.a 0)), s.eff⟩, ?_, rfl, ?_, ?_⟩
  · simp only [exec, hc]
    rfl
  · intro r hr
    rw [fillRange, hI] at hr
    have hmem := Span.mem_regs.1 hr
    simp only [Option.elim_some] at hmem
    unfold writeRun
    dsimp only
    rw [if_pos hmem.1, List.getElem?_replicate, if_pos (by omega), fillValue, hI]
    rfl
  · intro r hr
    rw [fillRange, hI, Span.mem_regs] at hr
    simp only [Option.elim_some] at hr
    exact writeRun_of_notMem _ (by rw [List.length_replicate]; omega)

/-- The second file runs a pending fill. -/
lemma Deferred.catchUp (h : Deferred p pend s t) (hI : p.code[pc]? = some I) (hc : I.code = .fill)
    (hpend : pend pc) : ∃ t', p.exec M I t = .ok t' ∧ Deferred p (fun j => pend j ∧ j ≠ pc) s t' := by
  obtain ⟨t', hex, heff, hin, hout⟩ := exec_fill (M := M) hI hc t
  refine ⟨t', hex, ⟨fun r hr => ?_, h.agree.2.trans heff.symm⟩, fun j hj => h.value j hj.1⟩
  by_cases hmem : r ∈ (p.fillRange pc).regs
  · rw [h.value pc hpend r hmem, hin r hmem]
  · rw [hout r hmem]
    refine h.agree.1 r fun j hj => ?_
    rcases eq_or_ne j pc with rfl | hne
    · exact hmem
    · exact hr j ⟨hj, hne⟩

/-- The first file runs a fill that the second one defers. -/
lemma Deferred.defer (h : Deferred p pend s t) (hI : p.code[pc]? = some I) (hc : I.code = .fill)
    (hapart : ∀ j, pend j → ∀ r ∈ (p.fillRange j).regs, r ∉ (p.fillRange pc).regs)
    (hex : p.exec M I s = .ok s') : Deferred p (fun j => pend j ∨ j = pc) s' t := by
  obtain ⟨s'', hex', heff, hin, hout⟩ := exec_fill (M := M) hI hc s
  obtain rfl := Except.ok.inj (hex'.symm.trans hex)
  refine ⟨⟨fun r hr => ?_, heff.trans h.agree.2⟩, fun j hj r hr => ?_⟩
  · rw [hout r (hr pc (Or.inr rfl))]
    exact h.agree.1 r fun j hj => hr j (Or.inl hj)
  · rcases hj with hj | rfl
    · rw [hout r (hapart j hj r hr)]
      exact h.value j hj r hr
    · exact hin r hr

lemma Deferred.congr (h : Deferred p pend s t) (hiff : ∀ j, pend' j ↔ pend j) : Deferred p pend' s t :=
  ⟨⟨fun r hr => h.agree.1 r fun j hj => hr j ((hiff j).2 hj), h.agree.2⟩,
    fun j hj => h.value j ((hiff j).1 hj)⟩

/-- Both files run an instruction that touches no pending fill. -/
lemma Deferred.both (h : Deferred p pend s t) (hW : M.FillsOutputs) (haudit : I.isAudited = true)
    (hapart : ∀ i ∈ p.eachRead M.toRegistry I ++ p.eachWrite I, ∀ r ∈ i.regs, ∀ j, pend j →
      r ∉ (p.fillRange j).regs) :
    Alike (fun s' t' => p.exec M I s = .ok s' → Deferred p pend s' t') (p.exec M I s)
      (p.exec M I t) := by
  refine (exec_agree_audited haudit hW (fun i hi r hr => hapart i (List.mem_append_left _ hi) r hr)
    h.agree).mono fun s' t' hst hex => ⟨⟨fun r hr => hst.1 r (Or.inl hr), hst.2⟩, fun j hj r hr => ?_⟩
  rw [exec_frame_audited haudit hex]
  · exact h.value j hj r hr
  · intro hw
    obtain ⟨i, hi, hri⟩ := (exists_eachWrite (code_ne_transform_of_isAudited haudit)).2 hw
    exact hapart i (List.mem_append_right _ hi) r hri j hj hr

end Deferred

/-! ## The layout of the new code -/

section Layout

variable {p : Program V} {targets : List (Option ℕ)} {k : ℕ}

/-- The fills that have moved to a position. -/
def fillsAt (p : Program V) (targets : List (Option ℕ)) (k : ℕ) : List (Instr × ℕ) :=
  p.code.zipIdx.filter fun e => decide (targets.getD e.2 none = some k)

lemma mem_fillsAt {e : Instr × ℕ} :
    e ∈ p.fillsAt targets k ↔ p.code[e.2]? = some e.1 ∧ targets.getD e.2 none = some k := by
  rw [fillsAt, List.mem_filter, decide_eq_true_eq]
  obtain ⟨I, j⟩ := e
  rw [List.mk_mem_zipIdx_iff_getElem?]

/-- The moved fills come in the order of their old positions, each once. -/
lemma fillsAt_nodup : ((p.fillsAt targets k).map Prod.snd).Nodup := by
  have hidx : (p.code.zipIdx.map Prod.snd).Nodup := by
    rw [List.zipIdx_map_snd]
    exact List.nodup_range'
  exact hidx.sublist (List.filter_sublist.map _)

lemma getElem?_sinkBlocks (hk : k ≤ p.code.length) :
    (p.sinkBlocks targets)[k]? = some (p.sinkBlock targets k) := by
  rw [sinkBlocks, List.getElem?_map, List.getElem?_range (Nat.lt_succ_of_le hk)]
  rfl

/-- The entries of the block of a position are found from its new position on. -/
lemma getElem?_entries (hk : k ≤ p.code.length) {i : ℕ} {e : Instr × ℕ}
    (he : (p.sinkBlock targets k)[i]? = some e) :
    (p.sinkBlocks targets).flatten[p.sunkPos targets k + i]? = some e := by
  have hblock : (p.sinkBlocks targets)[k]? = some (p.sinkBlock targets k) := getElem?_sinkBlocks hk
  have hget : ([] ++ (p.sinkBlocks targets).flatten)[Branching.blockPos 0 (p.sinkBlocks targets) k + i]? =
      some e := Branching.getElem?_blockPos hblock he
  rwa [List.nil_append] at hget

lemma getElem?_sunk (hk : k ≤ p.code.length) {i : ℕ} {e : Instr × ℕ}
    (he : (p.sinkBlock targets k)[i]? = some e) :
    (p.sunk targets).code[p.sunkPos targets k + i]? =
      some (IslandProg.retarget (p.sunkPos targets) e.1) := by
  change ((p.sinkBlocks targets).flatten.map _)[_]? = _
  rw [List.getElem?_map, getElem?_entries hk he]
  rfl

lemma sunkPos_succ (hk : k ≤ p.code.length) :
    p.sunkPos targets (k + 1) = p.sunkPos targets k + (p.sinkBlock targets k).length :=
  Branching.blockPos_succ (getElem?_sinkBlocks hk)

/-- The last block ends the code. -/
lemma length_sunk : (p.sunk targets).code.length =
    p.sunkPos targets p.code.length + (p.sinkBlock targets p.code.length).length := by
  rw [← sunkPos_succ le_rfl, sunkPos, Branching.blockPos, Nat.zero_add,
    List.take_of_length_le (by simp [sinkBlocks])]
  exact List.length_map ..

lemma sinkBlock_of_stays {I : Instr} (hI : p.code[k]? = some I) (hstay : targets.getD k none = none) :
    p.sinkBlock targets k = p.fillsAt targets k ++ [(I, k)] := by
  rw [sinkBlock, hI, hstay]
  rfl

lemma sinkBlock_of_moves {I : Instr} {target : ℕ} (hI : p.code[k]? = some I)
    (hmove : targets.getD k none = some target) : p.sinkBlock targets k = p.fillsAt targets k := by
  rw [sinkBlock, hI, hmove]
  exact List.append_nil _

lemma sinkBlock_end (hend : p.code[k]? = none) : p.sinkBlock targets k = p.fillsAt targets k := by
  rw [sinkBlock, hend]
  exact List.append_nil _

/-- The entries of the new code are the instructions of the old one. -/
lemma code_of_mem_entries {e : Instr × ℕ} (he : e ∈ (p.sinkBlocks targets).flatten) :
    p.code[e.2]? = some e.1 := by
  obtain ⟨block, hblock, he⟩ := List.mem_flatten.1 he
  obtain ⟨k, -, rfl⟩ := List.mem_map.1 hblock
  cases hI : p.code[k]? with
  | none =>
    rw [sinkBlock_end hI] at he
    exact (mem_fillsAt.1 he).1
  | some I =>
    cases hmove : targets.getD k none with
    | some target =>
      rw [sinkBlock_of_moves hI hmove] at he
      exact (mem_fillsAt.1 he).1
    | none =>
      rw [sinkBlock_of_stays hI hmove] at he
      rcases List.mem_append.1 he with he | he
      · exact (mem_fillsAt.1 he).1
      · rw [List.mem_singleton.1 he]
        exact hI

/-- A block holds a moved fill once, if it is the one of its destination. -/
lemma count_sinkBlock {pc target : ℕ} (hmove : targets.getD pc none = some target) :
    ((p.sinkBlock targets k).map Prod.snd).count pc ≤ if k = target then 1 else 0 := by
  have hfills : ((p.fillsAt targets k).map Prod.snd).count pc ≤ if k = target then 1 else 0 := by
    split
    · exact List.nodup_iff_count_le_one.1 fillsAt_nodup pc
    · rename_i hne
      rw [List.count_eq_zero_of_not_mem fun hmem => ?_]
      obtain ⟨e, he, rfl⟩ := List.mem_map.1 hmem
      exact hne (Option.some.inj ((mem_fillsAt.1 he).2.symm.trans hmove))
  cases hI : p.code[k]? with
  | none => rwa [sinkBlock_end hI]
  | some I =>
    cases hk : targets.getD k none with
    | some target' => rwa [sinkBlock_of_moves hI hk]
    | none =>
      have hne : k ≠ pc := by
        rintro rfl
        rw [hmove] at hk
        cases hk
      rw [sinkBlock_of_stays hI hk, List.map_append, List.count_append, List.map_singleton,
        List.count_singleton, beq_eq_false_iff_ne.2 hne]
      simpa using hfills

/-! ## What is pending -/

variable {R : Registry}

/-- A fill that the path has passed at its old position and not yet at its new one. -/
def Pending (targets : List (Option ℕ)) (vs : List ℕ) (pc : ℕ) : Prop :=
  pc ∈ vs ∧ ∃ target, targets.getD pc none = some target ∧ target ∉ vs

/-- The fills still pending when those that have moved to `k` have run. -/
def PendingAt (targets : List (Option ℕ)) (vs : List ℕ) (k pc : ℕ) : Prop :=
  pc ∈ vs ∧ ∃ target, targets.getD pc none = some target ∧ target ∉ vs ++ [k]

/-- What is pending behind a position, when its instruction stays and when it is a fill that moves. -/
lemma pending_append (h : SinkChecked R p targets) {vs : List ℕ} (hpath : p.ControlPath vs k)
    (j : ℕ) : Pending targets (vs ++ [k]) j ↔
      PendingAt targets vs k j ∨ (j = k ∧ ∃ target, targets.getD k none = some target) := by
  constructor
  · rintro ⟨hj, target, htarget, hnot⟩
    rcases List.mem_append.1 hj with hj | hj
    · exact Or.inl ⟨hj, target, htarget, hnot⟩
    · obtain rfl := List.mem_singleton.1 hj
      exact Or.inr ⟨rfl, target, htarget⟩
  · rintro (⟨hj, target, htarget, hnot⟩ | ⟨rfl, target, htarget⟩)
    · exact ⟨List.mem_append_left _ hj, target, htarget, hnot⟩
    · have hlt := (h.behind j target htarget).1
      refine ⟨List.mem_append_right _ (List.mem_singleton_self j), target, htarget, fun hmem => ?_⟩
      rcases List.mem_append.1 hmem with hmem | hmem
      · have := hpath.lt_of_mem_acyclic (h.acyclic j target htarget).2 hmem
        omega
      · rw [List.mem_singleton] at hmem
        omega

/-- A fill that moves away touches no pending fill. -/
lemma fill_apart (h : SinkChecked R p targets) {I : Instr} (hI : p.code[k]? = some I)
    (hc : I.code = .fill) {j target r : ℕ} (htarget : targets.getD j none = some target) (hne : k ≠ j)
    (hr : r ∈ (p.fillRange j).regs) : r ∉ (p.fillRange k).regs := by
  intro hk
  rw [fillRange, hI] at hk
  have hlen : I.outputLen = I.len := by simp [Instr.outputLen, hc, Code.has, Code.flags]
  have hwrite : p.eachWrite I = [⟨I.dst, I.len⟩] := by
    have hpos := Span.mem_regs.1 hk
    simp only [Option.elim_some] at hpos
    simp only [eachWrite, hc, hlen]
    rw [if_pos (by omega)]
  have htouch : p.touches R (p.fillRange j) I = true := by
    refine List.any_eq_true.2 ⟨⟨I.dst, I.len⟩, List.mem_append_right _ ?_, Span.overlaps_of_mem hr hk⟩
    rw [hwrite]
    exact List.mem_singleton_self _
  exact (h.access j target k I htarget hI hne htouch).2 hc

/-- A moved fill runs at most as often as before: its new position is visited once at most, and only
when the old one has been. -/
lemma count_origins (h : SinkChecked R p targets) {vs : List ℕ} (hpath : p.ControlPath vs k)
    {pc target : ℕ} (hmove : targets.getD pc none = some target) {ks : List ℕ}
    (hks : ks.count target ≤ (vs ++ [k]).count target) :
    (ks.flatMap fun k => (p.sinkBlock targets k).map Prod.snd).count pc ≤ vs.count pc := by
  have hle : (ks.flatMap fun k => (p.sinkBlock targets k).map Prod.snd).count pc ≤ ks.count target := by
    clear hks
    induction ks with
    | nil => simp
    | cons j ks ih =>
      have hj := count_sinkBlock (k := j) (p := p) hmove
      rw [List.flatMap_cons, List.count_append, List.count_cons]
      by_cases heq : j = target
      · rw [if_pos heq] at hj
        rw [beq_iff_eq.2 heq, if_pos rfl]
        omega
      · rw [if_neg heq] at hj
        omega
  rcases Nat.eq_zero_or_pos (ks.count target) with hzero | hpos
  · omega
  · have hmem : target ∈ vs ++ [k] := List.count_pos_iff.1 (by omega)
    have honce := (h.path hmove).once vs k hpath
    have := List.count_pos_iff.2 ((h.path hmove).through vs k hpath hmem)
    omega

end Layout

/-! ## What the runs show -/

section Runs

variable [Field V] {M : StanMath V E S} {p : Program V} {targets : List (Option ℕ)} {k : ℕ}
  {s s' t : File V S}

/-- What one visit shows: an old position, and for an instruction that stays what it reads there. -/
abbrev SinkShown (V : Type*) := ℕ × Option (Code × List (List V) × Option Bool)

/-- What the block of a visited position shows. -/
def sinkShown (M : StanMath V E S) (p : Program V) (targets : List (Option ℕ)) (v : ℕ × File V S) :
    List (SinkShown V) :=
  (p.sinkBlock targets v.1).map fun e =>
    (e.2, if (targets.getD e.2 none).isNone then p.seenAt M v else none)

/-- What a visit of the new code shows. -/
def sunkShown (M : StanMath V E S) (p : Program V) (targets : List (Option ℕ)) (v : ℕ × File V S) :
    List (SinkShown V) :=
  ((p.sinkBlocks targets).flatten[v.1]?).elim [] fun e =>
    [(e.2, if (targets.getD e.2 none).isNone then (p.sunk targets).seenAt M v else none)]

/-- Running moved fills from a position of the new code on. -/
lemma steps_fills (h : SinkChecked M.toRegistry p targets) {es : List (Instr × ℕ)} {m : ℕ}
    (hes : ∀ e ∈ es, p.code[e.2]? = some e.1 ∧ ∃ target, targets.getD e.2 none = some target)
    (hnodup : (es.map Prod.snd).Nodup)
    (hat : ∀ i e, es[i]? = some e → (p.sinkBlocks targets).flatten[m + i]? = some e)
    {pend : ℕ → Prop} (hpend : ∀ e ∈ es, pend e.2) (hdef : Deferred p pend s t) :
    ∃ ws t', ((p.sunk targets).machine M).Steps (p.sunk targets).code m t ws (m + es.length) t' ∧
      Branching.shows (p.sunkShown M targets) ws = es.map (fun e => (e.2, none)) ∧
      Deferred p (fun j => pend j ∧ j ∉ es.map Prod.snd) s t' := by
  induction es generalizing m t pend with
  | nil => exact ⟨[], t, .refl, rfl, hdef.congr fun j => by simp⟩
  | cons e es ih =>
    obtain ⟨hI, target, htarget⟩ := hes e (List.mem_cons_self ..)
    obtain ⟨J, hJ, hc⟩ := h.fill e.2 target htarget
    obtain rfl := Option.some.inj (hI.symm.trans hJ)
    obtain ⟨t', hex, hdef'⟩ := hdef.catchUp (M := M) hI hc (hpend e (List.mem_cons_self ..))
    have hentry := hat 0 e rfl
    rw [Nat.add_zero] at hentry
    have hcode : (p.sunk targets).code[m]? = some (IslandProg.retarget (p.sunkPos targets) e.1) := by
      change ((p.sinkBlocks targets).flatten.map _)[_]? = _
      rw [List.getElem?_map, hentry]
      rfl
    have hex' : (p.sunk targets).exec M (IslandProg.retarget (p.sunkPos targets) e.1) t = .ok t' :=
      (exec_retarget p _ _ e.1 t).trans hex
    have hnext : ((p.sunk targets).machine M).next
        (IslandProg.retarget (p.sunkPos targets) e.1) m t = m + 1 := by
      have hj : e.1.isJump = false := by simp [Instr.isJump, hc]
      rw [IslandProg.retarget, if_neg (by simp [hj])]
      exact next_of_not_jump hj m t
    rw [List.map_cons, List.nodup_cons] at hnodup
    obtain ⟨ws, u, hws, hshow, hrest⟩ := ih (m := m + 1) (t := t')
      (fun e' he' => hes e' (List.mem_cons_of_mem _ he')) hnodup.2
      (fun i e' he' => by
        rw [Nat.add_right_comm, Nat.add_assoc]
        exact hat (i + 1) e' he')
      (fun e' he' => ⟨hpend e' (List.mem_cons_of_mem _ he'), fun heq => hnodup.1
        (List.mem_map.2 ⟨e', he', heq⟩)⟩) hdef'
    refine ⟨(m, t) :: ws, u, ?_, ?_, hrest.congr fun j => ?_⟩
    · have hstep := Branching.Steps.single (B := (p.sunk targets).machine M) hcode hex'
      rw [hnext] at hstep
      rw [List.length_cons, show m + (es.length + 1) = m + 1 + es.length by omega]
      exact hstep.trans hws
    · rw [show (m, t) :: ws = [(m, t)] ++ ws from rfl, Branching.shows_append, hshow,
        Branching.shows_singleton, List.map_cons, sunkShown, hentry, Option.elim_some, htarget]
      rfl
    · simp only [List.map_cons, List.mem_cons, not_or]
      tauto

/-- What relates the two runs in front of the block of a position. -/
def SunkRelated (p : Program V) (targets : List (Option ℕ)) (k : ℕ) (s t : File V S) : Prop :=
  ∃ vs, p.ControlPath vs k ∧ Deferred p (Pending targets vs) s t

/-- Arriving at a position the new code runs the fills that have moved there. -/
lemma steps_arrive (h : SinkChecked M.toRegistry p targets) {vs : List ℕ} (hpath : p.ControlPath vs k)
    (hk : k ≤ p.code.length) (hdef : Deferred p (Pending targets vs) s t) :
    ∃ ws t', ((p.sunk targets).machine M).Steps (p.sunk targets).code (p.sunkPos targets k) t ws
        (p.sunkPos targets k + (p.fillsAt targets k).length) t' ∧
      Branching.shows (p.sunkShown M targets) ws =
        (p.fillsAt targets k).map (fun e => (e.2, none)) ∧
      Deferred p (PendingAt targets vs k) s t' := by
  have hfills : ∀ e ∈ p.fillsAt targets k, p.code[e.2]? = some e.1 ∧
      targets.getD e.2 none = some k := fun e he => mem_fillsAt.1 he
  obtain ⟨ws, t', hws, hshow, hdef'⟩ := steps_fills (m := p.sunkPos targets k) h (fun e he => ⟨(hfills e he).1, k, (hfills e he).2⟩) fillsAt_nodup
    (fun i e he => getElem?_entries hk (by
      rw [sinkBlock]
      exact (List.getElem?_append_left (List.getElem?_eq_some_iff.1 he).1).trans he))
    (fun e he => by
      have hmove := (hfills e he).2
      refine ⟨(h.path hmove).through vs k hpath (List.mem_append_right _ (List.mem_singleton_self k)), k,
        hmove, fun hmem => ?_⟩
      exact absurd (hpath.lt_of_mem_acyclic (h.acyclic e.2 k hmove).2 hmem) (lt_irrefl k)) hdef
  refine ⟨ws, t', hws, hshow, hdef'.congr fun j => ?_⟩
  constructor
  · rintro ⟨hj, target, htarget, hnot⟩
    rw [List.mem_append, List.mem_singleton, not_or] at hnot
    refine ⟨⟨hj, target, htarget, hnot.1⟩, fun hmem => ?_⟩
    obtain ⟨e, he, rfl⟩ := List.mem_map.1 hmem
    exact hnot.2 (Option.some.inj (htarget.symm.trans (hfills e he).2))
  · rintro ⟨⟨hj, target, htarget, hnot⟩, hnew⟩
    refine ⟨hj, target, htarget, fun hmem => ?_⟩
    rcases List.mem_append.1 hmem with hmem | hmem
    · exact hnot hmem
    · obtain rfl := List.mem_singleton.1 hmem
      obtain ⟨I, hI, -⟩ := h.fill j target htarget
      exact hnew (List.mem_map.2 ⟨(I, j), mem_fillsAt.2 ⟨hI, htarget⟩, rfl⟩)

/-- Behind the fills that have moved to a position both files run its instruction, if it stays. -/
lemma Deferred.stays (h : SinkChecked M.toRegistry p targets) (hW : M.FillsOutputs) {vs : List ℕ}
    (hpath : p.ControlPath vs k) {I : Instr} (hI : p.code[k]? = some I)
    (hstay : targets.getD k none = none) (hdef : Deferred p (PendingAt targets vs k) s t) :
    Alike (fun s' t' => p.exec M I s = .ok s' → Deferred p (PendingAt targets vs k) s' t')
      (p.exec M I s) (p.exec M I t) := by
  refine hdef.both hW (h.audited I (List.mem_of_getElem? hI)) fun i hi r hr j hj => ?_
  obtain ⟨-, target, htarget, hnot⟩ := hj
  rw [List.mem_append, List.mem_singleton, not_or] at hnot
  refine (h.path htarget).untouched vs k I hpath hI (fun heq => ?_) hnot.1 (fun heq => hnot.2 heq.symm) i
    hi r hr
  rw [← heq, hstay] at htarget
  cases htarget

/-- A staying instruction shows the same at its new position. -/
lemma shown_stays {ws : List (ℕ × File V S)} (hk : k ≤ p.code.length) {I : Instr}
    (hI : p.code[k]? = some I) (hstay : targets.getD k none = none)
    {D : ℕ → Prop} (hD : ∀ i ∈ p.eachRead M.toRegistry I, ∀ r ∈ i.regs, D r) (hst : AgreeOn D s t)
    (hws : Branching.shows (p.sunkShown M targets) ws =
      (p.fillsAt targets k).map (fun e => (e.2, none))) :
    Branching.shows (p.sunkShown M targets)
      (ws ++ [(p.sunkPos targets k + (p.fillsAt targets k).length, t)]) = p.sinkShown M targets (k, s) := by
  have hget : (p.sinkBlock targets k)[(p.fillsAt targets k).length]? = some (I, k) := by
    rw [sinkBlock_of_stays hI hstay]
    simp
  have hfills : ∀ e ∈ p.fillsAt targets k, (targets.getD e.2 none).isNone = false := fun e he => by
    rw [(mem_fillsAt.1 he).2]
    rfl
  have hseen : p.seenAt M (k, s) = (p.sunk targets).seenAt M
      (p.sunkPos targets k + (p.fillsAt targets k).length, t) :=
    seenAt_congr hD hst hI (getElem?_sunk hk hget)
  rw [Branching.shows_append, hws, Branching.shows_singleton, sunkShown, getElem?_entries hk hget,
    sinkShown, sinkBlock_of_stays hI hstay, List.map_append, Option.elim_some, hstay, hseen]
  congr 1
  · exact List.map_congr_left fun e he => by rw [hfills e he]; rfl
  · rw [List.map_singleton]
    dsimp only
    rw [hstay]

/-- The program with the fills at their new positions answers the program. -/
theorem sunk_answers (h : SinkChecked M.toRegistry p targets) (hW : M.FillsOutputs) :
    Branching.Answers (p.machine M) ((p.sunk targets).machine M) p.code (p.sunk targets).code
      (p.sunkPos targets) (p.sinkShown M targets) (p.sunkShown M targets)
      ((p.fillsAt targets p.code.length).map fun e => (e.2, none)) (SunkRelated p targets)
      (AgreeOn fun r => r ∈ p.outRegs) := by
  have hreads : ∀ {vs k I}, p.ControlPath vs k → p.code[k]? = some I → targets.getD k none = none →
      ∀ i ∈ p.eachRead M.toRegistry I, ∀ r ∈ i.regs, ∀ j, PendingAt targets vs k j →
        r ∉ (p.fillRange j).regs := by
    intro vs k I hpath hI hstay i hi r hr j hj
    obtain ⟨-, target, htarget, hnot⟩ := hj
    rw [List.mem_append, List.mem_singleton, not_or] at hnot
    refine (h.path htarget).untouched vs k I hpath hI (fun heq => ?_) hnot.1 (fun heq => hnot.2 heq.symm)
      i (List.mem_append_left _ hi) r hr
    rw [← heq, hstay] at htarget
    cases htarget
  refine ⟨fun k I s t s' hrel hI hex => ?_, fun k I s t e hrel hI hex => ?_, fun k s t hrel hend => ?_⟩
  · obtain ⟨vs, hpath, hdef⟩ := hrel
    have hk := (List.getElem?_eq_some_iff.1 hI).1.le
    obtain ⟨ws, t₁, hws, hshow, hdef₁⟩ := steps_arrive h hpath hk hdef
    change p.exec M I s = .ok s' at hex
    have hnext' : I.next M k s ∈ I.successors k := next_mem_successors hex
    have hpath' := hpath.step hI hnext'
    cases hmove : targets.getD k none with
    | none =>
      have halike := hdef₁.stays h hW hpath hI hmove
      rw [hex] at halike
      cases hex' : p.exec M I t₁ with
      | error e =>
        rw [hex'] at halike
        exact halike.elim
      | ok t₂ =>
        rw [hex'] at halike
        have hget : (p.sinkBlock targets k)[(p.fillsAt targets k).length]? = some (I, k) := by
          rw [sinkBlock_of_stays hI hmove]
          simp
        have hstep := Branching.Steps.single (B := (p.sunk targets).machine M) (getElem?_sunk hk hget)
          ((exec_retarget p _ _ I t₁).trans hex')
        have hnext : ((p.sunk targets).machine M).next (IslandProg.retarget (p.sunkPos targets) I)
            (p.sunkPos targets k + (p.fillsAt targets k).length) t₁ =
              p.sunkPos targets (I.next M k s) := by
          rw [next_agree k (hreads hpath hI hmove) hdef₁.agree]
          refine next_retarget ?_ t₁
          rw [sunkPos_succ hk, sinkBlock_of_stays hI hmove, List.length_append, List.length_singleton,
            Nat.add_assoc]
        dsimp only at hstep
        rw [hnext] at hstep
        refine ⟨_, t₂, hws.trans hstep, shown_stays hk hI hmove (hreads hpath hI hmove) hdef₁.agree hshow,
          _, hpath', (halike rfl).congr fun j => ?_⟩
        rw [pending_append h hpath, hmove]
        simp
    | some target =>
      obtain ⟨J, hJ, hc⟩ := h.fill k target hmove
      obtain rfl := Option.some.inj (hI.symm.trans hJ)
      have hnext : (p.machine M).next I k s = k + 1 :=
        next_of_not_jump (by simp [Instr.isJump, hc]) k s
      have hblock := sinkBlock_of_moves hI hmove
      rw [hnext, sunkPos_succ hk, hblock]
      rw [show I.next M k s = k + 1 from hnext] at hpath'
      refine ⟨ws, t₁, hws, ?_, _, hpath', (hdef₁.defer hI hc (fun j hj r hr => ?_) hex).congr
        fun j => ?_⟩
      · rw [hshow, sinkShown, hblock]
        exact (List.map_congr_left fun e he => by rw [(mem_fillsAt.1 he).2]; rfl).symm
      · obtain ⟨hjvs, target', htarget', -⟩ := hj
        refine fill_apart h hI hc htarget' (fun heq => ?_) hr
        subst heq
        exact absurd (hpath.lt_of_mem_acyclic (h.acyclic k target' htarget').1 hjvs) (lt_irrefl k)
      · rw [pending_append h hpath, hmove]
        simp
  · obtain ⟨vs, hpath, hdef⟩ := hrel
    have hk := (List.getElem?_eq_some_iff.1 hI).1.le
    obtain ⟨ws, t₁, hws, hshow, hdef₁⟩ := steps_arrive h hpath hk hdef
    change p.exec M I s = .error e at hex
    cases hmove : targets.getD k none with
    | none =>
      have halike := hdef₁.stays h hW hpath hI hmove
      rw [hex] at halike
      cases hex' : p.exec M I t₁ with
      | ok t₂ =>
        rw [hex'] at halike
        exact halike.elim
      | error e' =>
        rw [hex'] at halike
        obtain rfl : e = e' := halike
        have hget : (p.sinkBlock targets k)[(p.fillsAt targets k).length]? = some (I, k) := by
          rw [sinkBlock_of_stays hI hmove]
          simp
        exact ⟨ws, _, t₁, _, hws, getElem?_sunk hk hget, (exec_retarget p _ _ I t₁).trans hex',
          shown_stays hk hI hmove (hreads hpath hI hmove) hdef₁.agree hshow⟩
    | some target =>
      obtain ⟨J, hJ, hc⟩ := h.fill k target hmove
      obtain rfl := Option.some.inj (hI.symm.trans hJ)
      obtain ⟨s', hs', -⟩ := exec_fill (M := M) hI hc s
      rw [hex] at hs'
      cases hs'
  · obtain ⟨vs, hpath, hdef⟩ := hrel
    have hk : k = p.code.length :=
      le_antisymm (hpath.le_length h.jump) (List.getElem?_eq_none_iff.1 hend)
    subst hk
    obtain ⟨ws, t₁, hws, hshow, hdef₁⟩ := steps_arrive h hpath le_rfl hdef
    refine ⟨ws, _, t₁, hws, ?_, hshow, fun r hr => hdef₁.agree.1 r fun j hj => ?_, hdef₁.agree.2⟩
    · rw [List.getElem?_eq_none_iff, length_sunk, sinkBlock_end hend]
    · obtain ⟨-, target, htarget, hnot⟩ := hj
      rw [List.mem_append, List.mem_singleton, not_or] at hnot
      exact (h.path htarget).unreturned vs hpath hnot.1 (fun heq => hnot.2 heq.symm) r hr

/-! ## The whole program -/

/-- What the instructions that stay show, in the old code. -/
def stayingSeen (M : StanMath V E S) (p : Program V) (targets : List (Option ℕ))
    (vs : List (ℕ × File V S)) : List (Code × List (List V) × Option Bool) :=
  vs.filterMap fun v => if (targets.getD v.1 none).isNone then p.seenAt M v else none

/-- What they show in the new code. -/
def sunkSeen (M : StanMath V E S) (p : Program V) (targets : List (Option ℕ))
    (ws : List (ℕ × File V S)) : List (Code × List (List V) × Option Bool) :=
  ws.filterMap fun v => ((p.sinkBlocks targets).flatten[v.1]?).bind fun e =>
    if (targets.getD e.2 none).isNone then (p.sunk targets).seenAt M v else none

/-- The old positions of the visited instructions of the new code. -/
def origins (p : Program V) (targets : List (Option ℕ)) (ws : List (ℕ × File V S)) : List ℕ :=
  ws.filterMap fun v => ((p.sinkBlocks targets).flatten[v.1]?).map Prod.snd

/-- What the visits of the new code show, by part. -/
lemma shows_sunk (ws : List (ℕ × File V S)) :
    (Branching.shows (p.sunkShown M targets) ws).map Prod.fst = origins p targets ws ∧
      (Branching.shows (p.sunkShown M targets) ws).filterMap Prod.snd = sunkSeen M p targets ws := by
  rw [Branching.shows, List.map_flatMap, List.filterMap_flatMap, origins, sunkSeen,
    List.filterMap_eq_flatMap_toList, List.filterMap_eq_flatMap_toList]
  constructor <;> refine List.flatMap_congr fun v _ => ?_ <;> unfold sunkShown
  · cases (p.sinkBlocks targets).flatten[v.1]? <;> rfl
  · cases (p.sinkBlocks targets).flatten[v.1]? with
    | none => rfl
    | some e =>
      simp only [Option.elim_some, Option.bind_some, List.filterMap_cons, List.filterMap_nil]
      cases (if (targets.getD e.2 none).isNone then (p.sunk targets).seenAt M v else none) <;> rfl

/-- What one visit of the old code shows of the instruction itself. -/
lemma filterMap_sinkShown (v : ℕ × File V S) : (p.sinkShown M targets v).filterMap Prod.snd =
    (if (targets.getD v.1 none).isNone then p.seenAt M v else none).toList := by
  have hfills : ((p.fillsAt targets v.1).map fun e =>
      (e.2, if (targets.getD e.2 none).isNone then p.seenAt M v else none)).filterMap Prod.snd = [] := by
    refine List.filterMap_eq_nil_iff.2 fun o ho => ?_
    obtain ⟨e, he, rfl⟩ := List.mem_map.1 ho
    dsimp only
    rw [(mem_fillsAt.1 he).2]
    rfl
  unfold sinkShown
  cases hI : p.code[v.1]? with
  | none =>
    rw [sinkBlock_end hI, hfills, seenAt, hI]
    split <;> rfl
  | some I =>
    cases hmove : targets.getD v.1 none with
    | some target =>
      rw [sinkBlock_of_moves hI hmove, hfills]
      rfl
    | none =>
      rw [sinkBlock_of_stays hI hmove, List.map_append, List.filterMap_append, hfills, List.nil_append,
        List.map_singleton]
      dsimp only
      rw [hmove, seenAt, hI]
      rfl

/-- What the visits of the old code show, by part. -/
lemma shows_sink (vs : List (ℕ × File V S)) :
    (Branching.shows (p.sinkShown M targets) vs).map Prod.fst =
        (vs.map Prod.fst).flatMap (fun k => (p.sinkBlock targets k).map Prod.snd) ∧
      (Branching.shows (p.sinkShown M targets) vs).filterMap Prod.snd = stayingSeen M p targets vs := by
  rw [Branching.shows, List.map_flatMap, List.filterMap_flatMap, stayingSeen,
    List.filterMap_eq_flatMap_toList, List.flatMap_map]
  constructor
  · refine List.flatMap_congr fun v _ => ?_
    rw [sinkShown, List.map_map]
    rfl
  · exact List.flatMap_congr fun v _ => filterMap_sinkShown v

/-- The branches are taken by instructions that stay. -/
lemma branches_eq_stayingSeen (h : SinkChecked M.toRegistry p targets) (vs : List (ℕ × File V S)) :
    p.branches M vs = (stayingSeen M p targets vs).filterMap fun o => o.2.2 := by
  rw [stayingSeen, List.filterMap_filterMap]
  refine List.filterMap_congr fun v _ => ?_
  cases hmove : targets.getD v.1 none with
  | none =>
    unfold seenAt branchAt
    cases p.code[v.1]? <;> rfl
  | some target =>
    obtain ⟨I, hI, hc⟩ := h.fill v.1 target hmove
    simp [hI, hc]

lemma branches_eq_sunkSeen (h : SinkChecked M.toRegistry p targets) (ws : List (ℕ × File V S)) :
    (p.sunk targets).branches M ws = (sunkSeen M p targets ws).filterMap fun o => o.2.2 := by
  rw [sunkSeen, List.filterMap_filterMap]
  refine List.filterMap_congr fun v _ => ?_
  have hcode : (p.sunk targets).code[v.1]? = ((p.sinkBlocks targets).flatten[v.1]?).map fun e =>
      IslandProg.retarget (p.sunkPos targets) e.1 := by
    change ((p.sinkBlocks targets).flatten.map _)[_]? = _
    exact List.getElem?_map ..
  cases he : (p.sinkBlocks targets).flatten[v.1]? with
  | none =>
    rw [hcode, he]
    rfl
  | some e =>
    cases hmove : targets.getD e.2 none with
    | none =>
      simp only [Option.bind_some, hmove, Option.isNone_none, if_true, seenAt, branchAt]
      cases (p.sunk targets).code[v.1]? <;> rfl
    | some target =>
      obtain ⟨I, hI, hc⟩ := h.fill e.2 target hmove
      obtain rfl := Option.some.inj ((code_of_mem_entries (List.mem_of_getElem? he)).symm.trans hI)
      rw [hcode, he]
      simp only [Option.map_some, Option.bind_some, (code_retarget (p.sunkPos targets) e.1).1, hc, hmove]
      rfl

/-- What the visits `vs` of the program and `ws` of the program with sunk fills have in common: the
branches, and what every instruction that stays reads; and a moved fill runs at most as often. -/
structure SunkSame (M : StanMath V E S) (p : Program V) (targets : List (Option ℕ))
    (vs ws : List (ℕ × File V S)) : Prop where
  branches : (p.sunk targets).branches M ws = p.branches M vs
  seen : sunkSeen M p targets ws = stayingSeen M p targets vs
  atMost : ∀ pc target, targets.getD pc none = some target →
    (origins p targets ws).count pc ≤ (vs.map Prod.fst).count pc

/-- Moving the fills to `targets` preserves every execution, of any length. -/
structure PreservesSunk (M : StanMath V E S) (p : Program V) (targets : List (Option ℕ)) : Prop where
  /-- On no path the registers of a moved fill are touched between its two positions. -/
  moves : ∀ pc target, targets.getD pc none = some target → MovesSafely M.toRegistry p pc target
  /-- The new position of an instruction that stays leads to it, over moved fills only. -/
  leads : ∀ k I, p.code[k]? = some I → targets.getD k none = none →
    (∀ i e, (p.fillsAt targets k)[i]? = some e →
      (p.sunk targets).code[p.sunkPos targets k + i]? = some e.1) ∧
    (p.sunk targets).code[p.sunkPos targets k + (p.fillsAt targets k).length]? =
      some (IslandProg.retarget (p.sunkPos targets) I)
  executions : ∀ s vs k t, (p.machine M).Steps p.code 0 s vs k t →
    ∃ ws t', ((p.sunk targets).machine M).Steps (p.sunk targets).code 0 s ws (p.sunkPos targets k) t' ∧
      SunkSame M p targets vs ws
  /-- In front of an instruction that touches its registers a moved fill has run if it had before. -/
  before : ∀ s vs k t I, (p.machine M).Steps p.code 0 s vs k t → p.code[k]? = some I →
    targets.getD k none = none →
    ∃ ws t', ((p.sunk targets).machine M).Steps (p.sunk targets).code 0 s ws
        (p.sunkPos targets k + (p.fillsAt targets k).length) t' ∧
      ∀ pc target, targets.getD pc none = some target → pc ∈ vs.map Prod.fst →
        ∀ i ∈ p.eachRead M.toRegistry I ++ p.eachWrite I, ∀ r ∈ i.regs, r ∈ (p.fillRange pc).regs →
          pc ∈ origins p targets ws
  runs : ∀ s vs r, p.Runs M s vs r → ∃ ws r', (p.sunk targets).Runs M s ws r' ∧
    SunkSame M p targets vs ws ∧ Alike (AgreeOn fun r => r ∈ p.outRegs) r r'

lemma sunkSame_of_shown (h : SinkChecked M.toRegistry p targets) {vs ws : List (ℕ × File V S)}
    {tail : List (SinkShown V)} (htail : tail.filterMap Prod.snd = [])
    (hshow : Branching.shows (p.sunkShown M targets) ws =
      Branching.shows (p.sinkShown M targets) vs ++ tail)
    (hcount : ∀ pc target, targets.getD pc none = some target →
      ((vs.map Prod.fst).flatMap (fun k => (p.sinkBlock targets k).map Prod.snd) ++
        tail.map Prod.fst).count pc ≤ (vs.map Prod.fst).count pc) : SunkSame M p targets vs ws := by
  have hseen : sunkSeen M p targets ws = stayingSeen M p targets vs := by
    rw [← (shows_sunk ws).2, ← (shows_sink vs).2, hshow, List.filterMap_append, htail, List.append_nil]
  refine ⟨?_, hseen, fun pc target hmove => ?_⟩
  · rw [branches_eq_sunkSeen h, branches_eq_stayingSeen h, hseen]
  · rw [← (shows_sunk (M := M) ws).1, hshow, List.map_append, (shows_sink vs).1]
    exact hcount pc target hmove

/-- From the start both programs find the same file. -/
lemma sunkRelated_start (s : File V S) : SunkRelated p targets 0 s s :=
  ⟨[], .start, ⟨fun _ _ => rfl, rfl⟩, fun _ hj => absurd hj.1 List.not_mem_nil⟩

theorem sunk_preserves (h : SinkChecked M.toRegistry p targets) (hW : M.FillsOutputs) :
    PreservesSunk M p targets := by
  have hanswers := sunk_answers h hW
  have hzero : p.sunkPos targets 0 = 0 := by simp [sunkPos, Branching.blockPos]
  refine ⟨fun pc target hmove => h.path hmove, fun k I hI hstay => ?_, fun s vs k t hsteps => ?_,
    fun s vs k t I hsteps hI hstay => ?_, fun s vs r hrun => ?_⟩
  · have hk := (List.getElem?_eq_some_iff.1 hI).1.le
    have hblock := sinkBlock_of_stays hI hstay
    have hown : (p.sinkBlock targets k)[(p.fillsAt targets k).length]? = some (I, k) := by
      rw [hblock]
      simp
    refine ⟨fun i e he => ?_, getElem?_sunk hk hown⟩
    have hget : (p.sinkBlock targets k)[i]? = some e := by
      rw [hblock]
      exact (List.getElem?_append_left (List.getElem?_eq_some_iff.1 he).1).trans he
    rw [getElem?_sunk hk hget]
    obtain ⟨hJ, hmove⟩ := mem_fillsAt.1 (List.mem_of_getElem? he)
    obtain ⟨J, hJ', hc⟩ := h.fill e.2 k hmove
    obtain rfl := Option.some.inj (hJ.symm.trans hJ')
    rw [IslandProg.retarget, if_neg (by simp [Instr.isJump, hc])]
  · obtain ⟨ws, t', hws, hshow, -⟩ := hanswers.execution (sunkRelated_start s) hsteps
    rw [hzero] at hws
    have hshow' : Branching.shows (p.sunkShown M targets) ws =
        Branching.shows (p.sinkShown M targets) vs ++ [] := by rw [hshow, List.append_nil]
    refine ⟨ws, t', hws, sunkSame_of_shown h rfl hshow' fun pc target hmove => ?_⟩
    rw [List.map_nil, List.append_nil]
    refine count_origins h (controlPath_of_steps hsteps) hmove ?_
    rw [List.count_append]
    omega
  · obtain ⟨ws, t', hws, hshow, us, hus, hdef⟩ := hanswers.execution (sunkRelated_start s) hsteps
    rw [hzero] at hws
    have hpath := controlPath_of_steps hsteps
    have hk := (List.getElem?_eq_some_iff.1 hI).1.le
    obtain ⟨ws', t'', hws', hshow', -⟩ := steps_arrive h hus hk hdef
    refine ⟨ws ++ ws', t'', hws.trans hws', fun pc target hmove hpc i hi r hr hreg => ?_⟩
    have horigin : origins p targets (ws ++ ws') =
        ((vs.map Prod.fst).flatMap fun k => (p.sinkBlock targets k).map Prod.snd) ++
          (p.fillsAt targets k).map Prod.snd := by
      rw [← (shows_sunk (M := M) _).1, Branching.shows_append, hshow, hshow', List.map_append,
        (shows_sink vs).1, List.map_map]
      rfl
    obtain ⟨J, hJ, -⟩ := h.fill pc target hmove
    have hfill : (J, pc) ∈ p.fillsAt targets target := mem_fillsAt.2 ⟨hJ, hmove⟩
    have hreached : target ∈ vs.map Prod.fst ∨ k = target := by
      by_contra hno
      rw [not_or] at hno
      refine (h.path hmove).untouched _ k I hpath hI (fun heq => ?_) hno.1 hno.2 i hi r hr hreg
      rw [← heq, hstay] at hmove
      cases hmove
    rw [horigin]
    rcases hreached with hmem | rfl
    · refine List.mem_append_left _ (List.mem_flatMap.2 ⟨target, hmem, List.mem_map.2 ⟨(J, pc), ?_, rfl⟩⟩)
      exact List.mem_append_left _ hfill
    · exact List.mem_append_right _ (List.mem_map.2 ⟨(J, pc), hfill, rfl⟩)
  · have hends := Branching.exists_run_iff_ends.1 hrun
    have hanswer := hanswers.ends_run (sunkRelated_start s) hends
    rw [hzero] at hanswer
    rcases hends with ⟨k, t, hsteps, hend, rfl⟩ | ⟨us, k, t, I, e, hsteps, rfl, hI, he, rfl⟩
    · rcases hanswer with ⟨s', ws, t', hs', hws, hshow, hout⟩ | ⟨e, -, he, -⟩
      · obtain rfl := Except.ok.inj hs'
        have hpath := controlPath_of_steps hsteps
        have hk : k = p.code.length :=
          le_antisymm (hpath.le_length h.jump) (List.getElem?_eq_none_iff.1 hend)
        refine ⟨ws, .ok t', Branching.exists_run_iff_ends.2 hws, sunkSame_of_shown h ?_ hshow
          fun pc target hmove => ?_, hout⟩
        · rw [List.filterMap_map]
          exact List.filterMap_eq_nil_iff.2 fun _ _ => rfl
        · have hsplit : ((vs.map Prod.fst).flatMap fun k => (p.sinkBlock targets k).map Prod.snd) ++
              ((p.fillsAt targets p.code.length).map fun e => (e.2, (none : Option
                (Code × List (List V) × Option Bool)))).map Prod.fst =
              (vs.map Prod.fst ++ [k]).flatMap fun k => (p.sinkBlock targets k).map Prod.snd := by
            rw [List.flatMap_append, List.map_map, List.flatMap_singleton, sinkBlock_end hend, hk]
            rfl
          rw [hsplit]
          exact count_origins h hpath hmove le_rfl
      · cases he
    · rcases hanswer with ⟨s', -, -, hs', -⟩ | ⟨e', ws, he', hws, hshow⟩
      · cases hs'
      · obtain rfl := Except.error.inj he'
        have hpath := controlPath_of_steps hsteps
        have hshow' : Branching.shows (p.sunkShown M targets) ws =
            Branching.shows (p.sinkShown M targets) (us ++ [(k, t)]) ++ [] := by
          rw [hshow, List.append_nil]
        refine ⟨ws, .error e, Branching.exists_run_iff_ends.2 hws, sunkSame_of_shown h rfl hshow'
          fun pc target hmove => ?_, rfl⟩
        have hcount := count_origins h hpath hmove (le_refl ((us.map Prod.fst ++ [k]).count target))
        rw [List.map_nil, List.append_nil, List.map_append, List.map_singleton]
        refine hcount.trans ?_
        rw [List.count_append]
        omega

/-- `sink_program_fills` preserves every execution of every program it changes. -/
theorem sinkFills_preserves (hW : M.FillsOutputs) (disabled : Bool)
    (hchanged : (p.sinkFills M.toRegistry disabled).1 = true) :
    (p.sinkFills M.toRegistry disabled).2 = p.sunk (p.sinkTargets M.toRegistry) ∧
      PreservesSunk M p (p.sinkTargets M.toRegistry) := by
  unfold sinkFills at hchanged ⊢
  split at hchanged
  · cases hchanged
  · rename_i hrun
    rw [if_neg hrun]
    simp only [Bool.or_eq_true, Bool.not_eq_true', not_or, Bool.not_eq_true, Bool.not_eq_false] at hrun
    exact ⟨rfl, sunk_preserves (sinkChecked_of_eligible hrun.1.2) hW⟩

end Runs

/-- `y[1:2] = c; if (x) u = c; z = y[1] + y[2]`. -/
def earlyFill : Program ℚ where
  code := [{ code := .fill, dst := 1, len := 2 }, { code := .jz, a := 0, dst := 3 },
    { code := .const, dst := 3 }, { code := .add, dst := 4, a := 1, b := 2 }]
  pool := [5]
  nRegs := 5
  outRegs := [4]

/-- The fill of `earlyFill` moves behind the conditional, and execution is preserved. -/
theorem earlyFill_preserved :
    (earlyFill.sinkFills noKernels.toRegistry false).2.code.map Instr.code = [.jz, .const, .fill, .add] ∧
    (earlyFill.sinkFills noKernels.toRegistry false).2 =
      earlyFill.sunk (earlyFill.sinkTargets noKernels.toRegistry) ∧
    PreservesSunk noKernels earlyFill (earlyFill.sinkTargets noKernels.toRegistry) :=
  ⟨by decide +kernel, sinkFills_preserves noKernels_fillsOutputs false (by decide +kernel)⟩

end Program

end Stanli
