import Stanli.Program.CopyExec

/-!
# The spans of an instruction

The passes over register programs know an instruction by the spans of `eachRead` and `eachWrite`.
For the instructions they let through (`Instr.isAudited`) the spans tell the truth: what is outside
the written ones stays (`exec_frame_audited`), and what the instruction does depends on the read ones
only (`exec_agree_audited`).
-/

namespace Stanli

open Program

namespace Program

variable {V E S : Type*}

/-! ## Spans and registers -/

section Spans

variable {R : Registry} {p q : Program V} {I J : Instr}

/-- The spans an instruction writes are the registers it writes. -/
lemma exists_eachWrite (htr : I.code ≠ .transform) {r : ℕ} :
    (∃ s ∈ p.eachWrite I, r ∈ s.regs) ↔ r ∈ p.writes I := by
  by_cases hc : I.code = .call
  · simp only [eachWrite, hc, writes, if_true]
    cases p.calls[I.a]? with
    | none => simp
    | some call => simp
  · have hw : p.eachWrite I = if 0 < I.outputLen then [⟨I.dst, I.outputLen⟩] else [] := by
      unfold eachWrite
      split
      · exact absurd ‹_› hc
      · exact absurd ‹_› htr
      · rfl
    rw [hw, writes, if_neg hc]
    split
    · simp
    · rename_i h0
      simp only [List.not_mem_nil, false_and, exists_false, Span.mem_regs, false_iff]
      omega

/-- The empty ones do not count. -/
lemma mem_eachWrite (htr : I.code ≠ .transform) {r : ℕ} :
    r ∈ ((p.eachWrite I).filter fun s => decide (0 < s.len)).flatMap Span.regs ↔ r ∈ p.writes I := by
  rw [← exists_eachWrite htr]
  simp only [List.mem_flatMap, List.mem_filter, decide_eq_true_eq]
  constructor
  · rintro ⟨s, ⟨hs, -⟩, hr⟩
    exact ⟨s, hs, hr⟩
  · rintro ⟨s, hs, hr⟩
    refine ⟨s, ⟨hs, ?_⟩, hr⟩
    have := Span.mem_regs.1 hr
    omega

lemma noInputs_reads {code : Code} (h : code.has .noInputs = true) :
    code.has .readB = false ∧ code.has .readC = false := by
  cases code <;> first | exact absurd h (by decide) | decide

/-- What an instruction reads is among its spans. -/
lemma exists_eachRead (he : J.isEligible)
    (hpay : J.code = .call → ∃ call, q.calls[J.a]? = some call) {r : ℕ}
    (hr : r ∈ IslandProg.readRegs R ⟨q, [], {}⟩ J) : ∃ s ∈ q.eachRead R J, r ∈ s.regs := by
  unfold IslandProg.readRegs at hr
  by_cases hden : J.code = .density
  · rw [if_pos hden] at hr
    simp only [eachRead, hden, List.mem_map, exists_exists_and_eq_and]
    unfold Instr.densityArgs at hr
    unfold Instr.readOperands
    rw [if_neg (by simp [hden]), if_pos hden]
    dsimp only
    split at hr
    · rename_i hrun
      rw [if_pos hrun]
      exact ⟨_, List.mem_singleton_self _, hr⟩
    · rename_i hrun
      rw [if_neg hrun]
      obtain ⟨k, hk, rfl⟩ := List.mem_map.1 hr
      rw [List.mem_range] at hk
      have hk3 : k < 3 := by omega
      refine ⟨(k, 1), ?_, by simp⟩
      interval_cases k <;> simp [hk]
  · rw [if_neg hden] at hr
    obtain ⟨s, hs, hrs⟩ := List.mem_flatMap.1 hr
    refine ⟨s, ?_, hrs⟩
    unfold IslandProg.readSpans at hs
    by_cases hcall : J.code = .call
    · simp only [callOf, hcall, if_true] at hs
      obtain ⟨call, hget⟩ := hpay hcall
      rw [hget] at hs
      simp only [eachRead, hcall, hget]
      exact hs
    · rw [show callOf q J = none from if_neg hcall] at hs
      have hran : J.isRangedDensity R = false := by simp [Instr.isRangedDensity, hden]
      simp only [hran, Bool.false_eq_true, if_false] at hs
      by_cases hdyn : J.code = .dynIndex
      · rw [if_pos hdyn] at hs
        simpa only [eachRead, hdyn] using hs
      · rw [if_neg hdyn] at hs
        have hread : q.eachRead R J = (J.readOperands R).map fun o => ⟨J.operand o.1, o.2⟩ := by
          cases hc : J.code <;> simp only [eachRead, hc] <;> first
            | exact absurd hc hdyn
            | exact absurd hc hcall
            | exact absurd hc he.code_ne_transform
            | exact absurd hc he.code_ne.2
            | (rcases he with he | he <;>
                simp [Instr.isJump, Instr.rule, hc, Code.has, Code.flags] at he)
        obtain ⟨k, hk, hsk⟩ := List.mem_flatMap.1 hs
        rw [List.mem_range] at hk
        split at hsk
        · rename_i hreads
          obtain rfl := List.mem_singleton.1 hsk
          have hno : J.rule.has .noInputs = false := by
            by_contra hno
            rw [Bool.not_eq_false] at hno
            obtain ⟨hb, hc⟩ := noInputs_reads hno
            interval_cases k <;> simp [Instr.reads, hno, hb, hc] at hreads
          rw [hread, readOperands_of_plain hdyn hden hno]
          refine List.mem_map.2 ⟨(k, J.inputLen k), ?_, rfl⟩
          interval_cases k
          · simp
          · simp [show J.rule.has .readB = true from hreads]
          · simp [show J.rule.has .readC = true from hreads]
        · simp at hsk

end Spans

/-! ## Stores -/

section Stores

variable [Field V] {M : StanMath V E S} {q : Program V} {J : Instr}

omit [Field V] in
lemma writeLoop_total (f : ℕ → (ℕ → V) → V) (dst n : ℕ) (x : ℕ → V) :
    ∃ y, writeLoop (fun k reg => Except.ok (ε := E) (f k reg)) dst n x = .ok y := by
  induction n with
  | zero => exact ⟨x, rfl⟩
  | succ n ih =>
    obtain ⟨y, hy⟩ := ih
    exact ⟨_, by rw [writeLoop_succ, hy]; rfl⟩

/-- A store that can be dropped succeeds, and has no effect but on registers. -/
lemma exec_droppable (h : J.droppable = true) (s : File V S) :
    ∃ s', q.exec M J s = .ok s' ∧ s'.eff = s.eff := by
  simp only [Instr.droppable, decide_eq_true_eq] at h
  rcases h with hc | hc | hc | hc | hc
  · refine ⟨s.set J.dst (s.reg J.a), ?_, rfl⟩
    simp only [exec, hc]
    rfl
  · obtain ⟨y, hy⟩ := writeLoop_total (E := E) (fun k reg => reg (J.a + k)) J.dst J.len s.reg
    refine ⟨⟨y, s.eff⟩, ?_, rfl⟩
    simp only [exec, hc, hy]
    rfl
  · refine ⟨s.set J.dst (q.pool.getD J.a 0), ?_, rfl⟩
    simp only [exec, hc]
    rfl
  · obtain ⟨y, hy⟩ := writeLoop_total (E := E) (fun k _ => q.pool.getD (J.a + k) 0) J.dst J.len s.reg
    refine ⟨⟨y, s.eff⟩, ?_, rfl⟩
    simp only [exec, hc, hy]
    rfl
  · refine ⟨⟨writeRun s.reg J.dst (List.replicate J.len (q.pool.getD J.a 0)), s.eff⟩, ?_, rfl⟩
    simp only [exec, hc]
    rfl

omit [Field V] in
lemma droppable_not_jump (h : J.droppable = true) : J.isJump = false ∧ J.code ≠ .jz := by
  simp only [Instr.droppable, decide_eq_true_eq] at h
  rcases h with hc | hc | hc | hc | hc <;> simp [Instr.isJump, hc]

end Stores

/-! ## The audited instructions -/

/-- The instructions whose spans the passes rely on: those with an adjoint, the branches and a few
more. -/
def Instr.isAudited (I : Instr) : Bool :=
  !I.code.has .noAdjoint || decide (I.code ∈ [Code.jz, .jmp, .dynSet, .dynLseRange, .print, .reject])

/-- An audited instruction is one the copy passes know, an elementwise rule there is none of, or one
of four more. -/
lemma isAudited_cases {I : Instr} (h : I.isAudited = true) :
    I.isEligible ∨ (I.code = .range ∧ I.sub.elementwise = false) ∨ I.code = .dynSet ∨
      I.code = .dynLseRange ∨ I.code = .print ∨ I.code = .reject := by
  by_cases hrange : I.code = .range
  · by_cases hrule : I.rule.has .noAdjoint = true
    · refine Or.inr (Or.inl ⟨hrange, ?_⟩)
      rw [Instr.rule, if_pos hrange] at hrule
      cases hsub : I.sub <;> rw [hsub] at hrule <;> first | rfl | exact absurd hrule (by decide)
    · exact Or.inl (Or.inr (by simpa using hrule))
  · have hrule : I.rule = I.code := if_neg hrange
    simp only [Instr.isAudited, Bool.or_eq_true, Bool.not_eq_true', decide_eq_true_eq, List.mem_cons,
      List.not_mem_nil, or_false] at h
    rcases h with h | h | h | h | h | h | h
    · exact Or.inl (Or.inr (by rw [hrule, h]))
    · exact Or.inl (Or.inl (by simp [Instr.isJump, h]))
    · exact Or.inl (Or.inl (by simp [Instr.isJump, h]))
    all_goals simp [h]

lemma code_ne_transform_of_isAudited {I : Instr} (h : I.isAudited = true) : I.code ≠ .transform := by
  intro hc
  simp [Instr.isAudited, hc, Code.has, Code.flags] at h

/-! ## What an audited instruction does -/

lemma writeLoopDown_succ (f : ℕ → (ℕ → V) → V) (dst : ℕ) (ks : List ℕ) (k : ℕ) (reg : ℕ → V) :
    (k :: ks).foldr (fun k reg => Function.update reg (dst + k) (f k reg)) reg =
      Function.update (ks.foldr (fun k reg => Function.update reg (dst + k) (f k reg)) reg) (dst + k)
        (f k (ks.foldr (fun k reg => Function.update reg (dst + k) (f k reg)) reg)) := rfl

/-- A descending loop writes its run of registers only. -/
lemma writeLoopDown_frame (f : ℕ → (ℕ → V) → V) {dst n r : ℕ} (hr : r < dst ∨ dst + n ≤ r)
    (reg : ℕ → V) : writeLoopDown f dst n reg r = reg r := by
  have hgen : ∀ ks : List ℕ, (∀ k ∈ ks, k < n) →
      ks.foldr (fun k reg => Function.update reg (dst + k) (f k reg)) reg r = reg r := by
    intro ks hks
    induction ks with
    | nil => rfl
    | cons k ks ih =>
      have hk := hks k (List.mem_cons_self ..)
      rw [writeLoopDown_succ, Function.update_of_ne (by omega)]
      exact ih fun j hj => hks j (List.mem_cons_of_mem _ hj)
  exact hgen _ fun k hk => List.mem_range.1 hk

/-- Descending loops whose elements are computed alike agree on what they write. -/
lemma writeLoopDown_agree {D : ℕ → Prop} {f g : ℕ → (ℕ → V) → V} {dst n : ℕ}
    (hfg : ∀ k < n, ∀ x y : ℕ → V, (∀ r, D r → x r = y r) → f k x = g k y) {x y : ℕ → V}
    (hxy : ∀ r, D r → x r = y r) {r : ℕ} (hr : D r ∨ (dst ≤ r ∧ r < dst + n)) :
    writeLoopDown f dst n x r = writeLoopDown g dst n y r := by
  have hgen : ∀ ks : List ℕ, (∀ k ∈ ks, k < n) → ∀ r, (D r ∨ ∃ k ∈ ks, r = dst + k) →
      ks.foldr (fun k reg => Function.update reg (dst + k) (f k reg)) x r =
        ks.foldr (fun k reg => Function.update reg (dst + k) (g k reg)) y r := by
    intro ks hks
    induction ks with
    | nil => exact fun r hr => hxy r (hr.resolve_right (by simp))
    | cons k ks ih =>
      have htail := ih fun j hj => hks j (List.mem_cons_of_mem _ hj)
      intro r hr
      rw [writeLoopDown_succ, writeLoopDown_succ]
      rcases eq_or_ne r (dst + k) with rfl | hne
      · rw [Function.update_self, Function.update_self]
        exact hfg k (hks k (List.mem_cons_self ..)) _ _ fun r hr => htail r (Or.inl hr)
      · rw [Function.update_of_ne hne, Function.update_of_ne hne]
        refine htail r (hr.imp_right ?_)
        rintro ⟨j, hj, rfl⟩
        rcases List.mem_cons.1 hj with rfl | hj
        · exact absurd rfl hne
        · exact ⟨j, hj, rfl⟩
  refine hgen _ (fun k hk => List.mem_range.1 hk) r (hr.imp_right fun ⟨hle, hlt⟩ => ?_)
  exact ⟨r - dst, List.mem_range.2 (by omega), by omega⟩

/-- An index is one of the elements. -/
lemma index_lt {M : StanMath V E S} {message : String} {raw : V} {len n : ℕ}
    (h : M.index message raw len = .ok n) : n < len := by
  unfold StanMath.index at h
  split at h
  · rename_i hidx
    simp only [Bool.and_eq_true, decide_eq_true_eq] at hidx
    injection h with h
    omega
  · cases h

/-- The operands of an instruction without a case of its own in `eachRead`. -/
lemma operand_mem_eachRead {R : Registry} {p : Program V} {I : Instr}
    (hc : I.code = .dynSet ∨ I.code = .dynLseRange)
    {o : ℕ × ℕ} (ho : o ∈ [(0, I.len), (1, 1), (2, 1)]) :
    Span.mk (I.operand o.1) o.2 ∈ p.eachRead R I := by
  have hrange : I.code ≠ .range := by rcases hc with hc | hc <;> simp [hc]
  have hread : p.eachRead R I = (I.readOperands R).map fun o => ⟨I.operand o.1, o.2⟩ := by
    rcases hc with hc | hc <;> simp only [eachRead, hc]
  rw [hread, readOperands_of_plain (by rcases hc with hc | hc <;> simp [hc])
    (by rcases hc with hc | hc <;> simp [hc])
    (by rw [Instr.rule, if_neg hrange]; rcases hc with hc | hc <;> rw [hc] <;> decide)]
  refine List.mem_map.2 ⟨o, ?_, rfl⟩
  rw [Instr.rule, if_neg hrange]
  rcases hc with hc | hc <;>
    simpa [hc, Instr.inputLen, Code.has, Code.flags] using ho

section Audited

variable [Field V] {M : StanMath V E S} {p : Program V} {I : Instr} {D : ℕ → Prop}
  {s s' t : File V S}

/-- An audited instruction changes only what it writes. -/
theorem exec_frame_audited (h : I.isAudited = true) (hex : p.exec M I s = .ok s') {r : ℕ}
    (hr : r ∉ p.writes I) : s'.reg r = s.reg r := by
  rcases isAudited_cases h with he | ⟨hc, hsub⟩ | hc | hc | hc | hc
  · exact IslandProg.exec_frame (p := ⟨p, [], {}⟩) he.plain hex hr
  · simp only [exec, hc, hsub] at hex
    cases hex
  · have hlen : I.outputLen = I.len := by simp [Instr.outputLen, hc, Code.has, Code.flags]
    rw [mem_writes (by simp [hc]), hlen] at hr
    simp only [exec, hc] at hex
    obtain ⟨n, hn, rfl⟩ := map_eq_ok hex
    have hlt := index_lt hn
    unfold File.set
    dsimp only
    rw [Function.update_of_ne (by omega)]
    split
    · exact writeLoopDown_frame _ (by omega) _
    · split
      · refine writeRun_of_notMem _ ?_
        simp only [Span.read, Span.regs, List.length_map, List.length_range]
        omega
      · rfl
  · have hlen : I.outputLen = 1 := by simp [Instr.outputLen, hc, Code.has, Code.flags]
    rw [mem_writes (by simp [hc]), hlen] at hr
    have hput : ∀ v : Except E V, v.map (s.set I.dst) = .ok s' → s'.reg r = s.reg r := by
      intro v hv
      obtain ⟨x, -, rfl⟩ := map_eq_ok hv
      exact Function.update_of_ne (by omega) ..
    simp only [exec, hc] at hex
    split at hex
    · cases hex
    · split at hex
      · exact hput _ hex
      · split at hex
        · cases hex
        · exact hput _ hex
  · simp only [exec, hc] at hex
    cases hm : p.messages[I.a]? with
    | none => simp [hm] at hex
    | some message =>
      simp only [hm] at hex
      cases hex
      rfl
  · simp only [exec, hc] at hex
    cases hm : p.messages[I.a]? <;> simp [hm] at hex

/-- An audited instruction depends on the registers it reads. -/
theorem exec_agree_audited (h : I.isAudited = true) (hW : M.FillsOutputs)
    (hD : ∀ i ∈ p.eachRead M.toRegistry I, ∀ r ∈ i.regs, D r) (hst : AgreeOn D s t) :
    Alike (AgreeOn fun r => D r ∨ r ∈ p.defines I) (p.exec M I s) (p.exec M I t) := by
  have hdef : I.code ≠ .call → ∀ {n}, I.outputLen = n →
      ∀ r, D r ∨ r ∈ p.defines I → D r ∨ (I.dst ≤ r ∧ r < I.dst + n) := by
    intro hcall n hlen r
    refine Or.imp_right fun hr => ?_
    rwa [defines, if_neg hcall, Span.mem_regs, hlen] at hr
  rcases isAudited_cases h with he | ⟨hc, hsub⟩ | hc | hc | hc | hc
  · by_cases hpay : I.code = .call ∧ p.calls[I.a]? = none
    · simp only [exec, hpay.1, hpay.2]
      rfl
    · have hpay' : I.code = .call → ∃ call, p.calls[I.a]? = some call := fun hcall =>
        Option.ne_none_iff_exists'.1 fun hnone => hpay ⟨hcall, hnone⟩
      refine IslandProg.exec_agree (p := ⟨p, [], {}⟩) he.plain rfl (fun _ => Or.inl hW) he.code_ne.2
        (fun r hr => ?_) hst
      obtain ⟨i, hi, hr⟩ := exists_eachRead he hpay' hr
      exact hD i hi r hr
  · simp only [exec, hc, hsub]
    rfl
  · have ha : ∀ {k}, k < I.len → D (I.a + k) := fun hk =>
      hD _ (operand_mem_eachRead (Or.inl hc) (o := (0, I.len)) (by simp)) _
        (Span.mem_regs.2 ⟨Nat.le_add_right .., by simpa [Instr.operand] using hk⟩)
    have hb : D I.b := hD _ (operand_mem_eachRead (Or.inl hc) (o := (1, 1)) (by simp)) _
      (Span.mem_regs.2 (by simp [Instr.operand]))
    have hcc : D I.c.toNat := hD _ (operand_mem_eachRead (Or.inl hc) (o := (2, 1)) (by simp)) _
      (Span.mem_regs.2 (by simp [Instr.operand]))
    simp only [exec, hc]
    rw [hst.1 _ hcc]
    cases hidx : M.index "register-program assignment index out of range" (t.reg I.c.toNat) I.len with
    | error e => rfl
    | ok n =>
      refine ⟨fun r hr => ?_, hst.2⟩
      have hr := hdef (by simp [hc]) (n := I.len)
        (by simp [Instr.outputLen, hc, Code.has, Code.flags]) r hr
      unfold File.set
      dsimp only
      rw [hst.1 _ hb]
      rcases eq_or_ne r (I.dst + n) with rfl | hne
      · rw [Function.update_self, Function.update_self]
      · rw [Function.update_of_ne hne, Function.update_of_ne hne]
        split
        · refine writeLoopDown_agree (fun k hk x y hxy => ?_) hst.1 hr
          exact hxy _ (ha hk)
        · split
          · have hread : (Span.mk I.a I.len).read s.reg = (Span.mk I.a I.len).read t.reg :=
              hst.read fun w hw => by
                obtain ⟨hle, hlt⟩ := Span.mem_regs.1 hw
                obtain ⟨k, rfl⟩ := Nat.exists_eq_add_of_le hle
                exact ha (by simpa using hlt)
            rw [hread]
            have hagree : ∀ w, D w ∨ (I.dst ≤ w ∧ w < I.dst + I.len) →
                writeRun s.reg I.dst ((Span.mk I.a I.len).read t.reg) w =
                  writeRun t.reg I.dst ((Span.mk I.a I.len).read t.reg) w :=
              agreeOn_writeRun hst.1 fun w hw => by simpa [Span.read, Span.regs] using hw
            exact hagree r hr
          · rename_i hne'
            rcases hr with hr | ⟨hle, hlt⟩
            · exact hst.1 r hr
            · obtain ⟨k, rfl⟩ := Nat.exists_eq_add_of_le hle
              have hda : I.dst = I.a := not_not.1 hne'
              rw [hda]
              exact hst.1 _ (ha (by omega))
  · have ha : ∀ {k}, k < I.len → D (I.a + k) := fun hk =>
      hD _ (operand_mem_eachRead (Or.inr hc) (o := (0, I.len)) (by simp)) _
        (Span.mem_regs.2 ⟨Nat.le_add_right .., by simpa [Instr.operand] using hk⟩)
    have hb : D I.b := hD _ (operand_mem_eachRead (Or.inr hc) (o := (1, 1)) (by simp)) _
      (Span.mem_regs.2 (by simp [Instr.operand]))
    have hcc : D I.c.toNat := hD _ (operand_mem_eachRead (Or.inr hc) (o := (2, 1)) (by simp)) _
      (Span.mem_regs.2 (by simp [Instr.operand]))
    have hput : ∀ {v w : Except E V}, v = w → Alike (AgreeOn fun r => D r ∨ r ∈ p.defines I)
        (v.map (s.set I.dst)) (w.map (t.set I.dst)) := fun hvw =>
      hst.put (fun r hr => (hdef (by simp [hc]) (n := 1)
        (by simp [Instr.outputLen, hc, Code.has, Code.flags]) r hr).imp_right (by omega)) hvw
    simp only [exec, hc]
    rw [hst.1 _ hb, hst.1 _ hcc]
    split
    · rfl
    · split
      · exact hput rfl
      · split
        · rfl
        · rename_i hbounds
          refine hput (congrArg _ (hst.read fun w hw => ?_))
          obtain ⟨hle, hlt⟩ := Span.mem_regs.1 hw
          dsimp only at hle hlt
          obtain ⟨k, rfl⟩ := Nat.exists_eq_add_of_le hle
          rw [Nat.add_assoc]
          exact ha (by omega)
  · have hno : ∀ r, D r ∨ r ∈ p.defines I → D r := by
      intro r hr
      refine (hdef (by simp [hc]) (n := 0)
        (by simp [Instr.outputLen, hc, Code.has, Code.flags]) r hr).resolve_right (by omega)
    simp only [exec, hc]
    cases hm : p.messages[I.a]? with
    | none => rfl
    | some message =>
      have hvals : message.values.map (fun i => i.read s.reg) =
          message.values.map fun i => i.read t.reg :=
        List.map_congr_left fun i hi => hst.read fun r hr => hD i (by simpa [eachRead, hc, hm]) r hr
      dsimp only
      rw [hvals, hst.2]
      exact ⟨fun r hr => hst.1 r (hno r hr), rfl⟩
  · simp only [exec, hc]
    cases hm : p.messages[I.a]? with
    | none => rfl
    | some message =>
      have hvals : message.values.map (fun i => i.read s.reg) =
          message.values.map fun i => i.read t.reg :=
        List.map_congr_left fun i hi => hst.read fun r hr => hD i (by simpa [eachRead, hc, hm]) r hr
      dsimp only
      rw [hvals]
      rfl

/-- Where control goes from an instruction depends on the registers it reads. -/
lemma next_agree (pc : ℕ) (hD : ∀ i ∈ p.eachRead M.toRegistry I, ∀ r ∈ i.regs, D r)
    (hst : AgreeOn D s t) : I.next M pc s = I.next M pc t := by
  by_cases hc : I.code = .jz
  · have ha : D I.a := by
      refine hD ⟨I.a, 1⟩ ?_ I.a (by simp)
      simp [eachRead, Instr.readOperands, Instr.rule, Instr.inputLen, Instr.operand, hc, Code.has,
        Code.flags]
    simp only [Instr.next, hc, hst.1 _ ha]
  · unfold Instr.next
    split <;> first | rfl | exact absurd ‹_› hc

end Audited

end Program

end Stanli
