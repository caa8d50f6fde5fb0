import Stanli.Program.CopyFacts

/-!
# The rewritten program does the same

The forward scan replaces operands by their originals.  Where its facts hold, each rewritten
instruction does what the instruction did (`exec_forwarded`), and the facts hold again wherever
control goes from there (`entry_holds_next`).
-/

namespace Stanli

open Program

namespace Program

variable {V E S : Type*}

/-! ## One instruction -/

section Scan

variable {R : Registry} {p : Program V} {k : ℕ} {I : Instr}

/-- The facts at a position, with what branches have brought there. -/
def entry (R : Registry) (p : Program V) (pc : ℕ) : CopyScan :=
  (p.copyScanAt R pc).arrive p.nRegs (p.isTarget pc) pc

/-- The instruction at a position, rewritten. -/
def rewrittenAt (R : Registry) (p : Program V) (pc : ℕ) (I : Instr) : Instr :=
  (p.rewriteInstr R (entry R p pc) I).1

lemma copyScanAt_succ (hI : p.code[k]? = some I) :
    p.copyScanAt R (k + 1) = p.copyStep R k I (p.copyScanAt R k) := by
  have hget : p.code.zipIdx[k]? = some (I, k) := by simp [hI]
  rw [copyScanAt, List.take_add_one, hget, List.foldl_append]
  rfl

lemma rewriteOperand_shape (f : ℕ → Option ℕ) (ws : List Span) (I : Instr) (o : ℕ × ℕ) :
    (rewriteOperand f ws I o).code = I.code ∧ (rewriteOperand f ws I o).sub = I.sub ∧
    (rewriteOperand f ws I o).bcast = I.bcast ∧ (rewriteOperand f ws I o).law = I.law ∧
    (rewriteOperand f ws I o).dst = I.dst ∧ (rewriteOperand f ws I o).len = I.len := by
  unfold rewriteOperand
  split
  · unfold Instr.setOperand
    split <;> exact ⟨rfl, rfl, rfl, rfl, rfl, rfl⟩
  · exact ⟨rfl, rfl, rfl, rfl, rfl, rfl⟩

lemma operand_setOperand (I : Instr) {j k : ℕ} (hj : j < 3) (hk : k < 3) (r : ℕ) :
    (I.setOperand k r).operand j = if j = k then r else I.operand j := by
  interval_cases j <;> interval_cases k <;> simp [Instr.setOperand, Instr.operand]

lemma operand_rewriteOperand (f : ℕ → Option ℕ) (ws : List Span) (I : Instr) {o : ℕ × ℕ}
    (ho : o.1 < 3) {j : ℕ} (hj : j < 3) : (rewriteOperand f ws I o).operand j =
      if j = o.1 then (rewriteTo f ws (I.operand o.1) o.2).getD (I.operand o.1) else I.operand j := by
  unfold rewriteOperand
  cases rewriteTo f ws (I.operand o.1) o.2 with
  | none =>
    simp only [Option.getD_none]
    split
    · rename_i hjo
      rw [hjo]
    · rfl
  | some base =>
    simp only [Option.getD_some]
    exact operand_setOperand I hj ho base

lemma readOperands_lt {o : ℕ × ℕ} (h : o ∈ I.readOperands R) : o.1 < 3 := by
  unfold Instr.readOperands at h
  split at h
  · simp at h
    simp [h]
  · split at h
    · dsimp only at h
      split at h
      · simp at h
        simp [h]
      · split at h <;> split at h <;> simp at h <;> rcases h with h | h | h <;> simp_all
    · split at h
      · simp at h
      · split at h <;> split at h <;> simp at h <;> rcases h with h | h | h <;> simp_all

lemma readOperands_nodup (R : Registry) (I : Instr) : ((I.readOperands R).map Prod.fst).Nodup := by
  unfold Instr.readOperands
  split
  · simp
  · split
    · dsimp only
      split
      · simp
      · split <;> split <;> simp
    · split
      · simp
      · split <;> split <;> simp

/-- Rewriting the operands replaces each operand on its own. -/
lemma rewriteOperands_spec (f : ℕ → Option ℕ) (ws : List Span) (I : Instr) {ops : List (ℕ × ℕ)}
    (hlt : ∀ o ∈ ops, o.1 < 3) (hnd : (ops.map Prod.fst).Nodup) :
    let J := ops.foldl (rewriteOperand f ws) I
    (J.code = I.code ∧ J.sub = I.sub ∧ J.bcast = I.bcast ∧ J.law = I.law ∧ J.dst = I.dst ∧
      J.len = I.len) ∧
    (∀ o ∈ ops, J.operand o.1 = (rewriteTo f ws (I.operand o.1) o.2).getD (I.operand o.1)) ∧
    ∀ j < 3, (∀ o ∈ ops, o.1 ≠ j) → J.operand j = I.operand j := by
  induction ops generalizing I with
  | nil => exact ⟨⟨rfl, rfl, rfl, rfl, rfl, rfl⟩, by simp, fun _ _ _ => rfl⟩
  | cons o ops ih =>
    rw [List.map_cons, List.nodup_cons] at hnd
    obtain ⟨hshape, hops, hkeep⟩ := ih (rewriteOperand f ws I o)
      (fun a ha => hlt a (List.mem_cons_of_mem _ ha)) hnd.2
    have ho := hlt o (List.mem_cons_self ..)
    have hother : ∀ {j}, j < 3 → j ≠ o.1 → (rewriteOperand f ws I o).operand j = I.operand j :=
      fun hj hne => by rw [operand_rewriteOperand f ws I ho hj, if_neg hne]
    obtain ⟨h1, h2, h3, h4, h5, h6⟩ := rewriteOperand_shape f ws I o
    rw [List.foldl_cons]
    dsimp only at hshape hops hkeep ⊢
    refine ⟨?_, fun a ha => ?_, fun j hj hne => ?_⟩
    · rwa [h1, h2, h3, h4, h5, h6] at hshape
    · rcases List.mem_cons.1 ha with rfl | ha
      · have hne : ∀ b ∈ ops, b.1 ≠ a.1 := fun b hb heq =>
          hnd.1 (heq ▸ List.mem_map_of_mem hb)
        rw [hkeep a.1 ho hne, operand_rewriteOperand f ws I ho ho, if_pos rfl]
      · have hne : a.1 ≠ o.1 := fun heq => hnd.1 (heq ▸ List.mem_map_of_mem ha)
        rw [hops a ha, hother (hlt a (List.mem_cons_of_mem _ ha)) hne]
    · rw [hkeep j hj fun b hb => hne b (List.mem_cons_of_mem _ hb),
        hother hj fun heq => hne o (List.mem_cons_self ..) heq.symm]

/-- A rewritten operand holds the same values. -/
lemma rewriteTo_spec {f : ℕ → Option ℕ} {ws : List Span} {reg len base : ℕ}
    (h : rewriteTo f ws reg len = some base) : 0 < len ∧
    (∀ k < len, f (reg + k) = some (base + k)) ∧
    ∀ w ∈ ws, ¬(reg < w.reg + w.len ∧ w.reg < reg + len ∧ ¬(reg = w.reg ∧ len = w.len)) := by
  unfold rewriteTo at h
  cases hreg : f reg with
  | none => simp [hreg] at h
  | some b =>
    rw [hreg] at h
    dsimp only at h
    split at h
    · rename_i hc
      obtain rfl := Option.some.inj h
      exact ⟨hc.1, hc.2.2.1, hc.2.2.2⟩
    · simp at h

/-- The operand that is replaced is not read behind the instruction's own writes. -/
lemma not_readsOwnWrites {f : ℕ → Option ℕ} {o : ℕ × ℕ} (ho : o ∈ I.readOperands R) {base : ℕ}
    (h : rewriteTo f ((p.eachWrite I).filter fun s => decide (0 < s.len)) (I.operand o.1) o.2 =
      some base) : ¬I.ReadsOwnWrites o.1 (I.operand o.1) := by
  rintro ⟨hloops, i, hi, j, hj, heq⟩
  obtain ⟨hpos, -, hfree⟩ := rewriteTo_spec h
  have hw : (⟨I.dst, I.outputLen⟩ : Span) ∈ (p.eachWrite I).filter fun s => decide (0 < s.len) := by
    have hout : p.eachWrite I = [⟨I.dst, I.outputLen⟩] := by
      simp only [Instr.loops, decide_eq_true_eq] at hloops
      unfold eachWrite
      rcases hloops with hc | hc | hc | hc <;> simp only [hc] <;> rw [if_pos (by omega)]
    rw [hout]
    simp
    omega
  have hfree := hfree _ hw
  dsimp only at hfree
  -- The operand moves with the elements, or stays.
  have hlen : o.2 = I.outputLen ∧ I.step o.1 ≤ 1 ∧ (o.2 ≤ 1 ∨ I.step o.1 = 1) ∨
      o.2 = 1 ∧ I.step o.1 = 0 := by
    simp only [Instr.loops, decide_eq_true_eq] at hloops
    rcases hloops with hc | hc | hc | hc
    iterate 3
      have hout : I.outputLen = I.len := by simp [Instr.outputLen, hc, Code.has, Code.flags]
      have hstep : I.step o.1 = 1 := by simp [Instr.step, hc]
      have : o.2 = I.len := by
        simp [Instr.readOperands, Instr.rule, Instr.inputLen, hc, Code.has, Code.flags] at ho
        simp [ho]
      omega
    have hout : I.outputLen = I.len := by simp [Instr.outputLen, hc]
    have hstep : I.step o.1 = I.stride o.1 := by simp [Instr.step, hc]
    have ho2 : o.2 = I.inputLen o.1 ∧ (o.1 = 0 ∨ I.reads o.1 = true) := by
      unfold Instr.readOperands at ho
      rw [if_neg (by simp [hc]), if_neg (by simp [hc])] at ho
      split at ho
      · simp at ho
      · split at ho <;> split at ho <;> simp at ho <;> rcases ho with ho | ho | ho <;>
          simp_all [Instr.reads]
    have hin : I.inputLen o.1 = if I.bcast.testBit o.1 then 1 else I.len := if_pos hc
    have hst : I.stride o.1 = if 1 < I.inputLen o.1 then 1 else 0 := by
      simp [Instr.stride, ho2.2]
    rw [hstep, ho2.1, hst, hout, hin]
    split <;> split <;> omega
  rcases hlen with ⟨h1, h2, h3⟩ | ⟨h1, h2⟩
  · rcases h3 with h3 | h3
    · omega
    · rw [h3] at heq
      omega
  · rw [h2] at heq
    omega

/-- What the pass relies on: no operand is moved onto registers that the instruction overwrites before
it has read them. -/
def OperandsApart (R : Registry) (p : Program V) : Prop :=
  ∀ pc I, p.code[pc]? = some I → ∀ o ∈ I.readOperands R, ∀ base,
    rewriteTo (entry R p pc).copyOf ((p.eachWrite I).filter fun s => decide (0 < s.len))
      (I.operand o.1) o.2 = some base → ¬I.ReadsOwnWrites o.1 base

/-- Where the facts hold a rewritten instruction has the same operands. -/
lemma rewrittenAt_renamed (hap : OperandsApart R p) (hI : p.code[k]? = some I) (hcall : I.code ≠ .call)
    {x : ℕ → V} (hx : Holds (entry R p k).copyOf x) : Renamed R x I (rewrittenAt R p k I) := by
  have hJ : rewrittenAt R p k I = (I.readOperands R).foldl (rewriteOperand (entry R p k).copyOf
      ((p.eachWrite I).filter fun s => decide (0 < s.len))) I := by
    unfold rewrittenAt rewriteInstr
    rw [if_neg hcall]
    rfl
  obtain ⟨⟨h1, h2, h3, h4, h5, h6⟩, hops, hkeep⟩ := rewriteOperands_spec (entry R p k).copyOf
    ((p.eachWrite I).filter fun s => decide (0 < s.len)) I (fun o ho => readOperands_lt ho)
    (readOperands_nodup R I)
  rw [← hJ] at h1 h2 h3 h4 h5 h6 hops hkeep
  refine ⟨h1, h2, h3, h4, h5, h6, fun o ho => ?_, hkeep⟩
  rw [hops o ho]
  cases hto : rewriteTo (entry R p k).copyOf ((p.eachWrite I).filter fun s => decide (0 < s.len))
      (I.operand o.1) o.2 with
  | none => exact Or.inl rfl
  | some base =>
    refine Or.inr ⟨fun i hi => hx _ _ ((rewriteTo_spec hto).2.1 i hi), not_readsOwnWrites ho hto, ?_⟩
    exact hap k I hI o ho base hto

lemma rewrittenAt_of_call (hcall : I.code = .call) : rewrittenAt R p k I = I := by
  unfold rewrittenAt rewriteInstr
  rw [if_pos hcall]
  split <;> rfl

/-- A rewritten instruction is of the same shape. -/
lemma rewrittenAt_shape (R : Registry) (p : Program V) (k : ℕ) (I : Instr) :
    (rewrittenAt R p k I).code = I.code ∧ (rewrittenAt R p k I).sub = I.sub ∧
    (rewrittenAt R p k I).bcast = I.bcast ∧ (rewrittenAt R p k I).law = I.law ∧
    (rewrittenAt R p k I).dst = I.dst ∧ (rewrittenAt R p k I).len = I.len := by
  by_cases hcall : I.code = .call
  · rw [rewrittenAt_of_call hcall]
    exact ⟨rfl, rfl, rfl, rfl, rfl, rfl⟩
  · have := (rewriteOperands_spec (entry R p k).copyOf
      ((p.eachWrite I).filter fun s => decide (0 < s.len)) I (fun o ho => readOperands_lt ho)
      (readOperands_nodup R I)).1
    unfold rewrittenAt rewriteInstr
    rw [if_neg hcall]
    exact this

/-! ## The code and the payloads -/

lemma copyScanAt_code_succ (hI : p.code[k]? = some I) :
    (p.copyScanAt R (k + 1)).code = (p.copyScanAt R k).code ++ [rewrittenAt R p k I] ∧
    (p.copyScanAt R (k + 1)).noOp = (p.copyScanAt R k).noOp ++ [(rewrittenAt R p k I).isNoOp] ∧
    (p.copyScanAt R (k + 1)).calls = (p.rewriteInstr R (entry R p k) I).2 := by
  have harrive : ∀ st : CopyScan, (st.arrive p.nRegs (p.isTarget k) k).code = st.code ∧
      (st.arrive p.nRegs (p.isTarget k) k).noOp = st.noOp := by
    intro st
    unfold CopyScan.arrive
    split
    · split
      · dsimp only
        split <;> exact ⟨rfl, rfl⟩
      · split <;> exact ⟨rfl, rfl⟩
    · split <;> exact ⟨rfl, rfl⟩
  rw [copyScanAt_succ hI]
  refine ⟨?_, ?_, rfl⟩
  · exact congrArg (· ++ [rewrittenAt R p k I]) (harrive _).1
  · exact congrArg (· ++ [(rewrittenAt R p k I).isNoOp]) (harrive _).2

/-- The rewritten code, instruction by instruction. -/
lemma copyScan_code (hI : p.code[k]? = some I) :
    (p.forwarded R).code[k]? = some (rewrittenAt R p k I) ∧
    (p.copyScan R).noOp[k]? = some (rewrittenAt R p k I).isNoOp := by
  have key : ∀ n ≤ p.code.length, (p.copyScanAt R n).code.length = n ∧
      (p.copyScanAt R n).noOp.length = n ∧ ∀ k I, k < n → p.code[k]? = some I →
        (p.copyScanAt R n).code[k]? = some (rewrittenAt R p k I) ∧
        (p.copyScanAt R n).noOp[k]? = some (rewrittenAt R p k I).isNoOp := by
    intro n
    induction n with
    | zero => exact fun _ => ⟨rfl, rfl, fun _ _ h => absurd h (Nat.not_lt_zero _)⟩
    | succ n ih =>
      intro hn
      obtain ⟨hlen, hlen', hget⟩ := ih (by omega)
      have hJ : p.code[n]? = some p.code[n] := List.getElem?_eq_getElem (by omega)
      obtain ⟨hcode, hnoOp, -⟩ := copyScanAt_code_succ (R := R) hJ
      rw [hcode, hnoOp]
      refine ⟨by simp [hlen], by simp [hlen'], fun k I hk hI => ?_⟩
      rcases Nat.lt_succ_iff_lt_or_eq.1 hk with hk | rfl
      · rw [List.getElem?_append_left (by omega), List.getElem?_append_left (by omega)]
        exact hget k I hk hI
      · obtain rfl : p.code[k] = I := Option.some.inj (hJ.symm.trans hI)
        simp [hlen, hlen']
  exact (key _ le_rfl).2.2 k I (List.getElem?_eq_some_iff.1 hI).1 hI

lemma length_forwarded (R : Registry) (p : Program V) :
    (p.forwarded R).code.length = p.code.length := by
  have key : ∀ n ≤ p.code.length, (p.copyScanAt R n).code.length = n := by
    intro n
    induction n with
    | zero => exact fun _ => rfl
    | succ n ih =>
      intro hn
      have hJ : p.code[n]? = some p.code[n] := List.getElem?_eq_getElem (by omega)
      rw [(copyScanAt_code_succ hJ).1, List.length_append, ih (by omega)]
      rfl
  exact key _ le_rfl

/-- The payloads in front of a position. -/
lemma copyScanAt_calls_succ (hI : p.code[k]? = some I) (c : ℕ) :
    (p.copyScanAt R (k + 1)).calls[c]? = if I.code = .call ∧ I.a = c ∧ p.callUses c = 1 then
      (p.copyScanAt R k).calls[c]?.map (Call.rewriteInputs (entry R p k).copyOf
        ((p.eachWrite I).filter fun s => decide (0 < s.len)))
      else (p.copyScanAt R k).calls[c]? := by
  have hentry : (entry R p k).calls = (p.copyScanAt R k).calls := by
    unfold entry CopyScan.arrive
    split
    · split
      · dsimp only
        split <;> rfl
      · split <;> rfl
    · split <;> rfl
  rw [(copyScanAt_code_succ hI).2.2, ← hentry]
  unfold rewriteInstr
  by_cases hcall : I.code = .call
  · rw [if_pos hcall]
    by_cases huse : p.callUses I.a = 1
    · rw [if_pos huse]
      dsimp only
      rw [List.getElem?_modify]
      by_cases hc : I.a = c
      · rw [if_pos ⟨hcall, hc, hc ▸ huse⟩]
        simp only [hc, if_true]
        rfl
      · rw [if_neg fun h => hc h.2.1]
        simp only [hc, if_false]
        exact Option.map_id'
    · rw [if_neg huse, if_neg]
      rintro ⟨-, rfl, h⟩
      exact huse h
  · rw [if_neg hcall, if_neg fun h => hcall h.1]

/-- A payload that is used once has one user. -/
lemma eq_of_callUses (h : p.callUses I.a = 1) {j : ℕ} {J : Instr} (hI : p.code[k]? = some I)
    (hJ : p.code[j]? = some J) (hci : I.code = .call) (hcj : J.code = .call) (ha : J.a = I.a) :
    j = k := by
  have key : ∀ {i m : ℕ} {A B : Instr}, i < m → p.code[i]? = some A → p.code[m]? = some B →
      A.code = .call → B.code = .call → A.a = I.a → B.a = I.a → False := by
    intro i m A B him hA hB hca hcb haa hba
    have hsplit : ∀ f : Instr → Bool, p.code.countP f =
        (p.code.take (i + 1)).countP f + (p.code.drop (i + 1)).countP f := fun f => by
      rw [← List.countP_append, List.take_append_drop]
    have hsplit := hsplit fun A : Instr => decide (A.code = .call) && decide (A.a = I.a)
    have h1 : 0 < (p.code.take (i + 1)).countP
        fun A : Instr => decide (A.code = .call) && decide (A.a = I.a) := by
      refine List.countP_pos_iff.2 ⟨A, ?_, by simp [hca, haa]⟩
      exact List.mem_of_getElem? (i := i) (by rw [List.getElem?_take_of_lt (by omega), hA])
    have h2 : 0 < (p.code.drop (i + 1)).countP
        fun A : Instr => decide (A.code = .call) && decide (A.a = I.a) := by
      refine List.countP_pos_iff.2 ⟨B, ?_, by simp [hcb, hba]⟩
      refine List.mem_of_getElem? (i := m - (i + 1)) ?_
      rw [List.getElem?_drop, show i + 1 + (m - (i + 1)) = m by omega, hB]
    have h3 : p.code.countP (fun A : Instr => decide (A.code = .call) && decide (A.a = I.a)) = 1 := h
    omega
  rcases Nat.lt_trichotomy j k with hlt | heq | hgt
  · exact (key hlt hJ hI hcj hci ha rfl).elim
  · exact heq
  · exact (key hgt hI hJ hci hcj rfl ha).elim

/-- The payload of a `CALL` in the rewritten program. -/
lemma forwarded_call (hI : p.code[k]? = some I) (hcall : I.code = .call) :
    (p.forwarded R).calls[I.a]? = if p.callUses I.a = 1 then
      p.calls[I.a]?.map (Call.rewriteInputs (entry R p k).copyOf
        ((p.eachWrite I).filter fun s => decide (0 < s.len))) else p.calls[I.a]? := by
  have hk := (List.getElem?_eq_some_iff.1 hI).1
  have key : ∀ n ≤ p.code.length, (p.copyScanAt R n).calls[I.a]? =
      if p.callUses I.a = 1 ∧ k < n then p.calls[I.a]?.map (Call.rewriteInputs (entry R p k).copyOf
        ((p.eachWrite I).filter fun s => decide (0 < s.len))) else p.calls[I.a]? := by
    intro n
    induction n with
    | zero => exact fun _ => (if_neg fun h => Nat.not_lt_zero _ h.2).symm
    | succ n ih =>
      intro hn
      have hJ : p.code[n]? = some p.code[n] := List.getElem?_eq_getElem (by omega)
      rw [copyScanAt_calls_succ hJ, ih (by omega)]
      by_cases huse : p.callUses I.a = 1
      · by_cases hnk : n = k
        · subst hnk
          obtain rfl : p.code[n] = I := Option.some.inj (hJ.symm.trans hI)
          rw [if_pos ⟨hcall, rfl, huse⟩, if_neg fun h => lt_irrefl _ h.2, if_pos ⟨huse, by omega⟩]
        · rw [if_neg fun h => hnk (eq_of_callUses huse hI hJ hcall h.1 h.2.1)]
          have : k < n ↔ k < n + 1 := by omega
          simp only [this]
      · rw [if_neg fun h => huse h.2.2, if_neg fun h => huse h.1, if_neg fun h => huse h.1]
  rw [show (p.forwarded R).calls = (p.copyScanAt R p.code.length).calls from rfl, key _ le_rfl]
  simp only [hk, and_true]

/-- A payload keeps everything but where it reads. -/
lemma forwarded_call_static (hI : p.code[k]? = some I) (hcall : I.code = .call) :
    (p.calls[I.a]? = none ∧ (p.forwarded R).calls[I.a]? = none) ∨ ∃ call call' : Call,
      p.calls[I.a]? = some call ∧ (p.forwarded R).calls[I.a]? = some call' ∧
      (call' = call ∨ call' = call.rewriteInputs (entry R p k).copyOf
        ((p.eachWrite I).filter fun s => decide (0 < s.len))) := by
  rw [forwarded_call hI hcall]
  cases p.calls[I.a]? with
  | none => exact Or.inl ⟨rfl, by simp⟩
  | some call =>
    refine Or.inr ?_
    split
    · exact ⟨call, _, rfl, rfl, Or.inr rfl⟩
    · exact ⟨call, _, rfl, rfl, Or.inl rfl⟩

end Scan

/-! ## The rewritten instruction -/

section Exec

variable [Field V] {M : StanMath V E S} {p : Program V} {k : ℕ} {I : Instr}

omit [Field V] in
lemma eligible_rewritten {R : Registry} (he : I.isEligible) : (rewrittenAt R p k I).isEligible := by
  obtain ⟨hcode, hsub, -⟩ := rewrittenAt_shape R p k I
  unfold Instr.isEligible Instr.isJump Instr.rule at he ⊢
  rwa [hcode, hsub]

omit [Field V] in
/-- A rewritten instruction writes what the instruction writes. -/
lemma writes_forwarded {R : Registry} (hI : p.code[k]? = some I) (he : I.isEligible) :
    (p.forwarded R).writes (rewrittenAt R p k I) = p.writes I := by
  obtain ⟨hcode, hsub, -, -, hdst, hlen⟩ := rewrittenAt_shape R p k I
  by_cases hcall : I.code = .call
  · rw [rewrittenAt_of_call hcall, writes, writes, if_pos hcall, if_pos hcall]
    rcases forwarded_call_static (R := R) hI hcall with ⟨h1, h2⟩ | ⟨call, call', h1, h2, h3⟩
    · rw [h1, h2]
    · rw [h1, h2]
      rcases h3 with rfl | rfl <;> rfl
  · have hout : (rewrittenAt R p k I).outputLen = I.outputLen := by
      rw [(eligible_rewritten he).plain.kind.outputLen, he.plain.kind.outputLen, hcode, hlen]
    rw [writes, writes, if_neg (hcode ▸ hcall), if_neg hcall, hout, hdst]

/-- Where the facts hold, a rewritten instruction does what the instruction did. -/
theorem exec_forwarded (hap : OperandsApart M.toRegistry p) (hI : p.code[k]? = some I)
    (he : I.isEligible) {s : File V S} (hs : Holds (entry M.toRegistry p k).copyOf s.reg) :
    (p.forwarded M.toRegistry).exec M (rewrittenAt M.toRegistry p k I) s = p.exec M I s := by
  by_cases hcall : I.code = .call
  · rw [rewrittenAt_of_call hcall]
    simp only [exec, hcall]
    rcases forwarded_call_static (R := M.toRegistry) hI hcall with
      ⟨h1, h2⟩ | ⟨call, call', h1, h2, h3⟩
    · rw [h1, h2]
    · rw [h1, h2]
      rcases h3 with rfl | rfl
      · rfl
      · have hread : ∀ i ∈ call.ins, (Span.mk ((rewriteTo (entry M.toRegistry p k).copyOf
            ((p.eachWrite I).filter fun s => decide (0 < s.len)) i.reg i.len).getD i.reg) i.len).read
              s.reg = i.read s.reg := by
          intro i hi
          cases hto : rewriteTo (entry M.toRegistry p k).copyOf
              ((p.eachWrite I).filter fun s => decide (0 < s.len)) i.reg i.len with
          | none => rfl
          | some base =>
            simp only [Span.read, Span.regs, List.map_map, Option.getD_some]
            refine List.map_congr_left fun j hj => ?_
            exact (hs _ _ ((rewriteTo_spec hto).2.1 j (List.mem_range.1 hj))).symm
        have hins : ((call.rewriteInputs (entry M.toRegistry p k).copyOf
            ((p.eachWrite I).filter fun s => decide (0 < s.len))).ins.map fun i => i.read s.reg) =
            call.ins.map fun i => i.read s.reg := by
          simp only [Call.rewriteInputs, List.map_map]
          exact List.map_congr_left hread
        simp only [hins]
        rfl
  · exact exec_renamed he hcall (rewrittenAt_renamed hap hI hcall hs) rfl

end Exec

/-! ## The facts along a run -/

section Run

variable {R : Registry} {p : Program V} {k : ℕ} {I : Instr}

lemma copyScanAt_state (hI : p.code[k]? = some I) :
    (p.copyScanAt R (k + 1)).copyOf = ((entry R p k).transfer p (rewrittenAt R p k I)).copyOf ∧
    (p.copyScanAt R (k + 1)).dependents =
      ((entry R p k).transfer p (rewrittenAt R p k I)).dependents ∧
    (p.copyScanAt R (k + 1)).reachable = ((entry R p k).reachable && decide (I.code ≠ .jmp)) ∧
    (p.copyScanAt R (k + 1)).arrived =
      (if I.isJump then ((entry R p k).transfer p (rewrittenAt R p k I)).bring I.dst
        else (entry R p k).transfer p (rewrittenAt R p k I)).arrived := by
  obtain ⟨hcode, -, -, -, hdst, -⟩ := rewrittenAt_shape R p k I
  have hjump : (rewrittenAt R p k I).isJump = I.isJump := by
    unfold Instr.isJump
    rw [hcode]
  have hreach := (CopyScan.transfer_arrived p (entry R p k) (rewrittenAt R p k I)).2
  rw [copyScanAt_succ hI, ← hjump, ← hcode, ← hdst, ← hreach]
  unfold copyStep
  change _ ∧ _ ∧ _ ∧ _
  refine ⟨?_, ?_, ?_, rfl⟩
  · dsimp only
    change (if (rewrittenAt R p k I).isJump = true then
      ((entry R p k).transfer p (rewrittenAt R p k I)).bring (rewrittenAt R p k I).dst
      else (entry R p k).transfer p (rewrittenAt R p k I)).copyOf = _
    split <;> rfl
  · change (if (rewrittenAt R p k I).isJump = true then
      ((entry R p k).transfer p (rewrittenAt R p k I)).bring (rewrittenAt R p k I).dst
      else (entry R p k).transfer p (rewrittenAt R p k I)).dependents = _
    split <;> rfl
  · change ((if (rewrittenAt R p k I).isJump = true then
      ((entry R p k).transfer p (rewrittenAt R p k I)).bring (rewrittenAt R p k I).dst
      else (entry R p k).transfer p (rewrittenAt R p k I)).reachable && _) = _
    split <;> rfl

/-- Branches of the code go forward, its instructions are eligible and write registers of the file. -/
structure CopyChecked (p : Program V) : Prop where
  eligible : ∀ I ∈ p.code, I.isEligible
  writes : ∀ I ∈ p.code, ∀ r ∈ p.writes I, r < p.nRegs
  jumps : ∀ (pc : ℕ) (I : Instr), p.code[pc]? = some I → I.isJump = true →
    pc < I.dst ∧ I.dst ≤ p.code.length
  payload : ∀ I ∈ p.code, I.code = .call → ∃ call, p.calls[I.a]? = some call

lemma writes_rewritten (h : CopyChecked p) (hI : p.code[k]? = some I) {r : ℕ}
    (hr : r ∈ p.writes (rewrittenAt R p k I)) : r < p.nRegs := by
  have he := h.eligible I (List.mem_of_getElem? hI)
  obtain ⟨hcode, -, -, -, hdst, hlen⟩ := rewrittenAt_shape R p k I
  refine h.writes I (List.mem_of_getElem? hI) r ?_
  by_cases hcall : I.code = .call
  · rwa [rewrittenAt_of_call hcall] at hr
  · rw [mem_writes (hcode ▸ hcall), (eligible_rewritten he).plain.kind.outputLen, hcode, hlen, hdst] at hr
    rwa [mem_writes hcall, he.plain.kind.outputLen]

/-- The tables of the forward scan are in order. -/
lemma copyScanAt_wf (h : CopyChecked p) (R : Registry) :
    ∀ n ≤ p.code.length, (p.copyScanAt R n).Wf p.nRegs := by
  intro n
  induction n with
  | zero => exact fun _ => ⟨fun r b hr => by simp [copyScanAt] at hr, fun _ _ hf => by simp [copyScanAt] at hf⟩
  | succ n ih =>
    intro hn
    have hI : p.code[n]? = some p.code[n] := List.getElem?_eq_getElem (by omega)
    have hentry : (entry R p n).Wf p.nRegs := (CopyScan.arrive_spec (ih (by omega)) _ _).1
    have hout := hentry.transfer (p := p) (J := rewrittenAt R p n p.code[n])
      fun r hr => writes_rewritten h hI hr
    obtain ⟨h1, h2, -, h4⟩ := copyScanAt_state (R := R) hI
    refine ⟨fun r b hr => ?_, fun pc f hf r b hr => ?_⟩
    · rw [h1] at hr
      rw [h2]
      exact hout.copy r b hr
    · rw [h4] at hf
      split at hf
      · rw [CopyScan.bring_arrived] at hf
        split at hf
        · obtain rfl := Option.some.inj hf
          exact (hout.copy r b ((CopyScan.brought_knows _ _).1 r b hr)).1
        · exact hout.arrived pc f hf r b hr
      · exact hout.arrived pc f hf r b hr

lemma entry_wf (h : CopyChecked p) (hk : k ≤ p.code.length) : (entry R p k).Wf p.nRegs :=
  (CopyScan.arrive_spec (copyScanAt_wf h R k hk) _ _).1

/-- What a branch has brought is only reduced until control gets there. -/
lemma arrived_mono (h : CopyChecked p) {d : ℕ} {f : ℕ → Option ℕ} {j : ℕ} (hkj : k ≤ j) (hjd : j ≤ d)
    (hd : d ≤ p.code.length) (hf : (p.copyScanAt R k).arrived d = some f) :
    ∃ g, (p.copyScanAt R j).arrived d = some g ∧ Knows g f := by
  induction j, hkj using Nat.le_induction with
  | base => exact ⟨f, hf, Knows.refl f⟩
  | succ j hkj ih =>
    obtain ⟨g, hg, hgf⟩ := ih (by omega)
    have hI : p.code[j]? = some p.code[j] := List.getElem?_eq_getElem (by omega)
    have hentry : (entry R p j).arrived d = some g :=
      (CopyScan.arrive_spec (copyScanAt_wf h R j (by omega)) _ _).2.2.2.2 d g (by omega) hg
    rw [← (CopyScan.transfer_arrived p (entry R p j) (rewrittenAt R p j p.code[j])).1] at hentry
    rw [(copyScanAt_state (R := R) hI).2.2.2]
    split
    · rw [CopyScan.bring_arrived]
      split
      · rename_i hdd
        exact ⟨_, rfl, ((CopyScan.brought_knows _ _).2 g (hdd ▸ hentry)).trans hgf⟩
      · exact ⟨g, hentry, hgf⟩
    · exact ⟨g, hentry, hgf⟩

/-- Falling through, control brings what is known behind the instruction. -/
lemma entry_sub_fall (h : CopyChecked p) (hI : p.code[k]? = some I) (hjmp : I.code ≠ .jmp) :
    Knows (entry R p (k + 1)).copyOf ((entry R p k).transfer p (rewrittenAt R p k I)).copyOf := by
  have hk := (List.getElem?_eq_some_iff.1 hI).1
  obtain ⟨h1, -, h3, -⟩ := copyScanAt_state (R := R) hI
  have hreach : (entry R p k).reachable = true :=
    (CopyScan.arrive_spec (copyScanAt_wf h R k (by omega)) _ _).2.1
  rw [← h1]
  refine (CopyScan.arrive_spec (copyScanAt_wf h R (k + 1) (by omega)) _ _).2.2.1 ?_
  rw [h3, hreach]
  simpa using hjmp

/-- A branch brings what is known behind it to its target. -/
lemma entry_sub_jump (h : CopyChecked p) (hI : p.code[k]? = some I) (hj : I.isJump = true) :
    Knows (entry R p I.dst).copyOf ((entry R p k).transfer p (rewrittenAt R p k I)).copyOf := by
  obtain ⟨hlt, hle⟩ := h.jumps k I hI hj
  have harr : ∃ f, (p.copyScanAt R (k + 1)).arrived I.dst = some f ∧
      Knows f ((entry R p k).transfer p (rewrittenAt R p k I)).copyOf := by
    rw [(copyScanAt_state (R := R) hI).2.2.2, if_pos hj]
    rw [CopyScan.bring_arrived, if_pos rfl]
    exact ⟨_, rfl, (CopyScan.brought_knows _ _).1⟩
  obtain ⟨f, hf, hknows⟩ := harr
  obtain ⟨g, hg, hgf⟩ := arrived_mono h (Nat.succ_le_of_lt hlt) le_rfl hle hf
  have htarget : p.isTarget I.dst = true := by
    refine List.any_eq_true.2 ⟨I, List.mem_of_getElem? hI, ?_⟩
    simp [hj]
  exact ((CopyScan.arrive_spec (copyScanAt_wf h R I.dst hle) _ _).2.2.2.1 g htarget hg).trans
    (hgf.trans hknows)

variable [Field V] {M : StanMath V E S}

/-- Wherever control goes from an instruction the facts hold again. -/
theorem entry_holds_next (h : CopyChecked p) (hap : OperandsApart M.toRegistry p)
    (hI : p.code[k]? = some I) {s s' : File V S} (hs : Holds (entry M.toRegistry p k).copyOf s.reg)
    (hex : p.exec M I s = .ok s') :
    Holds (entry M.toRegistry p (I.next M k s)).copyOf s'.reg := by
  have hk := (List.getElem?_eq_some_iff.1 hI).1
  have he := h.eligible I (List.mem_of_getElem? hI)
  have hpw : (p.forwarded M.toRegistry).writes (rewrittenAt M.toRegistry p k I) =
      p.writes (rewrittenAt M.toRegistry p k I) := by
    rw [writes_forwarded hI he]
    obtain ⟨hcode, -, -, -, hdst, hlen⟩ := rewrittenAt_shape M.toRegistry p k I
    by_cases hcall : I.code = .call
    · rw [rewrittenAt_of_call hcall]
    · rw [writes, writes, if_neg hcall, if_neg (hcode ▸ hcall),
        (eligible_rewritten he).plain.kind.outputLen, he.plain.kind.outputLen, hcode, hlen, hdst]
  rw [← exec_forwarded hap hI he hs] at hex
  have hout := transfer_holds (entry_wf h hk.le) (eligible_rewritten he)
    (fun r hr => writes_rewritten h hI hr) hpw hs hex
  unfold Instr.next
  cases hc : I.code with
  | jz =>
    dsimp only
    split
    · exact hout.mono (entry_sub_jump h hI (by simp [Instr.isJump, hc]))
    · exact hout.mono (entry_sub_fall h hI (by simp [hc]))
  | jmp => exact hout.mono (entry_sub_jump h hI (by simp [Instr.isJump, hc]))
  | _ => exact hout.mono (entry_sub_fall h hI (by simp [hc]))

end Run

end Program

end Stanli
