import Mathlib.Tactic.IntervalCases
import Stanli.Program.Reads

/-!
# What is emitted

Each instruction of an accepted program is emitted with saves that take consecutive fresh registers
(`Allocated`) and copy registers of the file; a `CALL` gets a payload of its own.
-/

namespace Stanli

open Program

namespace IslandProg

/-! ## Saves -/

/-- The saves take consecutive registers from `n` on. -/
def Allocated : ℕ → List Save → Prop
  | _, [] => True
  | n, c :: cs => c.dst = n ∧ Allocated (n + c.len) cs

lemma allocated_append {n : ℕ} {cs cs' : List Save} :
    Allocated n (cs ++ cs') ↔ Allocated n cs ∧ Allocated (n + savedCells cs) cs' := by
  induction cs generalizing n with
  | nil => simp [Allocated, savedCells]
  | cons c cs ih =>
    rw [List.cons_append, Allocated, Allocated, ih]
    simp [savedCells, Nat.add_assoc, and_assoc]

lemma savedCells_append (cs cs' : List Save) :
    savedCells (cs ++ cs') = savedCells cs + savedCells cs' := by
  simp [savedCells]

/-- An allocated save lies in the registers its list takes. -/
lemma Allocated.mem {n : ℕ} {cs : List Save} (h : Allocated n cs) {c : Save} (hc : c ∈ cs) :
    n ≤ c.dst ∧ c.dst + c.len ≤ n + savedCells cs := by
  induction cs generalizing n with
  | nil => simp at hc
  | cons d cs ih =>
    have hcells : savedCells (d :: cs) = d.len + savedCells cs := by simp [savedCells]
    obtain ⟨rfl, h⟩ := h
    rcases List.mem_cons.1 hc with rfl | hc
    · omega
    · have := ih h hc
      omega

lemma checkpoint_allocated (n r len : ℕ) (needed : Bool) :
    Allocated n (checkpoint n r len needed).2 := by
  unfold checkpoint
  split
  · exact ⟨rfl, trivial⟩
  · trivial

lemma mem_checkpoint {n r len : ℕ} {needed : Bool} {c : Save}
    (h : c ∈ (checkpoint n r len needed).2) : c.src = r ∧ c.len = len := by
  unfold checkpoint at h
  split at h
  · obtain rfl : c = ⟨r, len, n⟩ := by simpa using h
    exact ⟨rfl, rfl⟩
  · simp at h

/-- Saves of operands are copies of registers of the file. -/
def SourcesBelow (n : ℕ) (cs : List Save) : Prop := ∀ c ∈ cs, c.src + c.len ≤ n

lemma SourcesBelow.append {n : ℕ} {cs cs' : List Save} (h : SourcesBelow n cs)
    (h' : SourcesBelow n cs') : SourcesBelow n (cs ++ cs') := fun c hc =>
  (List.mem_append.1 hc).elim (h c) (h' c)

lemma sourcesBelow_checkpoint {m n r len : ℕ} {needed : Bool} (h : r + len ≤ m) :
    SourcesBelow m (checkpoint n r len needed).2 := fun c hc => by
  obtain ⟨h1, h2⟩ := mem_checkpoint hc
  omega

variable {V E S : Type*} {R : Registry} {p : IslandProg V} {pc nRegs nCalls : ℕ} {I : Instr}

/-! ## Operands -/

lemma operandSaves_allocated (I : Instr) (i nRegs : ℕ) :
    Allocated nRegs (p.operandSaves R I i nRegs).2 := by
  unfold operandSaves saveBefore
  dsimp only
  rw [allocated_append, allocated_append, savedCells_append, ← Nat.add_assoc]
  exact ⟨⟨checkpoint_allocated .., checkpoint_allocated ..⟩, checkpoint_allocated ..⟩

lemma has_readB_of_saveB {code : Code} (h : code.has .saveB = true) : code.has .readB = true := by
  cases code <;> first | rfl | exact absurd h (by decide)

lemma has_readC_of_saveC {code : Code} (h : code.has .saveC = true) : code.has .readC = true := by
  cases code <;> first | rfl | exact absurd h (by decide)

lemma has_noInputs_of_saveA {code : Code} (h : code.has .saveA = true) :
    code.has .noInputs = false := by
  cases code <;> first | rfl | exact absurd h (by decide)

/-- A wanted operand lies in the file. -/
lemma Checked.wanted (h : p.Checked R pc I) (hcall : I.code ≠ .call) {k : ℕ} (hk : k < 3)
    (hw : wantsOperand R I k = true) : I.operand k + savedLen R I k ≤ p.nRegs := by
  unfold wantsOperand at hw
  unfold savedLen
  split at hw
  · rename_i hden
    have hno : I.rule.has .noInputs = false := by simp [Instr.rule, hden, Code.has, Code.flags]
    have hlen : I.inputLen k = 1 := by simp [Instr.inputLen, hden, Code.has, Code.flags]
    cases hr : I.isRangedDensity R with
    | true =>
      have hlt : 3 < R.densityArity I.len := by
        simpa [Instr.isRangedDensity, hden] using hr
      obtain rfl : k = 0 := by
        simp only [Bool.or_eq_true, Bool.and_eq_true, decide_eq_true_eq] at hw
        omega
      exact h.ranged hr
    | false =>
      rw [hlen]
      exact h.operand (by simp [hden]) hcall hr hno k
  · rename_i hden
    have hr : I.isRangedDensity R = false := by simp [Instr.isRangedDensity, hden]
    have hread : I.reads k = true := by
      interval_cases k
      · simpa [Instr.reads] using has_noInputs_of_saveA hw
      · exact has_readB_of_saveB hw
      · exact has_readC_of_saveC hw
    rw [hr, Bool.false_and, if_neg (by simp)]
    by_cases hd : I.code = .dynIndex
    · obtain ⟨h1, h2, h3, h4⟩ := h.dynIndex hd
      interval_cases k
      · simp [Instr.operand, Instr.inputLen, hd, Code.has, Code.flags]
        omega
      · simp [Instr.operand, Instr.inputLen, hd, Code.has, Code.flags]
        omega
      · simp [Instr.reads, Instr.rule, hd, Code.has, Code.flags] at hread
    · exact h.span hd hcall hden hk hread

/-- The saves of an instruction's operands copy registers of the file. -/
lemma operandSaves_sources (h : p.Checked R pc I) (hcall : I.code ≠ .call) (i nRegs : ℕ) :
    SourcesBelow p.nRegs (p.operandSaves R I i nRegs).2 := by
  have hsave : ∀ n k, k < 3 → SourcesBelow p.nRegs
      (p.saveBefore (wantsOperand R I k) I n (I.operand k) (savedLen R I k) i).2 := by
    intro n k hk c hc
    obtain ⟨h1, h2⟩ := mem_checkpoint hc
    rw [h1, h2]
    refine h.wanted hcall hk ?_
    by_contra hw
    rw [Bool.not_eq_true] at hw
    rw [saveBefore, hw, Bool.false_and] at hc
    exact absurd hc (by simp [checkpoint])
  exact ((hsave _ 0 (by omega)).append (hsave _ 1 (by omega))).append (hsave _ 2 (by omega))

/-! ## Calls -/

lemma saveInputs_allocated (reads : PrimalReads) (i : ℕ) (ss : List Span) (k n : ℕ) :
    Allocated n ((p.saveInputs reads i ss k n).flatMap Prod.snd) := by
  induction ss generalizing k n with
  | nil => trivial
  | cons s ss ih =>
    rw [saveInputs, List.flatMap_cons, allocated_append]
    exact ⟨checkpoint_allocated .., ih ..⟩

lemma saveInputs_sources {reads : PrimalReads} {i : ℕ} {ss : List Span} {m : ℕ}
    (h : ∀ s ∈ ss, s.reg + s.len ≤ m) (k n : ℕ) :
    SourcesBelow m ((p.saveInputs reads i ss k n).flatMap Prod.snd) := by
  induction ss generalizing k n with
  | nil => exact fun c hc => by simp [saveInputs] at hc
  | cons s ss ih =>
    rw [saveInputs, List.flatMap_cons]
    refine SourcesBelow.append (sourcesBelow_checkpoint (h s (List.mem_cons_self ..))) ?_
    exact ih (fun s hs => h s (List.mem_cons_of_mem _ hs)) _ _

/-! ## One instruction -/

/-- What `emit` puts into the forward code for an instruction. -/
structure ForwardEmit (p : IslandProg V) (I : Instr) (nRegs nCalls : ℕ) (e : Emitted) : Prop where
  allocated : Allocated nRegs (e.before ++ e.after)
  sources : SourcesBelow p.nRegs (e.before ++ e.after)
  plain : I.code ≠ .call → e.instr = I ∧ e.call = none
  call : ∀ call, p.callOf I = some call → e.instr = { I with a := nCalls } ∧
    ∃ bound, e.call = some bound ∧ bound.shape = call.shape ∧ bound.forward = call.forward ∧
      bound.ins = call.ins ∧ bound.out = call.out ∧ bound.scratch = call.scratch
  silent : I.isJump = true → e.before = [] ∧ e.after = []

lemma code_of_callOf {call : Call} (h : p.callOf I = some call) :
    I.code = .call ∧ p.calls[I.a]? = some call := by
  unfold callOf at h
  split at h
  · exact ⟨‹_›, h⟩
  · simp at h

lemma saveRange_sources {m n r len i : ℕ} {wanted : Bool} (h : r + len ≤ m) :
    SourcesBelow m (p.saveRange wanted n r len i).2 := sourcesBelow_checkpoint h

/-- The range an instruction writes lies in the file. -/
lemma Checked.output (h : p.Checked R pc I) (hcall : I.code ≠ .call) (hpos : I.outputLen ≠ 0) :
    I.dst + I.outputLen ≤ p.nRegs := by
  have := h.writes (I.dst + I.outputLen - 1) ((mem_writes hcall).2 (by omega))
  omega

lemma emit_forward {keep : Bool} {e : Emitted} (h : p.Checked R pc I)
    (he : p.emit R keep I pc nRegs nCalls = some e) : p.ForwardEmit I nRegs nCalls e := by
  unfold emit at he
  cases hcall : p.callOf I with
  | some call =>
    simp only [hcall] at he
    obtain ⟨hcode, hget⟩ := code_of_callOf hcall
    obtain ⟨call', hget', -, -, hout, -, hins⟩ := h.call hcode
    obtain rfl : call = call' := Option.some.inj (hget.symm.trans hget')
    simp only [emitCall, Option.bind_eq_bind, Option.bind_eq_some_iff, Option.pure_def,
      Option.some.injEq] at he
    obtain ⟨adjIn, -, adjOut, -, rfl⟩ := he
    refine ⟨?_, ?_, fun hne => absurd hcode hne, fun call' hcall' => ?_, fun hj => ?_⟩
    · exact allocated_append.2 ⟨saveInputs_allocated .., checkpoint_allocated ..⟩
    · exact SourcesBelow.append (saveInputs_sources hins _ _) (saveRange_sources hout)
    · obtain rfl : call = call' := Option.some.inj (hcall.symm.trans hcall')
      exact ⟨rfl, _, rfl, rfl, rfl, rfl, rfl, rfl⟩
    · simp [Instr.isJump, hcode] at hj
  | none =>
    have hcode : I.code ≠ .call := by
      intro hc
      obtain ⟨call, hget, -⟩ := h.call hc
      simp [callOf, hc, hget] at hcall
    have hno : ∀ call, p.callOf I = some call → False := fun call hc => by simp [hcall] at hc
    have hsilent : I.isJump = true → (p.operandSaves R I pc nRegs).2 = [] := by
      intro hj
      have hno : ∀ k, wantsOperand R I k = false := by
        intro k
        simp only [Instr.isJump, decide_eq_true_eq] at hj
        unfold wantsOperand
        rcases hj with hj | hj <;>
          simp [hj, Instr.rule, Code.has, Code.flags] <;> split <;> simp
      simp [operandSaves, saveBefore, hno, checkpoint]
    simp only [hcall] at he
    split at he
    · obtain rfl : { instr := I } = e := by simpa using he
      exact ⟨trivial, fun c hc => by simp at hc, fun _ => ⟨rfl, rfl⟩,
        fun call hc => (hno call hc).elim, fun _ => ⟨rfl, rfl⟩⟩
    · split at he
      · obtain rfl : { before := (p.operandSaves R I pc nRegs).2, instr := I } = e := by
          simpa using he
        refine ⟨?_, ?_, fun _ => ⟨rfl, rfl⟩, fun call hc => (hno call hc).elim,
          fun hj => ⟨hsilent hj, rfl⟩⟩
        · rw [List.append_nil]
          exact operandSaves_allocated ..
        · rw [List.append_nil]
          exact operandSaves_sources h hcode _ _
      · rename_i hprod
        simp only [Option.bind_eq_bind, Option.bind_eq_some_iff, Option.pure_def,
          Option.some.injEq] at he
        obtain ⟨dst, -, cells, -, rfl⟩ := he
        have hlen : I.outputLen ≠ 0 := by
          intro hzero
          simp [producesAdjoint, hcode, hzero] at hprod
        refine ⟨?_, ?_, fun _ => ⟨rfl, rfl⟩, fun call hc => (hno call hc).elim, fun hj => ?_⟩
        · exact allocated_append.2 ⟨operandSaves_allocated .., checkpoint_allocated ..⟩
        · exact SourcesBelow.append (operandSaves_sources h hcode _ _)
            (saveRange_sources (h.output hcode hlen))
        · exfalso
          simp only [Instr.isJump, decide_eq_true_eq] at hj
          rcases hj with hj | hj <;> simp [Instr.outputLen, hj, Code.has, Code.flags] at hlen

/-! ## The whole program -/

/-- The first register the saves of instruction `k` may take, when those of the first one start at
`base`. -/
def regAt (base : ℕ) (es : List Emitted) (k : ℕ) : ℕ := base + ((es.take k).map Emitted.cells).sum

/-- How many calls are bound before instruction `k`. -/
def callAt (es : List Emitted) (k : ℕ) : ℕ := ((es.take k).filterMap Emitted.call).length

lemma emitFrom_spec {keep : Bool} {is : List Instr} {i n m : ℕ} {es : List Emitted}
    (h : p.emitFrom R keep is i n m = some es) :
    es.length = is.length ∧ ∀ k I, is[k]? = some I → ∃ e, es[k]? = some e ∧
      p.emit R keep I (i + k) (regAt n es k) (m + callAt es k) = some e := by
  induction is generalizing i n m es with
  | nil =>
    obtain rfl : [] = es := by simpa [emitFrom] using h
    exact ⟨rfl, fun k I hk => by simp at hk⟩
  | cons J is ih =>
    simp only [emitFrom, Option.bind_eq_bind, Option.bind_eq_some_iff, Option.pure_def,
      Option.some.injEq] at h
    obtain ⟨e, he, es', hes', rfl⟩ := h
    obtain ⟨hlen, hspec⟩ := ih hes'
    refine ⟨by rw [List.length_cons, List.length_cons, hlen], fun k I hk => ?_⟩
    cases k with
    | zero =>
      obtain rfl : J = I := by simpa using hk
      exact ⟨e, rfl, by simpa [regAt, callAt] using he⟩
    | succ k =>
      obtain ⟨e', he', hemit⟩ := hspec k I (by simpa using hk)
      refine ⟨e', by simpa using he', ?_⟩
      have hreg : regAt n (e :: es') (k + 1) = regAt (n + e.cells) es' k := by
        simp [regAt, Nat.add_assoc]
      have hcall : m + callAt (e :: es') (k + 1) = m + e.call.toList.length + callAt es' k := by
        cases hc : e.call with
        | none => simp [callAt, hc]
        | some call =>
          simp [callAt, hc]
          omega
      rw [hreg, hcall, show i + (k + 1) = i + 1 + k by omega]
      exact hemit

/-- The saves of later instructions take later registers. -/
lemma regAt_succ {base k : ℕ} {es : List Emitted} {e : Emitted} (h : es[k]? = some e) :
    regAt base es (k + 1) = regAt base es k + e.cells := by
  obtain ⟨hlt, rfl⟩ := List.getElem?_eq_some_iff.1 h
  rw [regAt, regAt, List.take_succ_eq_append_getElem hlt, List.map_append, List.sum_append,
    List.map_singleton, List.sum_singleton, Nat.add_assoc]

lemma regAt_mono (base : ℕ) (es : List Emitted) : Monotone (regAt base es) := by
  refine monotone_nat_of_le_succ fun k => ?_
  cases h : es[k]? with
  | none =>
    have hlen := List.getElem?_eq_none_iff.1 h
    rw [regAt, regAt, List.take_of_length_le hlen, List.take_of_length_le (by omega)]
  | some e =>
    rw [regAt_succ h]
    omega

lemma callAt_getElem? {k : ℕ} {es : List Emitted} {e : Emitted} {call : Call}
    (h : es[k]? = some e) (hc : e.call = some call) :
    (es.filterMap Emitted.call)[callAt es k]? = some call := by
  obtain ⟨hlt, rfl⟩ := List.getElem?_eq_some_iff.1 h
  have hsplit : es.filterMap Emitted.call = (es.take k).filterMap Emitted.call ++
      call :: (es.drop (k + 1)).filterMap Emitted.call := by
    conv_lhs => rw [← List.take_append_drop k es, List.filterMap_append,
      List.drop_eq_getElem_cons hlt, List.filterMap_cons_some hc]
  rw [hsplit, callAt, List.getElem?_append_right le_rfl, Nat.sub_self]
  rfl

/-- What `gen_adjoint` makes of a program it accepts. -/
structure Differentiated [Zero V] (R : Registry) (p : IslandProg V) (keep : Bool)
    (es : List Emitted) : Prop where
  accepts : p.accepts R = true
  emitted : p.emitFrom R keep p.code 0 (p.trailEnd R keep) 0 = some es
  segments : p.control = true → p.lostSegment R keep es = false

lemma differentiate_spec [Zero V] {keep : Bool} {q : IslandProg V}
    (h : p.differentiate R keep = some q) :
    ∃ es, Differentiated R p keep es ∧ q = p.assemble R keep es := by
  unfold differentiate at h
  split at h
  · simp at h
  · rename_i hacc
    split at h
    · simp at h
    · rename_i es hes
      split at h
      · simp at h
      · rename_i hseg
        refine ⟨es, ⟨by simpa using hacc, hes, fun hc => ?_⟩, (Option.some.inj h).symm⟩
        simpa [hc] using hseg

namespace Differentiated

variable [Zero V] {keep : Bool} {es : List Emitted}

lemma length_eq (h : Differentiated R p keep es) : es.length = p.code.length :=
  (emitFrom_spec h.emitted).1

/-- Instruction `k` and what is emitted for it. -/
lemma emit (h : Differentiated R p keep es) {k : ℕ} {I : Instr} (hI : p.code[k]? = some I) :
    ∃ e, es[k]? = some e ∧
      p.emit R keep I k (regAt (p.trailEnd R keep) es k) (callAt es k) = some e := by
  obtain ⟨e, he, hemit⟩ := (emitFrom_spec h.emitted).2 k I hI
  exact ⟨e, he, by simpa using hemit⟩

lemma checked (h : Differentiated R p keep es) {k : ℕ} {I : Instr} (hI : p.code[k]? = some I) :
    p.Checked R k I := checked_of_accepts h.accepts hI

end Differentiated

end IslandProg

end Stanli
