import Stanli.Program.Augmented
import Stanli.Program.Cells

/-!
# The values the backward finds

At the end of the forward run every value a rule wants is where its adjoint instruction looks for it:
in the register itself when nothing has overwritten it, and in its save otherwise.
-/

namespace Stanli

open Program

namespace IslandProg

variable {V E S : Type*} [Field V] {R : Registry} {p : IslandProg V} {keep : Bool}
  {es : List Emitted} {M : StanMath V E S}

/-- What the value file holds of one visited instruction that found `x` and left `y`. -/
structure Holds (p : IslandProg V) (e : Emitted) (k : ℕ) (x y val : ℕ → V) : Prop where
  saved : SavesHold e x y val
  kept : ∀ r < p.nRegs, p.lastWrite r ≤ k → val r = y r

/-- The final file of the augmented program holds what each visited instruction found and left. -/
lemma holds_of_run (hd : Differentiated R p keep es) {s₀ s t : File V S}
    {vs ws : List (ℕ × File V S)} {nx n : ℕ}
    (hrun : (p.machine M).sweep 0 p.code 0 s₀ = (vs, .ok (nx, s)))
    (hrel : AugmentedRel M R p keep es n vs ws s t) {v : ℕ × File V S} (hv : v ∈ vs) {I : Instr}
    {e : Emitted} {s' : File V S} (hI : p.code[v.1]? = some I) (he : es[v.1]? = some e)
    (hex : p.exec M I v.2 = .ok s') : Holds p e v.1 v.2.reg s'.reg t.reg := by
  refine ⟨hrel.saved v hv I e s' hI he hex, fun r hr hlast => ?_⟩
  rw [← hrel.same.1 r hr]
  refine Program.final_eq_of_notMem (fun J hJ u u' hu r hr => ?_) hrun hv hI hex fun j J hj hJ hr => ?_
  · obtain ⟨i, hi, rfl⟩ := List.mem_iff_getElem.1 hJ
    exact exec_frame (hd.checked (List.getElem?_eq_getElem hi)).plain hu hr
  · have := le_lastWrite hJ hr
    omega

section Saves

variable {e : Emitted} {k : ℕ} {I : Instr} {x y val : ℕ → V}

omit [Field V] in
lemma lastWrite_of_writtenLater {r len i j : ℕ} (h : p.writtenLater r len i = false) (hj : j < len) :
    p.lastWrite (r + j) ≤ i := by
  have := List.any_eq_false.1 h j (List.mem_range.2 hj)
  simpa using this

omit [Field V] in
/-- A value wanted as the instruction left it. -/
lemma Holds.after (h : Holds p e k x y val) {n r len : ℕ} (hr : r + len ≤ p.nRegs)
    (hsub : ∀ c ∈ (p.saveRange true n r len k).2, c ∈ e.after) {j : ℕ} (hj : j < len) :
    val ((p.saveRange true n r len k).1 + j) = y (r + j) := by
  unfold saveRange checkpoint at hsub ⊢
  split at hsub
  · rename_i hw
    rw [if_pos hw]
    exact h.saved.after _ (hsub _ (List.mem_singleton_self _)) j hj
  · rename_i hw
    rw [if_neg hw]
    exact h.kept _ (by omega) (lastWrite_of_writtenLater (by simpa using hw) hj)

omit [Field V] in
/-- A value wanted as a call found it, of a range the call does not write. -/
lemma Holds.input (h : Holds p e k x y val) {n r len : ℕ} (hr : r + len ≤ p.nRegs)
    (hsame : ∀ j < len, y (r + j) = x (r + j))
    (hsub : ∀ c ∈ (p.saveRange true n r len k).2, c ∈ e.before) {j : ℕ} (hj : j < len) :
    val ((p.saveRange true n r len k).1 + j) = x (r + j) := by
  unfold saveRange checkpoint at hsub ⊢
  split at hsub
  · rename_i hw
    rw [if_pos hw]
    exact h.saved.before _ (hsub _ (List.mem_singleton_self _)) j hj
  · rename_i hw
    rw [if_neg hw, h.kept _ (by omega) (lastWrite_of_writtenLater (by simpa using hw) hj)]
    exact hsame j hj

omit [Field V] in
/-- A value wanted as the instruction found it. -/
lemma Holds.before (h : Holds p e k x y val) (hcall : I.code ≠ .call)
    (hframe : ∀ r ∉ p.writes I, y r = x r) {n r len : ℕ} (hr : r + len ≤ p.nRegs)
    (hsub : ∀ c ∈ (p.saveBefore true I n r len k).2, c ∈ e.before) {j : ℕ} (hj : j < len) :
    val ((p.saveBefore true I n r len k).1 + j) = x (r + j) := by
  unfold saveBefore checkpoint at hsub ⊢
  split at hsub
  · rename_i hw
    rw [if_pos hw]
    exact h.saved.before _ (hsub _ (List.mem_singleton_self _)) j hj
  · rename_i hw
    rw [if_neg hw]
    simp only [Bool.true_and, Bool.or_eq_true, Bool.and_eq_true, decide_eq_true_eq, not_or,
      Bool.not_eq_true] at hw
    obtain ⟨hown, hlater⟩ := hw
    rw [h.kept _ (by omega) (lastWrite_of_writtenLater hlater hj)]
    refine hframe _ fun hmem => hown ?_
    rw [mem_writes hcall] at hmem
    omega

end Saves

/-! ## An adjoint instruction and its forward instruction -/

/-- The adjoint instruction `J` of `I`: its cells are the cells of `I`'s registers, and it finds in
`val` what `I` found in `x` and left in `y`. -/
structure AdjOf (R : Registry) (p : IslandProg V) (k : ℕ) (I : Instr) (J : AdjInstr)
    (x y val : ℕ → V) : Prop where
  code : J.code = if I.code = .extremaRange then .const else I.code
  mask : J.mask = if I.code = .range then I.law else p.densityMask R k I
  sub : J.sub = I.sub
  bcast : J.bcast = I.bcast
  len : J.len = I.len
  dst : ∀ j < I.outputLen, p.adjCell R (I.dst + j) = J.dst + j
  operand : I.code ≠ .density → I.code ≠ .dynIndex → I.code ≠ .extremaRange →
    ∀ j < 3, I.reads j = true → ∀ i < I.inputLen j,
      p.adjCell R (I.operand j + i) = J.operand j + i
  ranged : I.code = .density → 3 < R.densityArity I.len → ∀ i < R.densityArity I.len,
    p.adjCell R (I.a + i) = J.a + i
  density : I.code = .density → R.densityArity I.len ≤ 3 → ∀ j,
    p.adjCell R (I.operand j) = J.operand j
  dynIndex : I.code = .dynIndex → ∀ i < I.len, p.adjCell R (I.a + I.c.toNat + i) = J.a + i
  value : ∀ j < 3, wantsOperand R I j = true → ∀ i < savedLen R I j,
    val (J.value j + i) = x (I.operand j + i)
  out : I.rule.has .saveOut = true → ∀ i < I.outputLen, val (J.vd + i) = y (I.dst + i)

omit [Field V] in
/-- What `emit` makes of an instruction that is no call. -/
lemma emit_cases {k n m : ℕ} {I : Instr} {e : Emitted} (hcall : p.callOf I = none)
    (he : p.emit R keep I k n m = some e) :
    (p.aliasable R I k = true ∧ e.adj = none) ∨
    (p.aliasable R I k = false ∧ p.producesAdjoint R keep I k = false ∧ e.adj = none) ∨
    (p.aliasable R I k = false ∧ p.producesAdjoint R keep I k = true ∧ ∃ dst cells,
      p.outputCell R I = some dst ∧ p.operandCells R I = some cells ∧
      e.before = (p.operandSaves R I k n).2 ∧
      e.after = (p.saveRange (I.rule.has .saveOut) (n + savedCells (p.operandSaves R I k n).2) I.dst
        I.outputLen k).2 ∧
      e.adj = some {
        code := if I.code = .extremaRange then .const else I.code
        mask := if I.code = .range then I.law else p.densityMask R k I
        sub := I.sub
        bcast := I.bcast
        dst := dst
        a := cells.1
        b := cells.2.1
        c := cells.2.2
        len := I.len
        vd := (p.saveRange (I.rule.has .saveOut) (n + savedCells (p.operandSaves R I k n).2) I.dst
          I.outputLen k).1
        va := (p.operandSaves R I k n).1.1
        vb := (p.operandSaves R I k n).1.2.1
        vc := (p.operandSaves R I k n).1.2.2 }) := by
  unfold emit at he
  simp only [hcall] at he
  split at he
  · rename_i hal
    obtain rfl : { instr := I } = e := by simpa using he
    exact Or.inl ⟨hal, rfl⟩
  · rename_i hal
    split at he
    · rename_i hprod
      obtain rfl : { before := (p.operandSaves R I k n).2, instr := I } = e := by simpa using he
      exact Or.inr (Or.inl ⟨by simpa using hal, by simpa using hprod, rfl⟩)
    · rename_i hprod
      simp only [Option.bind_eq_bind, Option.bind_eq_some_iff, Option.pure_def,
        Option.some.injEq] at he
      obtain ⟨dst, hdst, cells, hcells, rfl⟩ := he
      exact Or.inr (Or.inr ⟨by simpa using hal, by simpa using hprod, dst, cells, hdst, hcells, rfl,
        rfl, rfl⟩)

omit [Field V] in
/-- The cells `gen_adjoint` hands to an adjoint instruction. -/
lemma operandCells_spec {I : Instr} {cells : ℕ × ℕ × ℕ} (h : p.operandCells R I = some cells) :
    let cell : ℕ → ℕ := fun | 0 => cells.1 | 1 => cells.2.1 | _ => cells.2.2
    (I.code ≠ .density → I.code ≠ .dynIndex → I.code ≠ .extremaRange →
      ∀ j < 3, I.reads j = true → ∀ i < I.inputLen j,
        p.adjCell R (I.operand j + i) = cell j + i) ∧
    (I.code = .density → 3 < R.densityArity I.len → ∀ i < R.densityArity I.len,
      p.adjCell R (I.a + i) = cells.1 + i) ∧
    (I.code = .density → R.densityArity I.len ≤ 3 → ∀ j, p.adjCell R (I.operand j) = cell j) ∧
    (I.code = .dynIndex → ∀ i < I.len, p.adjCell R (I.a + I.c.toNat + i) = cells.1 + i) := by
  unfold operandCells at h
  split at h
  · rename_i hc
    split at h
    · rename_i hlt
      simp only [Option.bind_eq_bind, Option.bind_eq_some_iff, Option.pure_def,
        Option.some.injEq] at h
      obtain ⟨a, ha, rfl⟩ := h
      refine ⟨fun hne => absurd hc hne, fun _ _ i hi => mapRange_spec ha hi,
        fun _ hle => absurd hle (by omega), fun hd => absurd hd (by simp [hc])⟩
    · rename_i hle
      obtain rfl := Option.some.inj h
      refine ⟨fun hne => absurd hc hne, fun _ hlt => absurd hlt hle, fun _ _ j => ?_,
        fun hd => absurd hd (by simp [hc])⟩
      match j with
      | 0 => rfl
      | 1 => rfl
      | _ + 2 => rfl
  · rename_i hden
    split at h
    · rename_i hdyn
      simp only [Option.bind_eq_bind, Option.bind_eq_some_iff, Option.pure_def,
        Option.some.injEq] at h
      obtain ⟨a, ha, rfl⟩ := h
      exact ⟨fun _ hne => absurd hdyn hne, fun hc => absurd hc hden, fun hc => absurd hc hden,
        fun _ i hi => mapRange_spec ha hi⟩
    · rename_i hdyn
      refine ⟨fun _ _ hext => ?_, fun hc => absurd hc hden, fun hc => absurd hc hden,
        fun hc => absurd hc hdyn⟩
      split at h
      · simp only [Option.bind_eq_bind, Option.bind_eq_some_iff, Option.pure_def,
          Option.some.injEq] at h
        obtain ⟨a, ha, b, hb, c, hc, rfl⟩ := h
        intro j hj hread i hi
        match j with
        | 0 => exact mapRange_spec ha hi
        | 1 =>
          rw [hread] at hb
          exact mapRange_spec hb hi
        | 2 =>
          rw [hread] at hc
          exact mapRange_spec hc hi
      · rename_i hno
        simp only [Bool.and_eq_true, Bool.not_eq_true', decide_eq_true_eq, not_and,
          ne_eq] at hno
        intro j hj hread
        exfalso
        have hin : I.rule.has .noInputs = true := by
          by_contra hn
          exact hno (by simpa using hn) hext
        match j with
        | 0 => simp [Instr.reads, hin] at hread
        | 1 =>
          change I.rule.has .readB = true at hread
          revert hin hread
          cases I.rule <;> simp [Code.has, Code.flags]
        | 2 =>
          change I.rule.has .readC = true at hread
          revert hin hread
          cases I.rule <;> simp [Code.has, Code.flags]

omit [Field V] in
/-- Where `operandSaves` puts operand `j`. -/
lemma operandSaves_spec (I : Instr) (k n : ℕ) {j : ℕ} (hj : j < 3) :
    let at_ : ℕ → ℕ := fun
      | 0 => (p.operandSaves R I k n).1.1
      | 1 => (p.operandSaves R I k n).1.2.1
      | _ => (p.operandSaves R I k n).1.2.2
    ∃ m, at_ j =
        (p.saveBefore (wantsOperand R I j) I m (I.operand j) (savedLen R I j) k).1 ∧
      ∀ c ∈ (p.saveBefore (wantsOperand R I j) I m (I.operand j) (savedLen R I j) k).2,
        c ∈ (p.operandSaves R I k n).2 := by
  match j with
  | 0 => exact ⟨_, rfl, fun c hc => List.mem_append_left _ (List.mem_append_left _ hc)⟩
  | 1 => exact ⟨_, rfl, fun c hc => List.mem_append_left _ (List.mem_append_right _ hc)⟩
  | 2 => exact ⟨_, rfl, fun c hc => List.mem_append_right _ hc⟩

omit [Field V] in
/-- The cells of what an instruction writes. -/
lemma outputCell_spec {I : Instr} {dst : ℕ} (h : p.outputCell R I = some dst) {j : ℕ}
    (hj : j < I.outputLen) : p.adjCell R (I.dst + j) = dst + j := by
  unfold outputCell at h
  split at h
  · exact mapRange_spec h hj
  · obtain rfl := Option.some.inj h
    obtain rfl : j = 0 := by omega
    rfl

/-- The adjoint instruction emitted for an instruction that is no call. -/
lemma adjOf_of_emit (hd : Differentiated R p keep es) {k : ℕ} {I : Instr} {e : Emitted}
    {J : AdjInstr} (hI : p.code[k]? = some I) (he : es[k]? = some e) (hJ : e.adj = some J)
    (hcall : I.code ≠ .call) {s s' : File V S} (hex : p.exec M I s = .ok s') {val : ℕ → V}
    (h : Holds p e k s.reg s'.reg val) :
    p.aliasable R I k = false ∧ p.producesAdjoint R keep I k = true ∧
      AdjOf R p k I J s.reg s'.reg val := by
  obtain ⟨e', he', hemit⟩ := hd.emit hI
  obtain rfl : e = e' := Option.some.inj (he.symm.trans he')
  have hch := hd.checked hI
  rcases emit_cases (callOf_eq_none hcall) hemit with ⟨-, hnone⟩ | ⟨-, -, hnone⟩ |
    ⟨hal, hprod, dst, cells, hdst, hcells, hbefore, hafter, hadj⟩
  · simp [hJ] at hnone
  · simp [hJ] at hnone
  · obtain rfl := Option.some.inj (hJ.symm.trans hadj)
    have hlen : I.outputLen ≠ 0 := by
      intro hzero
      simp [producesAdjoint, hcall, hal, hzero] at hprod
    obtain ⟨h1, h2, h3, h4⟩ := operandCells_spec hcells
    refine ⟨hal, hprod, rfl, rfl, rfl, rfl, rfl, fun j hj => outputCell_spec hdst hj,
      fun hc hd hx j hj => ?_, h2, fun hc hle j => ?_, h4, fun j hj hw i hi => ?_,
      fun hout i hi => ?_⟩
    · interval_cases j
      · exact h1 hc hd hx 0 hj
      · exact h1 hc hd hx 1 hj
      · exact h1 hc hd hx 2 hj
    · rcases j with _ | _ | j
      · exact h3 hc hle 0
      · exact h3 hc hle 1
      · exact h3 hc hle (j + 2)
    · obtain ⟨m, hval, hsub⟩ := operandSaves_spec (R := R) (p := p) I k
        (regAt (p.trailEnd R keep) es k) hj
      rw [hw] at hval hsub
      have := h.before hcall (fun r hr => exec_frame hch.plain hex hr) (hch.wanted hcall hj hw)
        (fun c hc => hbefore ▸ hsub c hc) hi
      rw [← hval] at this
      interval_cases j <;> exact this
    · rw [hout] at hafter ⊢
      exact h.after (hch.output hcall hlen) (fun c hc => hafter ▸ hc) hi

/-! ## A bound call -/

/-- The payload `bound` of a differentiated `CALL`: its cells are the cells of the call's
registers. -/
structure CallCells (R : Registry) (p : IslandProg V) (call bound : Call) : Prop where
  shape : bound.shape = call.shape
  ins : bound.ins = call.ins
  out : bound.out = call.out
  scratch : bound.scratch = call.scratch
  backward : bound.backward = call.backward
  mask : bound.inputAdjointMask = call.inputAdjointMask
  valueLen : bound.bwdValueIn.length = call.ins.length
  adjIn : ∀ j s, call.ins[j]? = some s → ∀ i < s.len,
    p.adjCell R (s.reg + i) = bound.bwdAdjIn.getD j 0 + i
  adjOut : ∀ i < call.out.len, p.adjCell R (call.out.reg + i) = bound.bwdAdjOut + i

/-- Its ranges hold the values that the backward of the kernel may read. -/
structure CallOf (R : Registry) (p : IslandProg V) (call bound : Call) (x y val : ℕ → V) : Prop
    extends CallCells R p call bound where
  valueIn : ∀ j s, call.ins[j]? = some s → (R.callReads call).input j = true → ∀ i < s.len,
    val (bound.bwdValueIn.getD j 0 + i) = x (s.reg + i)
  valueOut : (R.callReads call).output = true → ∀ i < call.out.len,
    val (bound.bwdValueOut + i) = y (call.out.reg + i)
  valueScratch : ∀ r ∈ call.scratch.regs, val r = y r

omit [Field V] in
lemma mapM_getElem? {α β : Type*} {f : α → Option β} {l : List α} {bs : List β}
    (h : l.mapM f = some bs) {j : ℕ} {a : α} (ha : l[j]? = some a) :
    ∃ b, f a = some b ∧ bs[j]? = some b := by
  induction l generalizing j bs with
  | nil => simp at ha
  | cons a' l ih =>
    rw [List.mapM_cons] at h
    simp only [Option.bind_eq_bind, Option.bind_eq_some_iff, Option.pure_def,
      Option.some.injEq] at h
    obtain ⟨b, hb, bs, hbs, rfl⟩ := h
    cases j with
    | zero =>
      obtain rfl : a' = a := by simpa using ha
      exact ⟨b, hb, rfl⟩
    | succ j => exact ih hbs (by simpa using ha)

omit [Field V] in
/-- Where the inputs of a call are found. -/
lemma saveInputs_spec (reads : PrimalReads) (i : ℕ) (ss : List Span) (k n : ℕ) :
    (p.saveInputs reads i ss k n).length = ss.length ∧ ∀ j s, ss[j]? = some s → ∃ m,
      (p.saveInputs reads i ss k n)[j]? =
        some (p.saveRange (reads.input (k + j)) m s.reg s.len i) := by
  induction ss generalizing k n with
  | nil => exact ⟨rfl, fun j s hj => by simp at hj⟩
  | cons s ss ih =>
    obtain ⟨hlen, hget⟩ := ih (k + 1) (n + savedCells (p.saveRange (reads.input k) n s.reg s.len i).2)
    refine ⟨by simp [saveInputs, hlen], fun j s' hj => ?_⟩
    cases j with
    | zero =>
      obtain rfl : s = s' := by simpa using hj
      exact ⟨n, rfl⟩
    | succ j =>
      obtain ⟨m, hm⟩ := hget j s' (by simpa using hj)
      refine ⟨m, ?_⟩
      rw [show k + (j + 1) = k + 1 + j by omega]
      exact hm

omit [Field V] in
/-- What `emitCall` makes of a call. -/
lemma emitCall_spec {I : Instr} {i n m : ℕ} {call : Call} {e : Emitted}
    (h : p.emitCall R I i n m call = some e) : ∃ adjIn adjOut,
      call.ins.mapM (fun s => p.mapRange R s.reg s.len) = some adjIn ∧
      p.mapRange R call.out.reg call.out.len = some adjOut ∧
      (let saved := p.saveInputs (R.callReads call) i call.ins 0 n
       let before := saved.flatMap Prod.snd
       let out := p.saveRange (R.callReads call).output (n + savedCells before) call.out.reg
         call.out.len i
       e = {
        before := before
        instr := { I with a := m }
        after := out.2
        adj := some { code := .call, a := m }
        call := some { call with
          bwdValueIn := saved.map Prod.fst, bwdAdjIn := adjIn, bwdValueOut := out.1,
          bwdAdjOut := adjOut } }) := by
  simp only [emitCall, Option.bind_eq_bind, Option.bind_eq_some_iff, Option.pure_def,
    Option.some.injEq] at h
  obtain ⟨adjIn, hadjIn, adjOut, hadjOut, rfl⟩ := h
  exact ⟨adjIn, adjOut, hadjIn, hadjOut, rfl⟩

/-- The payload bound for a `CALL` has the cells of the call's registers. -/
lemma callCells_of_emit (hd : Differentiated R p keep es) {k : ℕ} {I : Instr} {e : Emitted}
    {call : Call} (hI : p.code[k]? = some I) (he : es[k]? = some e)
    (hcall : p.callOf I = some call) : ∃ bound,
      e.adj = some { code := .call, a := callAt es k } ∧ e.call = some bound ∧
      (p.assemble R keep es).calls[callAt es k]? = some bound ∧ CallCells R p call bound := by
  obtain ⟨e', he', hemit⟩ := hd.emit hI
  obtain rfl : e = e' := Option.some.inj (he.symm.trans he')
  unfold emit at hemit
  simp only [hcall] at hemit
  obtain ⟨adjIn, adjOut, hadjIn, hadjOut, rfl⟩ := emitCall_spec hemit
  refine ⟨_, rfl, rfl, callAt_getElem? he rfl, rfl, rfl, rfl, rfl, rfl, rfl, ?_,
    fun j s hj i hi => ?_, fun i hi => mapRange_spec hadjOut hi⟩
  · simp [(saveInputs_spec (p := p) (R.callReads call) k call.ins 0 _).1]
  · obtain ⟨b, hb, hj'⟩ := mapM_getElem? hadjIn hj
    rw [List.getD_eq_getElem?_getD, hj']
    exact mapRange_spec hb hi

/-- The payload bound for a `CALL`. -/
lemma callOf_of_emit (hd : Differentiated R p keep es) {k : ℕ} {I : Instr} {e : Emitted} {call : Call}
    (hI : p.code[k]? = some I) (he : es[k]? = some e) (hcall : p.callOf I = some call)
    {x y val : ℕ → V} (h : Holds p e k x y val)
    (hins : ∀ s ∈ call.ins, ∀ r ∈ s.regs, y r = x r)
    (hscratch : ∀ r ∈ call.scratch.regs, p.lastWrite r ≤ k) :
    ∃ bound, e.adj = some { code := .call, a := callAt es k } ∧
      (p.assemble R keep es).calls[callAt es k]? = some bound ∧ CallOf R p call bound x y val := by
  obtain ⟨e', he', hemit⟩ := hd.emit hI
  obtain rfl : e = e' := Option.some.inj (he.symm.trans he')
  have hch := hd.checked hI
  obtain ⟨hcode, hget⟩ := code_of_callOf hcall
  obtain ⟨call', hget', -, -, hout, hscr, hin⟩ := hch.call hcode
  obtain rfl : call = call' := Option.some.inj (hget.symm.trans hget')
  obtain ⟨bound, hadj, hbound, hq, hcells⟩ := callCells_of_emit hd hI he hcall
  unfold emit at hemit
  simp only [hcall] at hemit
  obtain ⟨adjIn, adjOut, -, -, rfl⟩ := emitCall_spec hemit
  obtain rfl := Option.some.inj hbound
  refine ⟨_, hadj, hq, hcells, fun j s hj hread i hi => ?_, fun hread i hi => ?_, fun r hr => ?_⟩
  · obtain ⟨m, hm⟩ := (saveInputs_spec (p := p) (R.callReads call) k call.ins 0
      (regAt (p.trailEnd R keep) es k)).2 j s hj
    rw [Nat.zero_add, hread] at hm
    rw [List.getD_eq_getElem?_getD, List.getElem?_map, hm]
    refine h.input (hin s (List.mem_of_getElem? hj)) (fun i hi => ?_) (fun c hc => ?_) hi
    · exact hins s (List.mem_of_getElem? hj) _ (Span.mem_regs.2 ⟨by omega, by omega⟩)
    · exact List.mem_flatMap.2 ⟨_, List.mem_of_getElem? hm, hc⟩
  · dsimp only
    rw [hread]
    refine h.after hout (fun c hc => ?_) hi
    dsimp only
    rw [hread]
    exact hc
  · refine h.kept r ?_ (hscratch r hr)
    rw [Span.mem_regs] at hr
    have := hscr (by omega)
    omega

end IslandProg

end Stanli
