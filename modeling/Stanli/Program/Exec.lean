import Stanli.Program.Checked

/-!
# What one instruction does

For the instructions of an accepted program: `exec` changes the registers the instruction writes and
no others (`exec_frame`), and a division leaves the quotient of what it found (`exec_div`,
`exec_rangeDiv`).
-/

namespace Stanli

open Program

namespace Program

/-- Two results are alike: the same error, or related values. -/
def Alike {ε α β : Type*} (Q : α → β → Prop) : Except ε α → Except ε β → Prop
  | .ok a, .ok b => Q a b
  | .error e, .error e' => e = e'
  | _, _ => False

lemma Alike.map {ε α β γ δ : Type*} {Q : α → β → Prop} {Q' : γ → δ → Prop} {f : α → γ} {g : β → δ}
    {r : Except ε α} {r' : Except ε β} (h : Alike Q r r') (hf : ∀ a b, Q a b → Q' (f a) (g b)) :
    Alike Q' (r.map f) (r'.map g) := by
  cases r <;> cases r' <;> first | exact h | exact hf _ _ h

lemma Alike.mono {ε α β : Type*} {Q Q' : α → β → Prop} {r : Except ε α} {r' : Except ε β}
    (h : Alike Q r r') (hQ : ∀ a b, Q a b → Q' a b) : Alike Q' r r' := by
  cases r <;> cases r' <;> first | exact h | exact hQ _ _ h

lemma Alike.refl {ε α : Type*} {Q : α → α → Prop} (hQ : ∀ a, Q a a) (r : Except ε α) :
    Alike Q r r := by
  cases r with
  | error e => rfl
  | ok a => exact hQ a

variable {V E S : Type*}

/-! ## Loops over registers -/

lemma writeLoop_succ (f : ℕ → (ℕ → V) → Except E V) (dst n : ℕ) (reg : ℕ → V) :
    writeLoop f dst (n + 1) reg = (writeLoop f dst n reg).bind fun reg =>
      (f n reg).map (Function.update reg (dst + n)) := by
  rw [writeLoop, List.range_succ, List.foldlM_append]
  cases h : writeLoop f dst n reg with
  | error e =>
    rw [writeLoop] at h
    rw [h]
    rfl
  | ok reg' =>
    rw [writeLoop] at h
    rw [h]
    change List.foldlM (fun reg k => (f k reg).map (Function.update reg (dst + k))) reg' [n] = _
    rw [List.foldlM_cons]
    change _ = (f n reg').map (Function.update reg' (dst + n))
    cases (f n reg') <;> rfl

/-- A loop writes its run of registers only. -/
lemma writeLoop_frame {f : ℕ → (ℕ → V) → Except E V} {dst n : ℕ} {reg reg' : ℕ → V}
    (h : writeLoop f dst n reg = .ok reg') {r : ℕ} (hr : r < dst ∨ dst + n ≤ r) :
    reg' r = reg r := by
  induction n generalizing reg' with
  | zero =>
    obtain rfl : reg = reg' := by simpa [writeLoop, pure, Except.pure] using h
    rfl
  | succ n ih =>
    rw [writeLoop_succ] at h
    cases hn : writeLoop f dst n reg with
    | error e =>
      rw [hn] at h
      exact absurd h (by simp [Except.bind])
    | ok mid =>
      rw [hn] at h
      cases hv : f n mid with
      | error e => simp [Except.bind, Except.map, hv] at h
      | ok v =>
        obtain rfl : Function.update mid (dst + n) v = reg' := by
          simpa [Except.bind, Except.map, hv] using h
        rw [Function.update_of_ne (by omega), ih hn (by omega)]

/-- Loops whose elements are computed alike from the registers in `D` end alike, also in what they
write. -/
lemma writeLoop_agree {D : ℕ → Prop} {f g : ℕ → (ℕ → V) → Except E V} {dst n : ℕ}
    (hfg : ∀ k < n, ∀ x y : ℕ → V, (∀ r, D r → x r = y r) → f k x = g k y) {x y : ℕ → V}
    (hxy : ∀ r, D r → x r = y r) :
    Alike (fun x' y' => ∀ r, D r ∨ (dst ≤ r ∧ r < dst + n) → x' r = y' r) (writeLoop f dst n x)
      (writeLoop g dst n y) := by
  induction n with
  | zero => exact fun r hr => hxy r (hr.resolve_right (by omega))
  | succ n ih =>
    rw [writeLoop_succ, writeLoop_succ]
    have hn := ih fun k hk => hfg k (by omega)
    cases hx : writeLoop f dst n x with
    | error e =>
      cases hy : writeLoop g dst n y with
      | error e' =>
        rw [hx, hy] at hn
        exact hn
      | ok y' =>
        rw [hx, hy] at hn
        exact hn.elim
    | ok x' =>
      cases hy : writeLoop g dst n y with
      | error e' =>
        rw [hx, hy] at hn
        exact hn.elim
      | ok y' =>
        rw [hx, hy] at hn
        change Alike _ ((f n x').map _) ((g n y').map _)
        rw [hfg n (Nat.lt_succ_self n) x' y' fun r hr => hn r (Or.inl hr)]
        refine (Alike.refl (Q := Eq) (fun _ => rfl) (g n y')).map ?_
        rintro v _ rfl r hr
        unfold Function.update
        split
        · rfl
        · exact hn r (hr.imp_right (by omega))

/-- When no element reads a register the loop wrote before it, every element is computed from the
registers in front of the loop. -/
lemma writeLoop_value {f : ℕ → (ℕ → V) → Except E V} {dst n : ℕ}
    (hf : ∀ k < n, ∀ x y : ℕ → V, (∀ r, (r < dst ∨ dst + k ≤ r) → x r = y r) → f k x = f k y)
    {reg reg' : ℕ → V} (h : writeLoop f dst n reg = .ok reg') {k : ℕ} (hk : k < n) :
    f k reg = .ok (reg' (dst + k)) := by
  induction n generalizing reg' with
  | zero => exact absurd hk (Nat.not_lt_zero k)
  | succ n ih =>
    rw [writeLoop_succ] at h
    cases hn : writeLoop f dst n reg with
    | error e =>
      rw [hn] at h
      exact absurd h (by simp [Except.bind])
    | ok mid =>
      rw [hn] at h
      cases hv : f n mid with
      | error e => simp [Except.bind, Except.map, hv] at h
      | ok v =>
        obtain rfl : Function.update mid (dst + n) v = reg' := by
          simpa [Except.bind, Except.map, hv] using h
        rcases Nat.lt_succ_iff_lt_or_eq.1 hk with hlt | rfl
        · rw [Function.update_of_ne (by omega)]
          exact ih (fun k hk => hf k (by omega)) hn hlt
        · rw [Function.update_self, ← hv]
          refine hf k hk reg mid fun r hr => ?_
          exact (writeLoop_frame hn (by omega)).symm

lemma writeRun_of_notMem (reg : ℕ → V) {dst : ℕ} {vs : List V} {r : ℕ}
    (h : r < dst ∨ dst + vs.length ≤ r) : writeRun reg dst vs r = reg r := by
  unfold writeRun
  split
  · rw [List.getElem?_eq_none (by omega)]
    rfl
  · rfl

/-! ## The kinds of instructions -/

/-- The instructions that compute one value from the values of `a`, `b` and `c`. -/
def Code.isScalar (code : Code) : Bool := code.elementwise || code.isDiscrete

/-- The instructions an accepted program is made of. -/
inductive Instr.Kind (I : Instr) : Prop
  | scalar (h : I.code.isScalar = true)
  | const (h : I.code = .const)
  | fill (h : I.code = .fill)
  | constr (h : I.code = .constr)
  | mov (h : I.code = .mov)
  | movr (h : I.code = .movr)
  | dynIndex (h : I.code = .dynIndex)
  | extremaRange (h : I.code = .extremaRange)
  | jz (h : I.code = .jz)
  | jmp (h : I.code = .jmp)
  | logRange (h : I.code = .logRange)
  | expRange (h : I.code = .expRange)
  | dot (h : I.code = .dot)
  | lseRange (h : I.code = .lseRange)
  | softmax (h : I.code = .softmax)
  | density (h : I.code = .density)
  | call (h : I.code = .call)
  | reject (h : I.code = .reject)
  | range (h : I.code = .range)

lemma Instr.isPlain.kind {I : Instr} (h : I.isPlain) : I.Kind := by
  have hrule : I.code ≠ .range → I.rule = I.code := fun hc => if_neg hc
  unfold Instr.isPlain Instr.isJump at h
  cases hc : I.code with
  | const => exact .const hc
  | fill => exact .fill hc
  | constr => exact .constr hc
  | mov => exact .mov hc
  | movr => exact .movr hc
  | dynIndex => exact .dynIndex hc
  | extremaRange => exact .extremaRange hc
  | jz => exact .jz hc
  | jmp => exact .jmp hc
  | logRange => exact .logRange hc
  | expRange => exact .expRange hc
  | dot => exact .dot hc
  | lseRange => exact .lseRange hc
  | softmax => exact .softmax hc
  | density => exact .density hc
  | call => exact .call hc
  | reject => exact .reject hc
  | range => exact .range hc
  | dynSet | dynLseRange | diagPreMultiply | diagPostMultiply | mdivideLeft | mdivideRightSpd
  | transform | print | densityVec | path =>
    rw [hrule (by simp [hc]), hc] at h
    simp [Code.has, Code.flags] at h
  | _ => exact .scalar (by rw [hc]; rfl)

lemma Code.isScalar.outputLen {I : Instr} (h : I.code.isScalar = true) : I.outputLen = 1 := by
  cases hc : I.code <;> rw [hc] at h <;>
    first | exact absurd h (by decide) | simp [Instr.outputLen, hc, Code.has, Code.flags]

variable [Field V]

lemma exec_of_isScalar (M : StanMath V E S) (p : Program V) {I : Instr}
    (h : I.code.isScalar = true) (s : File V S) : p.exec M I s =
      (M.scalar I.code I.len (s.reg I.a) (s.reg I.b) (s.reg I.c.toNat)).map (s.set I.dst) := by
  cases hc : I.code <;> rw [hc] at h <;> first | exact absurd h (by decide) | simp only [exec, hc]

lemma map_eq_ok {ε α β : Type*} {f : α → β} {r : Except ε α} {b : β} (h : r.map f = .ok b) :
    ∃ a, r = .ok a ∧ f a = b := by
  cases r with
  | error e => exact absurd h (by simp [Except.map])
  | ok a => exact ⟨a, rfl, by simpa [Except.map] using h⟩

omit [Field V] in
lemma mem_writes {p : Program V} {I : Instr} (h : I.code ≠ .call) {r : ℕ} :
    r ∈ p.writes I ↔ I.dst ≤ r ∧ r < I.dst + I.outputLen := by
  rw [writes, if_neg h, Span.mem_regs]

/-- The length of what an instruction writes, by its kind. -/
lemma Instr.Kind.outputLen {I : Instr} (h : I.Kind) : I.outputLen =
    if I.code ∈ [Code.jz, .jmp, .reject] then 0
    else if I.code ∈ [Code.fill, .constr, .movr, .logRange, .expRange, .softmax, .range] then I.len
    else 1 := by
  cases h with
  | scalar h =>
    rw [Code.isScalar.outputLen h]
    cases hc : I.code <;> rw [hc] at h <;> first | exact absurd h (by decide) | rfl
  | _ h => simp [Instr.outputLen, h, Code.has, Code.flags]

end Program

namespace IslandProg

variable {V E S : Type*} [Field V] {R : Registry} {p : IslandProg V} {pc : ℕ} {I : Instr}

/-- An instruction changes only what it writes. -/
lemma exec_frame (hI : I.isPlain) {M : StanMath V E S} {s s' : File V S}
    (h : p.exec M I s = .ok s') {r : ℕ} (hr : r ∉ p.writes I) : s'.reg r = s.reg r := by
  have hone : I.outputLen = 1 → I.code ≠ .call → ∀ v, (s.set I.dst v).reg r = s.reg r := by
    intro hlen hc v
    rw [mem_writes hc, hlen] at hr
    exact Function.update_of_ne (by omega) ..
  have hrun : ∀ {reg}, I.outputLen = I.len → I.code ≠ .call → ∀ f,
      writeLoop f I.dst I.len s.reg = Except.ok (ε := E) reg → reg r = s.reg r := by
    intro reg hlen hc f hw
    rw [mem_writes hc, hlen] at hr
    exact writeLoop_frame hw (by omega)
  have hkind := hI.kind
  have hlen := hkind.outputLen
  cases hkind with
  | scalar hc =>
    rw [exec_of_isScalar M _ hc] at h
    obtain ⟨v, -, rfl⟩ := map_eq_ok h
    refine hone (Code.isScalar.outputLen hc) ?_ v
    rintro hcall
    rw [hcall] at hc
    exact absurd hc (by decide)
  | const hc | mov hc | dot hc | dynIndex hc | extremaRange hc | lseRange hc | density hc =>
    simp only [exec, hc] at h
    obtain ⟨v, -, rfl⟩ := map_eq_ok h
    exact hone (by simpa [hc] using hlen) (by simp [hc]) v
  | fill hc =>
    simp only [exec, hc] at h
    obtain ⟨v, hv, rfl⟩ := map_eq_ok h
    injection hv with hv
    rw [mem_writes (by simp [hc]), hlen] at hr
    rw [← hv]
    exact writeRun_of_notMem _ (by simp [hc] at hr ⊢; omega)
  | constr hc | movr hc | logRange hc | expRange hc | softmax hc =>
    simp only [exec, hc] at h
    obtain ⟨v, hv, rfl⟩ := map_eq_ok h
    exact hrun (by simpa [hc] using hlen) (by simp [hc]) _ hv
  | jz hc | jmp hc =>
    simp only [exec, hc] at h
    injection h with h
    rw [h]
  | call hc =>
    simp only [exec, hc] at h
    cases hcall : p.calls[I.a]? with
    | none => simp [hcall] at h
    | some call =>
      simp only [hcall] at h
      cases hf : call.forward with
      | none => simp [hf] at h
      | some f =>
        simp only [hf] at h
        obtain ⟨v, -, rfl⟩ := map_eq_ok h
        simp only [writes, hc, if_true, hcall, List.mem_append, Span.mem_regs] at hr
        change writeRun (writeRun s.reg _ _) _ _ r = s.reg r
        rw [writeRun_of_notMem _ (by rw [List.length_take]; omega),
          writeRun_of_notMem _ (by rw [List.length_take]; omega)]
  | reject hc =>
    simp only [exec, hc] at h
    cases hm : p.messages[I.a]? <;> simp [hm] at h
  | range hc =>
    simp only [exec, hc] at h
    split at h
    · obtain ⟨v, hv, rfl⟩ := map_eq_ok h
      exact hrun (by simpa [hc] using hlen) (by simp [hc]) _ hv
    · exact absurd h (by simp)

omit [Field V] in
/-- The spans an instruction reads lie in the file. -/
lemma Checked.span (h : p.Checked R pc I) (hc : I.code ≠ .dynIndex) (hcall : I.code ≠ .call)
    (hden : I.code ≠ .density) {k : ℕ} (hk : k < 3) (hread : I.reads k = true) :
    I.operand k + I.inputLen k ≤ p.nRegs :=
  h.spans hc hcall (by simp [Instr.isRangedDensity, hden]) k hk hread

omit [Field V] in
/-- The operand registers of an instruction with inputs lie in the file. -/
lemma Checked.operand (h : p.Checked R pc I) (hc : I.code ≠ .dynIndex) (hcall : I.code ≠ .call)
    (hr : I.isRangedDensity R = false) (hno : I.rule.has .noInputs = false) (k : ℕ) :
    I.operand k < p.nRegs := by
  obtain ⟨ha, hb, hc'⟩ := h.operands hc hcall hr hno
  match k with
  | 0 => exact ha
  | 1 => exact hb
  | _ + 2 => exact hc'

omit [Field V] in
lemma densityArgs_below (h : p.Checked R pc I) (hc : I.code = .density) :
    ∀ r ∈ I.densityArgs R, r < p.nRegs := by
  intro r hr
  unfold Instr.densityArgs at hr
  split at hr
  · rename_i hlt
    have := h.ranged (by simp [Instr.isRangedDensity, hc, hlt])
    rw [Span.mem_regs] at hr
    change I.a ≤ r ∧ r < I.a + R.densityArity I.len at hr
    omega
  · rename_i hle
    obtain ⟨k, -, rfl⟩ := List.mem_map.1 hr
    exact h.operand (by simp [hc]) (by simp [hc]) (by simp [Instr.isRangedDensity, hle])
      (by simp [Instr.rule, hc, Code.has, Code.flags]) k

/-! ## What a run knows of its instructions -/

/-- A division leaves the quotient of what it found. -/
lemma exec_div {M : StanMath V E S} {s s' : File V S} (hc : I.code = .div)
    (h : p.exec M I s = .ok s') : s'.reg I.dst = s.reg I.a / s.reg I.b := by
  rw [exec_of_isScalar M _ (by rw [hc]; rfl), hc] at h
  obtain ⟨v, hv, rfl⟩ := map_eq_ok h
  obtain rfl := Except.ok.inj hv
  exact Function.update_self ..

/-- A run of the elementwise rules that it does not fail on. -/
lemma exec_range {M : StanMath V E S} {s s' : File V S} (hc : I.code = .range)
    (h : p.exec M I s = .ok s') : I.sub.elementwise = true := by
  simp only [exec, hc] at h
  by_contra hsub
  rw [if_neg hsub] at h
  exact nomatch h

omit [Field V] in
/-- An element of an operand of a range lies outside what the range writes, or moves along with it. -/
lemma Checked.rangeOperand (hch : p.Checked R pc I) (hc : I.code = .range) {k : ℕ} (hk : k < 3)
    (hread : I.reads k = true) {i : ℕ} (hi : i < I.len) :
    I.operand k + I.stride k * i < I.dst ∨ I.dst + I.len ≤ I.operand k + I.stride k * i ∨
      I.operand k + I.stride k * i = I.dst + i := by
  have hran : I.isRangedDensity R = false := by simp [Instr.isRangedDensity, hc]
  have hout : I.outputLen = I.len := if_pos hc
  have hin : I.inputLen k = if I.bcast.testBit k then 1 else I.len := if_pos hc
  rcases lt_or_ge 1 (I.inputLen k) with hwide | hnarrow
  · have hone : I.stride k = 1 := if_pos ⟨Or.inr hread, hwide⟩
    have hlen : I.inputLen k = I.len := by
      rw [hin] at hwide ⊢
      split at hwide
      · omega
      · rename_i hb
        rw [if_neg hb]
    have hdis := hch.disjoint (by simp [hc]) (by simp [hc]) hran k hk hread hwide
    rw [hout, hlen] at hdis
    rw [hone]
    omega
  · have hzero : I.stride k = 0 := if_neg fun h => absurd h.2 (by omega)
    have hone : I.inputLen k = 1 := by
      rw [hin] at hnarrow ⊢
      split at hnarrow
      · rename_i hb
        rw [if_pos hb]
      · rename_i hb
        rw [if_neg hb]
        omega
    have hbr := hch.broadcast hc k hk hread hone
    rw [hout] at hbr
    rw [hzero]
    omega

/-- An elementwise division leaves the quotients of what it found. -/
lemma exec_rangeDiv (hch : p.Checked R pc I) {M : StanMath V E S} {s s' : File V S}
    (hc : I.code = .range) (hsub : I.sub = .div) (h : p.exec M I s = .ok s') {i : ℕ}
    (hi : i < I.len) : s'.reg (I.dst + i) =
      s.reg (I.a + I.stride 0 * i) / s.reg (I.b + I.stride 1 * i) := by
  simp only [exec, hc, if_pos (exec_range hc h)] at h
  obtain ⟨reg, hw, rfl⟩ := map_eq_ok h
  have hread0 : I.reads 0 = true := by simp [Instr.reads, Instr.rule, hc, hsub, Code.has, Code.flags]
  have hread1 : I.reads 1 = true := by simp [Instr.reads, Instr.rule, hc, hsub, Code.has, Code.flags]
  have := writeLoop_value (fun j hj u v huv => ?_) hw hi
  · rw [hsub] at this
    exact (Except.ok.inj this).symm
  · have ha := hch.rangeOperand hc (k := 0) (by omega) hread0 hj
    have hb := hch.rangeOperand hc (k := 1) (by omega) hread1 hj
    simp only [Instr.operand] at ha hb
    rw [hsub]
    change Except.ok _ = Except.ok _
    rw [huv _ (by omega), huv _ (by omega)]

/-- An index that did not fail is one of the elements. -/
lemma exec_dynIndex (hch : p.Checked R pc I) {M : StanMath V E S} {s s' : File V S}
    (hc : I.code = .dynIndex) (h : p.exec M I s = .ok s') :
    (M.toInt (s.reg I.b) - 1).toNat < I.len := by
  have hpos := (hch.dynIndex hc).1
  simp only [exec, hc] at h
  obtain ⟨v, hv, -⟩ := map_eq_ok h
  obtain ⟨n, hn, -⟩ := map_eq_ok hv
  unfold StanMath.index at hn
  split at hn
  · rename_i hidx
    simp only [Bool.and_eq_true, decide_eq_true_eq] at hidx
    omega
  · exact nomatch hn

end IslandProg

end Stanli
