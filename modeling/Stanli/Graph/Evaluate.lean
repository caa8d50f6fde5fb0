import Stanli.Graph.Preserve

/-!
# Binding an executor

What a freshly bound executor holds (`Graph.arena`): zeros, the fills in order, and the parameters.
Ops without effects run on the arena alone (`pureOp`); `Op.rename` moves an op to other slots, as the
passes that build a graph of their own do, and running renamed ops is running the ops.
-/

namespace Stanli

variable {U V S W : Type*}

/-! ## Fills -/

/-- Write the fills into an arena, in order. -/
def Fills.apply (fills : Fills V) (m : Arena V) : Arena V :=
  fills.foldl (fun m f => Function.update m f.1 fun e => f.2[e]?.getD (m f.1 e)) m

/-- The values a freshly bound executor starts an evaluation from. -/
def Graph.arena [Zero V] (g : Graph U) (fills : Fills V) (θ : Arena V) : Arena V :=
  fun s => if g.isParam s then θ s else Fills.apply fills (fun _ _ => 0) s

/-- A slot's contents depend on its own fills. -/
lemma Fills.apply_congr {fills fills' : Fills V} {m m' : Arena V} {s s' : ℕ}
    (hfills : (fills.filter (·.1 = s)).map Prod.snd = (fills'.filter (·.1 = s')).map Prod.snd)
    (hm : m s = m' s') : Fills.apply fills m s = Fills.apply fills' m' s' := by
  have key : ∀ (fills : Fills V) (m : Arena V) (s : ℕ), Fills.apply fills m s =
      ((fills.filter (·.1 = s)).map Prod.snd).foldl
        (fun buf xs e => xs[e]?.getD (buf e)) (m s) := by
    intro fills
    induction fills with
    | nil => exact fun m s => rfl
    | cons f fills ih =>
      intro m s
      have hcons : Fills.apply (f :: fills) m =
          Fills.apply fills (Function.update m f.1 fun e => f.2[e]?.getD (m f.1 e)) := rfl
      rw [hcons, ih]
      by_cases hf : f.1 = s
      · subst hf
        simp
      · simp [hf, Function.update_of_ne (Ne.symm hf)]
  rw [key, key, hfills, hm]

/-- A slot whose fills all say the same holds it. -/
lemma Fills.apply_of_forall {fills : Fills V} {m : Arena V} {s e : ℕ} {x : V}
    (h : ∀ f ∈ fills, f.1 = s → f.2[e]? = some x) (hex : (∃ f ∈ fills, f.1 = s) ∨ m s e = x) :
    Fills.apply fills m s e = x := by
  induction fills generalizing m with
  | nil => exact hex.resolve_left fun ⟨f, hf, _⟩ => by simp at hf
  | cons f fills ih =>
    refine @ih (Function.update m f.1 fun e => f.2[e]?.getD (m f.1 e))
      (fun f hf => h f (by simp [hf])) ?_
    by_cases hf : f.1 = s
    · refine .inr ?_
      rw [hf, Function.update_self, h f (by simp) hf]
      rfl
    · rcases hex with ⟨f', hf', hs⟩ | hx
      · rcases List.mem_cons.1 hf' with rfl | hmem
        · exact absurd hs hf
        · exact .inl ⟨f', hmem, hs⟩
      · refine .inr ?_
        rw [Function.update_of_ne (Ne.symm hf)]
        exact hx

/-! ## Ops without effects -/

/-- One op without effects, on the arena alone. -/
def pureOp (K : Kernels U V S W) (b : Binding) (op : Op U) (m : Arena V) :
    Except String (Arena V × LogEntry V S) :=
  match op.routed b m with
  | some buf => .ok (Function.update m (b.home op.out) buf, ⟨op.shown b m, none⟩)
  | none =>
    (K.forward op.call (b.len op.out) ((op.out2.map b.len).getD 0)
      (op.ins.map (b.read m))).map fun r =>
        (op.store b r.out r.out2 m, ⟨op.shown b m, some r.scratch⟩)

/-- The forward sweep over ops without effects. -/
def pureMachine (K : Kernels U V S W) (b : Binding) :
    Machine (Op U) (Arena V) (LogEntry V S) String where
  step := pureOp K b

lemma forwardOp_pure {K : Kernels U V S W} {b : Binding} {op : Op U}
    (hp : op.primalSource = none) (he : K.hasEffect op.call = false) (m : Arena V) (w : W)
    (sh : ℕ → Option (Option S)) : forwardOp K b op ⟨m, w, sh⟩ =
      (pureOp K b op m).map fun r => (⟨r.1, w, sh⟩, r.2) := by
  unfold pureOp
  cases hr : op.routed b m with
  | some buf => rw [forwardOp_routed hp hr, Except.map]
  | none =>
    simp only [forwardOp, Op.cached_eq_false hp, hr, Kernels.call, he, Op.share_of_noPrimal hp]
    cases K.forward op.call (b.len op.out) ((op.out2.map b.len).getD 0)
      (op.ins.map (b.read m)) <;> rfl

/-- Without effects a sweep runs on the arena alone. -/
lemma forwardMachine_run_pure {K : Kernels U V S W} {b : Binding} {ops : List (Op U)}
    (hp : ∀ op ∈ ops, op.primalSource = none) (he : ∀ op ∈ ops, K.hasEffect op.call = false)
    (m : Arena V) (w : W) (sh : ℕ → Option (Option S)) :
    (forwardMachine K b).run ops ⟨m, w, sh⟩ =
      ⟨⟨((pureMachine K b).run ops m).state, w, sh⟩, ((pureMachine K b).run ops m).log,
        ((pureMachine K b).run ops m).error⟩ := by
  induction ops generalizing m with
  | nil => rfl
  | cons op ops ih =>
    have hstep : (forwardMachine K b).step op ⟨m, w, sh⟩ =
        (pureOp K b op m).map fun r => (⟨r.1, w, sh⟩, r.2) :=
      forwardOp_pure (hp op (by simp)) (he op (by simp)) m w sh
    cases hop : pureOp K b op m with
    | error e =>
      rw [hop] at hstep
      rw [Machine.run_cons_error hstep, Machine.run_cons_error (M := pureMachine K b) hop]
    | ok r =>
      rw [hop] at hstep
      rw [Machine.run_cons_ok hstep, Machine.run_cons_ok (M := pureMachine K b) hop,
        ih (fun o ho => hp o (by simp [ho])) (fun o ho => he o (by simp [ho]))]

/-- An op that does not write a slot leaves it alone. -/
lemma pureOp_frame {K : Kernels U V S W} {b : Binding} (hhome : b.home = id) {op : Op U}
    {m m' : Arena V} {o : LogEntry V S} (h : pureOp K b op m = .ok (m', o)) {s : ℕ}
    (hs : s ∉ op.outs) : m' s = m s := by
  unfold pureOp at h
  cases hr : op.routed b m with
  | some buf =>
    rw [hr] at h
    simp only [Except.ok.injEq, Prod.mk.injEq] at h
    obtain ⟨rfl, -⟩ := h
    rw [hhome]
    exact Function.update_of_ne (fun heq => hs (by simp [heq])) _ _
  | none =>
    rw [hr] at h
    cases hk : K.forward op.call (b.len op.out) ((op.out2.map b.len).getD 0)
      (op.ins.map (b.read m)) with
    | error e =>
      rw [hk] at h
      cases h
    | ok r =>
      rw [hk] at h
      simp only [Except.map, Except.ok.injEq, Prod.mk.injEq] at h
      obtain ⟨rfl, -⟩ := h
      exact op.store_apply_of_notMem (fun t _ => congrFun hhome t) hs

/-- What no op of a list writes is what it was. -/
lemma pureMachine_run_frame {K : Kernels U V S W} {b : Binding} (hhome : b.home = id)
    {ops : List (Op U)} {s : ℕ} (hs : ∀ op ∈ ops, s ∉ op.outs) (m : Arena V) :
    ((pureMachine K b).run ops m).state s = m s := by
  refine Machine.run_invariant (P := fun (m' : Arena V) => m' s = m s) rfl fun op hop m₁ m₂ o h hstep => ?_
  rw [pureOp_frame hhome hstep (hs op hop), h]

/-! ## The value of an op -/

/-- What an op that does not write in place computes from what it reads: its output, and its
scratch if it has one. -/
def Op.value [Zero V] (K : Kernels U V S W) (op : Op U) (outLen : ℕ) (ins : List (List V)) :
    Except String ((ℕ → V) × Option S) :=
  let cell (k e : ℕ) : V := (ins.getD k []).getD e 0
  let comb := op.comb (ins.getD 1 []).length
  if op.opcode = .index then .ok (fun _ => cell 0 (op.imm 0).toNat, none)
  else if op.opcode.isCopyingStore then
    .ok (writeComb comb.1 comb.2.1 comb.2.2 (cell 1) (cell 0), none)
  else (K.forward op.call outLen 0 ins).map fun r => (r.out, some r.scratch)

/-- Ops that make the same call compute the same. -/
lemma Op.value_congr [Zero V] (K : Kernels U V S W) {op op' : Op U} (h : op'.call = op.call) :
    op'.value K = op.value K := by
  have hoc : op'.opcode = op.opcode := congrArg KernelCall.opcode h
  have himm : ∀ k, op'.imm k = op.imm k := fun k => by
    unfold Op.imm
    rw [show op'.idata = op.idata from congrArg KernelCall.idata h]
  funext n ins
  simp only [Op.value, Op.comb, hoc, himm, h]

/-- The cells of a slot, as read. -/
lemma Binding.getD_read [Zero V] {b : Binding} {op : Op U} {m : Arena V} {k e : ℕ}
    (hk : k < op.ins.length) (he : e < b.len (op.input k)) :
    (((op.ins.map (b.read m)).getD k []).getD e 0) = m (b.home (op.input k)) e := by
  have hin : op.input k = op.ins[k] := by rw [Op.input, List.getD_eq_getElem _ _ hk]
  have hl : (op.ins.map (b.read m)).getD k [] = b.read m (op.input k) := by
    rw [List.getD_eq_getElem _ _ (by simpa using hk), List.getElem_map, ← hin]
  rw [hl, List.getD_eq_getElem _ _ (by simpa [Binding.read] using he)]
  simp [Binding.read]

lemma Binding.length_getD_read {b : Binding} {op : Op U} {m : Arena V} {k : ℕ}
    (hk : k < op.ins.length) : ((op.ins.map (b.read m)).getD k []).length = b.len (op.input k) := by
  have hin : op.input k = op.ins[k] := by rw [Op.input, List.getD_eq_getElem _ _ hk]
  rw [List.getD_eq_getElem _ _ (by simpa using hk), List.getElem_map, ← hin]
  simp [Binding.read]

/-- A step of an op with one output and without effects stores its value. -/
lemma forwardOp_value [Zero V] (K : Kernels U V S W) (b : Binding) {op : Op U}
    (st : SweepState V S W) (hp : op.primalSource = none) (he : K.hasEffect op.call = false)
    (h2 : op.out2 = none) (hip : op.opcode.isInplaceStore = false)
    (hload : op.opcode = .index → b.len op.out ≤ 1) (hsafe : op.InBounds b.len) :
    (∃ e, op.value K (b.len op.out) (op.ins.map (b.read st.mem)) = .error e ∧
      forwardOp K b op st = .error e) ∨
    ∃ buf scratch buf', op.value K (b.len op.out) (op.ins.map (b.read st.mem)) =
        .ok (buf, scratch) ∧
      forwardOp K b op st = .ok ({ st with mem := Function.update st.mem (b.home op.out) buf' },
        ⟨op.shown b st.mem, scratch⟩) ∧
      ∀ e < b.len op.out, buf' e = buf e := by
  by_cases hi : op.opcode = .index
  · obtain ⟨hm0, hlt⟩ := hsafe.load hi
    refine .inr ⟨_, none, _, by simp only [Op.value, hi, if_true]; rfl,
      forwardOp_routed hp (Op.routed_index hi b st.mem), fun e hel => ?_⟩
    obtain rfl : e = 0 := by
      have := hload hi
      omega
    rw [Function.update_self, Binding.getD_read (List.length_pos_of_mem hm0) hlt]
  by_cases hcp : op.opcode.isCopyingStore = true
  · obtain ⟨hl, hn⟩ := hsafe.rhs (by simp [Opcode.isStore, hcp])
    refine .inr ⟨_, none, _, by simp only [Op.value, hi, hcp, if_true, if_false]; rfl,
      forwardOp_routed hp (Op.routed_copying hcp b st.mem), fun e hel => ?_⟩
    rw [Binding.length_getD_read hl]
    refine writeComb_congr (fun k hk => (Binding.getD_read hl (by omega)).symm) fun _ => ?_
    have := hsafe.base hcp
    exact (Binding.getD_read (by omega) (by omega)).symm
  · have hr : op.opcode.isRouted = false := by
      simp [Opcode.isRouted, hi, hcp, hip]
    have hcall : K.call b op (op.ins.map (b.read st.mem)) st.world =
        (K.forward op.call (b.len op.out) 0 (op.ins.map (b.read st.mem))).map
          fun r => (r, st.world) := by
      simp [Kernels.call, he, h2]
    rw [forwardOp_kernel hp hr, hcall]
    simp only [Op.value, hi, hcp, if_false, Bool.false_eq_true]
    cases K.forward op.call (b.len op.out) 0 (op.ins.map (b.read st.mem)) with
    | error e => exact .inl ⟨e, rfl, rfl⟩
    | ok r =>
      refine .inr ⟨_, _, r.out, rfl, ?_, fun _ _ => rfl⟩
      simp only [Except.map, Op.store, h2]

/-! ## Renamed ops -/

/-- The op on other slots. -/
def Op.rename (f : ℕ → ℕ) (op : Op U) : Op U :=
  { op with ins := op.ins.map f, out := f op.out, out2 := op.out2.map f }

lemma Op.rename_input {f : ℕ → ℕ} {op : Op U} {k : ℕ} (h : k < op.ins.length) :
    (op.rename f).input k = f (op.input k) := by
  simp [Op.rename, Op.input, h]

@[simp] lemma Op.rename_id (op : Op U) : op.rename id = op := by
  simp [Op.rename]

section Rename

variable {K : Kernels U V S W} {b b' : Binding} {f : ℕ → ℕ} {op : Op U} {m m' : Arena V}
  {t : ℕ → Prop}

/-- One op and its renaming, on arenas that agree under the renaming: they fail together, or leave
arenas that agree. -/
lemma pureOp_rename (hsafe : op.InBounds b.len) (hhome : b.home = id) (hhome' : b'.home = id)
    (hinj : ∀ x y, t x → t y → f x = f y → x = y) (hins : ∀ s ∈ op.ins, t s)
    (houts : ∀ s ∈ op.outs, t s) (hlen : ∀ s, t s → b'.len (f s) = b.len s)
    (hm : ∀ s, t s → m' (f s) = m s) :
    (∃ e, pureOp K b op m = .error e ∧ pureOp K b' (op.rename f) m' = .error e) ∨
    ∃ n o n' o', pureOp K b op m = .ok (n, o) ∧ pureOp K b' (op.rename f) m' = .ok (n', o') ∧
      ∀ s, t s → n' (f s) = n s := by
  have hread : ∀ s ∈ op.ins, b'.read m' (f s) = b.read m s := by
    intro s hs
    refine Binding.read_eq_read (hlen s (hins s hs)) fun e _ => ?_
    rw [hhome, hhome', id_eq, id_eq, hm s (hins s hs)]
  have hreads : (op.rename f).ins.map (b'.read m') = op.ins.map (b.read m) := by
    rw [Op.rename, List.map_map]
    exact List.map_congr_left hread
  have hupdate : ∀ {r : ℕ} {buf : ℕ → V} {n n' : Arena V}, t r → (∀ s, t s → n' (f s) = n s) →
      ∀ s, t s → Function.update n' (f r) buf (f s) = Function.update n r buf s := by
    intro r buf n n' hr hn s hs
    by_cases hsr : s = r
    · rw [hsr, Function.update_self, Function.update_self]
    · rw [Function.update_of_ne hsr, Function.update_of_ne fun h => hsr (hinj s r hs hr h)]
      exact hn s hs
  have hout : t op.out := houts op.out (by simp)
  have houtlen : b'.len (op.rename f).out = b.len op.out := hlen op.out hout
  have hout2len : (op.rename f).out2.map b'.len = op.out2.map b.len := by
    cases h2 : op.out2 with
    | none => simp [Op.rename, h2]
    | some o => simp [Op.rename, h2, hlen o (houts o (by simp [h2]))]
  by_cases hr : op.opcode.isRouted = true
  · have hbuf : ∃ buf, op.routed b m = some buf ∧ (op.rename f).routed b' m' = some buf := by
      rcases Opcode.isRouted_iff.1 hr with hi | hcp | hip
      · obtain ⟨hm0, -⟩ := hsafe.load hi
        refine ⟨_, Op.routed_index hi _ _, ?_⟩
        rw [Op.routed_index (by exact hi), Op.rename_input (List.length_pos_of_mem hm0), hhome,
          hhome']
        simp only [id_eq]
        rw [hm _ (hins _ hm0)]
        simp only [Op.rename, hm _ hout]
        rfl
      · obtain ⟨hl, -⟩ := hsafe.rhs (by simp [Opcode.isStore, hcp])
        refine ⟨_, Op.routed_copying hcp _ _, ?_⟩
        rw [Op.routed_copying (by exact hcp), Op.rename_input hl, Op.rename_input (by omega), hhome,
          hhome']
        simp only [id_eq]
        rw [hm _ (hins _ (Op.input_mem hl)), hm _ (hins _ (Op.input_mem (by omega))),
          hlen _ (hins _ (Op.input_mem hl))]
        rfl
      · obtain ⟨hl, -⟩ := hsafe.rhs (Opcode.isStore_of_isInplaceStore hip)
        refine ⟨_, Op.routed_inplace hip _ _, ?_⟩
        rw [Op.routed_inplace (by exact hip), Op.rename_input hl, hhome, hhome']
        simp only [id_eq]
        rw [hm _ (hins _ (Op.input_mem hl)), hlen _ (hins _ (Op.input_mem hl))]
        simp only [Op.rename, hm _ hout]
        rfl
    obtain ⟨buf, hbuf, hbuf'⟩ := hbuf
    refine .inr ⟨_, _, _, _, by rw [pureOp, hbuf], by rw [pureOp, hbuf'], ?_⟩
    rw [hhome, hhome']
    exact hupdate hout hm
  · rw [Bool.not_eq_true] at hr
    have hcall : (op.rename f).call = op.call := rfl
    have hr' : (op.rename f).routed b' m' = none := Op.routed_eq_none (by exact hr) b' m'
    simp only [pureOp, Op.routed_eq_none hr, hr', hreads, hcall, houtlen, hout2len]
    cases K.forward op.call (b.len op.out) ((op.out2.map b.len).getD 0)
      (op.ins.map (b.read m)) with
    | error e => exact .inl ⟨e, rfl, rfl⟩
    | ok r =>
      refine .inr ⟨_, _, _, _, rfl, rfl, ?_⟩
      unfold Op.store
      rw [hhome, hhome']
      cases h2 : op.out2 with
      | none => simpa [Op.rename, h2] using hupdate hout hm
      | some o =>
        simpa [Op.rename, h2] using
          hupdate (houts o (by simp [h2])) (hupdate hout hm)

/-- Running renamed ops is running the ops. -/
lemma pureMachine_rename (hhome : b.home = id) (hhome' : b'.home = id)
    (hinj : ∀ x y, t x → t y → f x = f y → x = y) (hlen : ∀ s, t s → b'.len (f s) = b.len s)
    {ops : List (Op U)} (hsafe : ∀ op ∈ ops, op.InBounds b.len)
    (ht : ∀ op ∈ ops, (∀ s ∈ op.ins, t s) ∧ ∀ s ∈ op.outs, t s) (hm : ∀ s, t s → m' (f s) = m s) :
    ((pureMachine K b').run (ops.map (Op.rename f)) m').error =
        ((pureMachine K b).run ops m).error ∧
      (((pureMachine K b).run ops m).error = none → ∀ s, t s →
        ((pureMachine K b').run (ops.map (Op.rename f)) m').state (f s) =
          ((pureMachine K b).run ops m).state s) := by
  induction ops generalizing m m' with
  | nil => exact ⟨rfl, fun _ => hm⟩
  | cons op ops ih =>
    rw [List.map_cons]
    rcases pureOp_rename (K := K) (hsafe op (by simp)) hhome hhome' hinj (ht op (by simp)).1
      (ht op (by simp)).2 hlen hm with ⟨e, h, h'⟩ | ⟨n, o, n', o', h, h', hn⟩
    · rw [Machine.run_cons_error (M := pureMachine K b) h,
        Machine.run_cons_error (M := pureMachine K b') h']
      exact ⟨rfl, fun h => by simp at h⟩
    · rw [Machine.run_cons_ok (M := pureMachine K b) h,
        Machine.run_cons_ok (M := pureMachine K b') h']
      exact ih (fun o ho => hsafe o (by simp [ho])) (fun o ho => ht o (by simp [ho])) hn

end Rename

end Stanli
