import Stanli.Passes.StoreForwarding

/-!
# The first scan of store forwarding preserves the forward sweep

The first scan relates the two sweeps through `Related`: slots agree except in the cells whose
pending store was dropped (`Doomed`), a renamed load output holds what the slot it was renamed to
holds, and so does the element the last store wrote.
-/

namespace Stanli

variable {U V S W : Type*}

/-! ## The domain and the condition -/

/-- The shape `make_inplace_updates` leaves behind: a slot is written again by
`SET_INDEX_INPLACE` only, stores meet their contract, loads read an element that exists, and no op
is a cached primal. -/
structure ChainGraph (len : ℕ → ℕ) (ops : List (Op U)) : Prop where
  chains : ops.Pairwise fun o o' => ∀ s ∈ o.outs, s ∈ o'.outs → o'.opcode = .setIndexInplace
  stores : ∀ op ∈ ops, op.opcode.isStore = true → op.StoreContract len
  loads : ∀ op ∈ ops, op.opcode = .index → op.ins = [op.input 0] ∧ op.out2 = none ∧
    len op.out = 1 ∧ 0 ≤ op.imm 0 ∧ op.imm 0 < len (op.input 0)
  noPrimal : ∀ op ∈ ops, op.primalSource = none

/-- The inputs whose values an op uses: not the base of an in-place store. -/
def Op.operands (op : Op U) : List ℕ :=
  if op.opcode.isInplaceStore then op.ins.tail else op.ins

/-- When the pass is right.  A read answered by a store sees what that store put there: neither the
stored slot nor the load's output has been written since.  And where a store between a superseded
store and its successor reads their vector, so does an op that is not a store. -/
structure ForwardsSafely (ops : List (Op U)) (isRoot : ℕ → Bool) : Prop where
  fresh : ∀ (r s w k i : ℕ) (op : Op U), ops[r]? = some op → s ∈ op.operands →
    Reads ops isRoot r s w (some (k, i)) →
    (∀ j, i < j → j < r → ¬ Writes ops w j) ∧ (∀ j, k < j → j < r → ¬ Writes ops s j)
  undisturbed : ∀ (i r k v : ℕ) (op : Op U), Superseded ops i k v → i < r → r < k →
    ops[r]? = some op → op.opcode.isStore = true → v ∈ op.operands →
    ∃ q, i < q ∧ q < k ∧ Observes ops isRoot v q

section Domain

variable {ops : List (Op U)} {isRoot : ℕ → Bool} {len : ℕ → ℕ}

lemma ChainGraph.rewrite (h : ChainGraph len ops) (j k s : ℕ) (op : Op U) (hjk : j < k)
    (hj : Writes ops s j) (hop : ops[k]? = some op) (hs : s ∈ op.outs) :
    op.opcode = .setIndexInplace := by
  obtain ⟨o, ho, hso⟩ := hj
  obtain ⟨hj, rfl⟩ := List.getElem?_eq_some_iff.1 ho
  obtain ⟨hk, rfl⟩ := List.getElem?_eq_some_iff.1 hop
  exact List.pairwise_iff_getElem.1 h.chains j k hj hk hjk s hso hs

lemma ChainGraph.operandCounts (h : ChainGraph len ops) : OperandCounts ops where
  load op hop hi := (h.loads op hop hi).1
  store op hop hs := (h.stores op hop hs).ins_eq

lemma ChainGraph.loadsDistinct (h : ChainGraph len ops) : LoadsDistinct ops := by
  intro k k' op op' hop hop' hi hi' hout
  by_contra hne
  rcases Nat.lt_or_gt_of_ne hne with hlt | hlt
  · have := h.rewrite k k' op.out op' hlt ⟨op, hop, by simp⟩ hop' (by simp [hout])
    rw [hi'] at this
    cases this
  · have := h.rewrite k' k op'.out op hlt ⟨op', hop', by simp⟩ hop (by simp [hout])
    rw [hi] at this
    cases this

/-- A slot is as long as the slot it stands for, and one that stands for another is a scalar. -/
lemma ChainGraph.reads_len (h : ChainGraph len ops) {n s w : ℕ} {o : Option (ℕ × ℕ)}
    (hr : Reads ops isRoot n s w o) : len w = len s ∧ (o ≠ none → len s = 1) := by
  induction hr with
  | self => exact ⟨rfl, fun h => absurd rfl h⟩
  | unanswered => exact ⟨rfl, fun h => absurd rfl h⟩
  | answered hk hop hl hout hbase ha hvalue _ ih =>
    have h1 := (h.loads _ (List.mem_of_getElem? hop) hl.opcode_eq).2.2.1
    have h2 := ((h.stores _ (List.mem_of_getElem? ha.get)
      (Opcode.isStore_of_isElementStore ha.element)).element ha.element).1
    rw [hout] at h1
    exact ⟨by rw [ih.1, h2, h1], fun _ => h1⟩

lemma Reads.lt_of_some {n s w k i : ℕ} (h : Reads ops isRoot n s w (some (k, i))) :
    k < n ∧ i < k := by
  cases h with
  | answered hk _ _ _ _ ha _ => exact ⟨hk, ha.lt⟩

lemma Op.operands_subset {op : Op U} {s : ℕ} (h : s ∈ op.operands) : s ∈ op.ins := by
  unfold Op.operands at h
  split at h
  · exact List.mem_of_mem_tail h
  · exact h

end Domain

/-! ## The final drop flags -/

section Drop

variable {ops : List (Op U)} {isRoot : ℕ → Bool} {n : ℕ} {st : LoadScan U}

/-- Only the flags of stores change after their op has been scanned. -/
lemma ScanInv.foldl_drop (hc : OperandCounts ops) (hd : LoadsDistinct ops) {rest : List (Op U)}
    (h : ScanInv ops isRoot n st) (hrest : ops.drop n = rest) {j : ℕ} (hj : j < n) {oj : Op U}
    (hoj : ops[j]? = some oj) (hns : oj.opcode.isStore = false) :
    (rest.foldl (LoadScan.step isRoot) st).drop j = st.drop j := by
  induction rest generalizing n st with
  | nil => rfl
  | cons op rest ih =>
    obtain ⟨hop, hrest'⟩ := drop_succ_eq hrest
    rw [List.foldl_cons, ih (h.step hc hd hop) hrest' (by omega)]
    by_cases hst : op.opcode.isStore = true
    · by_cases he : op.opcode.isElementStore = true
      · rw [LoadScan.step_element he]
        by_cases hs : { st with ops := st.ops ++ [op.mapIns st.resolve] }.supersedes
            (op.mapIns st.resolve) = true
        · obtain ⟨o, ho, -, hsup, -⟩ := h.superseded hop hs
          obtain ⟨oi, -, hoi, -, hin, -⟩ := hsup.ops_eq
          have hne : j ≠ (st.lastStore op.out).op := by
            rintro rfl
            obtain rfl := Option.some.inj (hoj.symm.trans hoi)
            rw [hin] at hns
            cases hns
          simp only [hs, if_true, Function.update_of_ne hne]
        · simp only [hs]
          rfl
      · rw [LoadScan.step_slice hst (by simpa using he)]
    · rw [Bool.not_eq_true] at hst
      by_cases hit : st.hits isRoot (op.mapIns st.resolve) = true
      · rw [LoadScan.step_hit hst hit]
        simp only [h.length_eq, Function.update_of_ne (Nat.ne_of_lt hj)]
      · rw [LoadScan.step_other hst (by simpa using hit)]

end Drop

/-! ## The relation between the two sweeps -/

/-- Every dropped op is a load, or a store that the next one to its vector overwrites with nothing
observing the vector in between. -/
def DropSound (ops : List (Op U)) (isRoot : ℕ → Bool) (D : ℕ → Bool) : Prop :=
  ∀ j, D j = true → ∃ op, ops[j]? = some op ∧ (op.IsLoad isRoot ∨
    ∃ k, Superseded ops j k op.out ∧ ∀ q, j < q → q < k → ¬ Observes ops isRoot op.out q)

/-- The element that the last store to `s` wrote, when that store is dropped: the rewritten sweep
does not have it yet. -/
structure Doomed (D : ℕ → Bool) (st : LoadScan U) (s e : ℕ) : Prop where
  live : (st.lastStore s).live = true
  unobserved : (st.lastStore s).observed = false
  elem_eq : (st.lastStore s).elem = e
  dropped : D (st.lastStore s).op = true

/-- The sweeps before op `n`: `σ` of the graph, `τ` of the rewritten one. -/
structure Related (len : ℕ → ℕ) (ops : List (Op U)) (isRoot D : ℕ → Bool) (n : ℕ)
    (st : LoadScan U) (σ τ : SweepState V S W) : Prop where
  inv : ScanInv ops isRoot n st
  world : τ.world = σ.world
  shared : τ.shared = σ.shared
  cell : ∀ s e, st.rename s = none → e < len s → ¬ Doomed D st s e → τ.mem s e = σ.mem s e
  named : ∀ s w k i, st.rename s = some w → Reads ops isRoot n s w (some (k, i)) →
    (∀ j, i < j → j < n → ¬ Writes ops w j) → (∀ j, k < j → j < n → ¬ Writes ops s j) →
    τ.mem w 0 = σ.mem s 0 ∧ σ.mem w 0 = σ.mem s 0
  stored : ∀ v, (st.lastStore v).live = true →
    (∀ j, (st.lastStore v).op < j → j < n → ¬ Writes ops (st.lastStore v).value j) →
    τ.mem (st.lastStore v).value 0 = σ.mem v (st.lastStore v).elem.toNat ∧
      σ.mem (st.lastStore v).value 0 = σ.mem v (st.lastStore v).elem.toNat

namespace Related

variable {len : ℕ → ℕ} {ops : List (Op U)} {isRoot D : ℕ → Bool} {n : ℕ} {st : LoadScan U}
  {σ τ : SweepState V S W} {op : Op U}

/-- The store that dooms a cell, and the one that supersedes it. -/
lemma doomed_superseded (h : Related len ops isRoot D n st σ τ) (hD : DropSound ops isRoot D)
    {s e : ℕ} (hs : Doomed D st s e) : ∃ i k, i < n ∧ n ≤ k ∧ Superseded ops i k s ∧
      (∀ q, i < q → q < k → ¬ Observes ops isRoot s q) ∧
      ∃ oi, ops[i]? = some oi ∧ oi.imm 0 = e := by
  obtain ⟨oi, ha, -⟩ := h.inv.live s hs.live
  obtain ⟨op, hop, hcase⟩ := hD _ hs.dropped
  obtain rfl := Option.some.inj (ha.get.symm.trans hop)
  rcases hcase with hl | ⟨k, hsup, hobs⟩
  · have := ha.element
    rw [hl.opcode_eq] at this
    cases this
  · rw [ha.out_eq] at hsup hobs
    refine ⟨_, k, ha.lt, ?_, hsup, hobs, oi, hop, ha.elem_eq.trans hs.elem_eq⟩
    by_contra hk
    obtain ⟨-, ok, -, hok, -, hin, -, hout, -⟩ := hsup.ops_eq
    refine ha.last k hsup.lt (by omega) ⟨ok, hok, ?_, hout⟩
    rw [hin]
    rfl

/-- An op that reads a vector observes it, unless it is an answered load: no cell of it is doomed. -/
lemma not_doomed_of_reads (h : Related len ops isRoot D n st σ τ) (hg : ChainGraph len ops)
    (hD : DropSound ops isRoot D) (hop : ops[n]? = some op) (hst : op.opcode.isStore = false)
    (hit : st.hits isRoot (op.mapIns st.resolve) = false) {s e : ℕ} (hs : s ∈ op.ins) :
    ¬ Doomed D st (st.resolve s) e := by
  intro hdoom
  obtain ⟨i, k, hi, hk, hsup, hobs, -⟩ := h.doomed_superseded hD hdoom
  obtain ⟨-, ok, -, hok, -, hin, -⟩ := hsup.ops_eq
  have hlt : n < k := by
    refine Nat.lt_of_le_of_ne hk ?_
    rintro rfl
    obtain rfl := Option.some.inj (hop.symm.trans hok)
    rw [hin] at hst
    cases hst
  obtain ⟨o, ho⟩ := h.inv.reads_resolve s
  refine hobs n hi hlt ⟨op, hop, hst, ?_, s, hs, o, ho⟩
  rintro ⟨hl, i', op', ha⟩
  have hload := hg.loads op (List.mem_of_getElem? hop) hl.opcode_eq
  rw [hload.1, List.mem_singleton] at hs
  have hin0 : (op.mapIns st.resolve).input 0 = st.resolve s := by
    rw [Op.mapIns_input (by simp [hload.1]), ← hs]
  have hhit : st.hits isRoot (op.mapIns st.resolve) = true := by
    rw [ScanInv.hits_iff, ScanInv.mapIns_isLoad, hin0]
    obtain ⟨sop, ha', -⟩ := h.inv.live _ hdoom.live
    obtain ⟨-, rfl⟩ := ha.unique ha'
    exact ⟨hl, hdoom.live, ha'.elem_eq.symm.trans ha.elem_eq⟩
  simp [hit] at hhit

/-- An operand of the next op is not doomed, unless the op is an answered load. -/
lemma not_doomed (h : Related len ops isRoot D n st σ τ) (hg : ChainGraph len ops)
    (hsafe : ForwardsSafely ops isRoot) (hD : DropSound ops isRoot D) (hop : ops[n]? = some op)
    (hit : op.opcode.isStore = true ∨ st.hits isRoot (op.mapIns st.resolve) = false) {s e : ℕ}
    (hs : s ∈ op.operands) (hn : st.rename s = none) : ¬ Doomed D st s e := by
  intro hdoom
  have hmem := List.mem_of_getElem? hop
  obtain ⟨i, k, hi, hk, hsup, hobs, -⟩ := h.doomed_superseded hD hdoom
  obtain ⟨-, ok, -, hok, -, hin, -, hout, -⟩ := hsup.ops_eq
  by_cases hst : op.opcode.isStore = true
  · rcases Nat.lt_or_eq_of_le hk with hlt | rfl
    · obtain ⟨q, hq, hqk, hqo⟩ := hsafe.undisturbed i n k s op hsup hi hlt hop hst hs
      exact hobs q hq hqk hqo
    · obtain rfl := Option.some.inj (hop.symm.trans hok)
      have hc := hg.stores op hmem hst
      have hip : op.opcode.isInplaceStore = true := by rw [hin]; rfl
      have hne := hc.inplace hip
      rw [Op.operands, if_pos hip, hc.ins_eq] at hs
      have : s = op.input 1 := by simpa using hs
      exact hne.2 (by rw [← this, ← hout, hne.1])
  · rw [Bool.not_eq_true] at hst
    rcases hit with hit | hit
    · simp [hst] at hit
    have hres : st.resolve s = s := by simp [LoadScan.resolve, hn]
    exact h.not_doomed_of_reads hg hD hop hst hit (Op.operands_subset hs) (hres.symm ▸ hdoom)

/-- The slot that stands for a renamed operand of the next op holds it in both sweeps. -/
lemma operand_renamed (h : Related len ops isRoot D n st σ τ) (hg : ChainGraph len ops)
    (hsafe : ForwardsSafely ops isRoot) (hop : ops[n]? = some op) {s w e : ℕ} (hs : s ∈ op.operands)
    (hr : st.rename s = some w) (he : e < len s) :
    τ.mem (st.resolve s) e = σ.mem s e ∧ σ.mem (st.resolve s) e = σ.mem s e := by
  have hres : st.resolve s = w := by simp [LoadScan.resolve, hr]
  obtain ⟨k, i, hki⟩ := h.inv.renamed s w hr
  have hlen := (hg.reads_len hki).2 (by simp)
  obtain rfl : e = 0 := by omega
  obtain ⟨h1, h2⟩ := hsafe.fresh n s w k i op hop hs hki
  rw [hres]
  exact h.named s w k i hr hki h1 h2

/-- The next op reads the same from the slots that stand for its operands. -/
lemma operand (h : Related len ops isRoot D n st σ τ) (hg : ChainGraph len ops)
    (hsafe : ForwardsSafely ops isRoot) (hD : DropSound ops isRoot D) (hop : ops[n]? = some op)
    (hit : op.opcode.isStore = true ∨ st.hits isRoot (op.mapIns st.resolve) = false) {s : ℕ}
    (hs : s ∈ op.operands) :
    len (st.resolve s) = len s ∧ ∀ e < len s, τ.mem (st.resolve s) e = σ.mem s e := by
  obtain ⟨o, ho⟩ := h.inv.reads_resolve s
  refine ⟨(hg.reads_len ho).1, fun e he => ?_⟩
  cases hr : st.rename s with
  | none =>
    have hres : st.resolve s = s := by simp [LoadScan.resolve, hr]
    rw [hres]
    exact h.cell s e hr he (h.not_doomed hg hsafe hD hop hit hs hr)
  | some w => exact (h.operand_renamed hg hsafe hop hs hr he).1

/-- Likewise in the original sweep. -/
lemma operand_self (h : Related len ops isRoot D n st σ τ) (hg : ChainGraph len ops)
    (hsafe : ForwardsSafely ops isRoot) (hop : ops[n]? = some op) {s : ℕ} (hs : s ∈ op.operands)
    {e : ℕ} (he : e < len s) : σ.mem (st.resolve s) e = σ.mem s e := by
  cases hr : st.rename s with
  | none => simp [LoadScan.resolve, hr]
  | some w => exact (h.operand_renamed hg hsafe hop hs hr he).2

/-- The relation after an op, from what the op does to its own outputs. -/
lemma next (h : Related len ops isRoot D n st σ τ) (hg : ChainGraph len ops)
    (hD : DropSound ops isRoot D) (hop : ops[n]? = some op) {σ' τ' : SweepState V S W}
    (hworld : τ'.world = σ'.world) (hshared : τ'.shared = σ'.shared)
    (hσ : ∀ s, s ∉ op.outs → σ'.mem s = σ.mem s) (hτ : ∀ s, s ∉ op.outs → τ'.mem s = τ.mem s)
    (houts : ∀ s ∈ op.outs, (st.step isRoot op).rename s = none → ∀ e < len s,
      ¬ Doomed D (st.step isRoot op) s e → τ'.mem s e = σ'.mem s e)
    (hhit : op.opcode.isStore = false → st.hits isRoot (op.mapIns st.resolve) = true →
      (∀ j, (st.lastStore (st.resolve (op.input 0))).op < j → j < n + 1 →
        ¬ Writes ops (st.lastStore (st.resolve (op.input 0))).value j) →
      τ'.mem (st.lastStore (st.resolve (op.input 0))).value 0 = σ'.mem op.out 0 ∧
        σ'.mem (st.lastStore (st.resolve (op.input 0))).value 0 = σ'.mem op.out 0)
    (hstore : op.opcode.isElementStore = true →
      τ'.mem (st.resolve (op.input 1)) 0 = σ'.mem op.out (op.imm 0).toNat ∧
        σ'.mem (st.resolve (op.input 1)) 0 = σ'.mem op.out (op.imm 0).toNat) :
    Related len ops isRoot D (n + 1) (st.step isRoot op) σ' τ' := by
  have hmem := List.mem_of_getElem? hop
  have hc := hg.operandCounts
  have hd := hg.loadsDistinct
  have hwrites : ∀ s, ¬ Writes ops s n → s ∉ op.outs := fun s hs hso => hs ⟨op, hop, hso⟩
  -- the renamed slots and the records that the op leaves alone
  have hnamed : ∀ s w k i, st.rename s = some w → Reads ops isRoot (n + 1) s w (some (k, i)) →
      (∀ j, i < j → j < n + 1 → ¬ Writes ops w j) → (∀ j, k < j → j < n + 1 → ¬ Writes ops s j) →
      τ'.mem w 0 = σ'.mem s 0 ∧ σ'.mem w 0 = σ'.mem s 0 := by
    intro s w k i hs hr hw hso
    obtain ⟨k', i', hki⟩ := h.inv.renamed s w hs
    obtain ⟨-, heq⟩ := hr.unique hd hki.succ_of_some
    simp only [Option.some.injEq, Prod.mk.injEq] at heq
    obtain ⟨rfl, rfl⟩ := heq
    obtain ⟨hk, hi⟩ := hki.lt_of_some
    rw [hσ s (hwrites s (hso n hk (by omega))), hσ w (hwrites w (hw n (by omega) (by omega))),
      hτ w (hwrites w (hw n (by omega) (by omega)))]
    exact h.named s w k i hs hki (fun j h1 h2 => hw j h1 (by omega))
      fun j h1 h2 => hso j h1 (by omega)
  have hstored : ∀ v, (st.lastStore v).live = true → ¬ StoresTo ops v n →
      (∀ j, (st.lastStore v).op < j → j < n + 1 → ¬ Writes ops (st.lastStore v).value j) →
      τ'.mem (st.lastStore v).value 0 = σ'.mem v (st.lastStore v).elem.toNat ∧
        σ'.mem (st.lastStore v).value 0 = σ'.mem v (st.lastStore v).elem.toNat := by
    intro v hv hn hw
    obtain ⟨oi, ha, -⟩ := h.inv.live v hv
    have hlt := ha.lt
    have hvo : v ∉ op.outs := by
      intro hvo
      have hin := hg.rewrite _ n v op hlt ha.storesTo.writes hop hvo
      have hst : op.opcode.isStore = true := by rw [hin]; rfl
      have hout2 := (hg.stores op hmem hst).out2_eq
      rw [Op.mem_outs, hout2] at hvo
      rcases hvo with hvo | hvo
      · exact hn ((storesTo_iff hop).2 ⟨hst, hvo.symm⟩)
      · cases hvo
    have hwo := hwrites _ (hw n hlt (by omega))
    rw [hσ v hvo, hσ _ hwo, hτ _ hwo]
    exact h.stored v hv fun j h1 h2 => hw j h1 (by omega)
  have hcell : ∀ s e, s ∉ op.outs → (st.step isRoot op).rename s = none → st.rename s = none →
      (Doomed D st s e → Doomed D (st.step isRoot op) s e) → e < len s →
      ¬ Doomed D (st.step isRoot op) s e → τ'.mem s e = σ'.mem s e := by
    intro s e hso _ hs hdoom he hn
    rw [hσ s hso, hτ s hso]
    exact h.cell s e hs he fun hd => hn (hdoom hd)
  have hinv := h.inv.step hc hd hop
  by_cases hst : op.opcode.isStore = true
  · have hout2 := (hg.stores op hmem hst).out2_eq
    have hstores : ∀ v, StoresTo ops v n ↔ op.out = v := fun v => by
      rw [storesTo_iff hop]
      simp [hst]
    have hmo : ∀ s, s ∉ op.outs ↔ s ≠ op.out := fun s => by simp [hout2]
    -- a store changes the record of its own vector and no name
    have hstep : (st.step isRoot op).rename = st.rename ∧
        ∀ v, v ≠ op.out → (st.step isRoot op).lastStore v = st.lastStore v := by
      by_cases he : op.opcode.isElementStore = true
      · rw [LoadScan.step_element he]
        exact ⟨rfl, fun v hv => Function.update_of_ne hv ..⟩
      · rw [LoadScan.step_slice hst (by simpa using he)]
        exact ⟨rfl, fun v hv => Function.update_of_ne hv ..⟩
    obtain ⟨hrename, hlast⟩ := hstep
    refine ⟨hinv, hworld, hshared, fun s e hs hel hn => ?_, fun s w k i hs => ?_, fun v hv => ?_⟩
    · by_cases hso : s = op.out
      · exact houts s (by simp [hso]) hs e hel hn
      · refine hcell s e ((hmo s).2 hso) hs (hrename ▸ hs) (fun hd => ?_) hel hn
        obtain ⟨h1, h2, h3, h4⟩ := hd
        constructor <;> rwa [hlast s hso]
    · rw [hrename] at hs
      exact hnamed s w k i hs
    · by_cases hvo : v = op.out
      · subst hvo
        by_cases he : op.opcode.isElementStore = true
        · have hin : (op.mapIns st.resolve).input 1 = st.resolve (op.input 1) :=
            Op.mapIns_input (by simp [hc.store op hmem hst])
          rw [LoadScan.step_element he]
          simp only [Function.update_self, hin]
          exact fun _ => hstore he
        · rw [LoadScan.step_slice hst (by simpa using he)] at hv
          simp at hv
      · rw [hlast v hvo] at hv ⊢
        exact hstored v hv fun hs => hvo ((hstores v).1 hs).symm
  · rw [Bool.not_eq_true] at hst
    have hns : ∀ v, ¬ StoresTo ops v n := fun v => by
      rw [storesTo_iff hop]
      simp [hst]
    by_cases hit : st.hits isRoot (op.mapIns st.resolve) = true
    · have hstep := LoadScan.step_hit hst hit
      have hl := ScanInv.mapIns_isLoad.1 (ScanInv.hits_iff.1 hit).1
      have hload := hg.loads op hmem hl.opcode_eq
      have hin : (op.mapIns st.resolve).input 0 = st.resolve (op.input 0) :=
        Op.mapIns_input (by simp [hload.1])
      have hmo : ∀ s, s ∉ op.outs ↔ s ≠ op.out := fun s => by simp [hload.2.1]
      rw [hin] at hstep
      refine ⟨hinv, hworld, hshared, fun s e hs hel hn => ?_, fun s w k i hs hr hw hso => ?_,
        fun v hv => ?_⟩
      · by_cases hso : s = op.out
        · exact houts s (by simp [hso]) hs e hel hn
        · refine hcell s e ((hmo s).2 hso) hs ?_ (fun hd => ?_) hel hn
          · rw [hstep] at hs
            simpa only [Function.update_of_ne hso] using hs
          · rw [hstep]
            exact ⟨hd.1, hd.2, hd.3, hd.4⟩
      · rw [hstep] at hs
        by_cases hse : s = op.out
        · subst hse
          simp only [Function.update_self, Option.some.injEq] at hs
          subst hs
          obtain ⟨sop, ha, p, hp⟩ := h.inv.live _ (hin ▸ (ScanInv.hits_iff.1 hit).2.1)
          obtain ⟨o, ho⟩ := h.inv.reads_resolve (op.input 0)
          have helem := (ScanInv.hits_iff.1 hit).2.2
          rw [hin, Op.mapIns_imm] at helem
          rw [helem] at ha
          obtain ⟨-, heq⟩ := hr.unique hd (.answered (by omega) hop hl rfl ho ha hp)
          simp only [Option.some.injEq, Prod.mk.injEq] at heq
          obtain ⟨rfl, rfl⟩ := heq
          exact hhit hst hit hw
        · simp only [Function.update_of_ne hse] at hs
          exact hnamed s w k i hs hr hw hso
      · rw [hstep] at hv ⊢
        exact hstored v hv (hns v)
    · rw [Bool.not_eq_true] at hit
      have hstep := LoadScan.step_other hst hit
      refine ⟨hinv, hworld, hshared, fun s e hs hel hn => ?_, fun s w k i hs => ?_, fun v hv => ?_⟩
      · by_cases hso : s ∈ op.outs
        · exact houts s hso hs e hel hn
        · refine hcell s e hso hs (by rw [hstep] at hs; exact hs) (fun hd' => ?_) hel hn
          -- an op that reads the vector observes it, so the store would not have been dropped
          have hnot : s ∉ op.ins.map st.resolve := by
            intro hsi
            obtain ⟨s', hs', hres⟩ := List.mem_map.1 hsi
            exact h.not_doomed_of_reads hg hD hop hst hit hs' (hres.symm ▸ hd')
          rw [hstep]
          refine ⟨?_, ?_, ?_, ?_⟩ <;> simp only [hnot, if_false]
          exacts [hd'.1, hd'.2, hd'.3, hd'.4]
      · rw [hstep] at hs
        exact hnamed s w k i hs
      · rw [hstep] at hv ⊢
        by_cases hvi : v ∈ op.ins.map st.resolve
        · simp only [hvi, if_true] at hv ⊢
          exact hstored v hv (hns v)
        · simp only [hvi, if_false] at hv ⊢
          exact hstored v hv (hns v)

/-- A store into a vector with a doomed cell is the one that supersedes the dropped store, so it
covers the cell. -/
lemma doomed_inComb (h : Related len ops isRoot D n st σ τ) (hD : DropSound ops isRoot D)
    (hop : ops[n]? = some op) (hst : op.opcode.isStore = true) {e : ℕ}
    (hd : Doomed D st op.out e) (m : ℕ) : inComb (op.comb m) e = true := by
  obtain ⟨i, k, hi, hk, hsup, -, oi, hoi, helem⟩ := h.doomed_superseded hD hd
  have hkn : n = k := by
    by_contra hne
    exact hsup.between n hi (by omega) ⟨op, hop, hst, rfl⟩
  subst hkn
  obtain ⟨oi', ok, hoi', hok, -, hin, -, -, himm⟩ := hsup.ops_eq
  obtain rfl := Option.some.inj (hop.symm.trans hok)
  obtain rfl := Option.some.inj (hoi.symm.trans hoi')
  rw [Op.comb_of_isElementStore (by rw [hin]; rfl), inComb_iff]
  refine ⟨0, by simp, ?_⟩
  rw [← himm, helem]
  simp

/-- A renamed slot that a store writes is a scalar that the store covers. -/
lemma renamed_inComb (h : Related len ops isRoot D n st σ τ) (hg : ChainGraph len ops)
    (hop : ops[n]? = some op) (hst : op.opcode.isStore = true) {w e : ℕ}
    (hr : st.rename op.out = some w) (he : e < len op.out) (hin : op.opcode.isInplaceStore = true)
    (m : ℕ) : inComb (op.comb m) e = true := by
  obtain ⟨k, i, hki⟩ := h.inv.renamed _ w hr
  have hlen := (hg.reads_len hki).2 (by simp)
  have hc := hg.stores op (List.mem_of_getElem? hop) hst
  have hkw : Writes ops op.out k ∧ k < n := by
    refine ⟨?_, hki.lt_of_some.1⟩
    cases hki with
    | answered hk hop' _ hout => exact ⟨_, hop', by simp [hout]⟩
  have hidx := hg.rewrite k n op.out op hkw.2 hkw.1 hop (by simp)
  have hel : op.opcode.isElementStore = true := by rw [hidx]; rfl
  obtain ⟨-, h0, hlt⟩ := hc.element hel
  rw [← (hc.inplace hin).1, hlen] at hlt
  rw [Op.comb_of_isElementStore hel, inComb_iff]
  exact ⟨0, by simp, by simp only [Nat.zero_mul, Nat.add_zero]; omega⟩

section Steps

variable {b : Binding} {K : Kernels U V S W}

/-- A kept op is shown the same inputs. -/
lemma shown_eq (h : Related b.len ops isRoot D n st σ τ) (hhome : b.home = id)
    (hg : ChainGraph b.len ops) (hsafe : ForwardsSafely ops isRoot) (hD : DropSound ops isRoot D)
    (hop : ops[n]? = some op)
    (hit : op.opcode.isStore = true ∨ st.hits isRoot (op.mapIns st.resolve) = false) :
    (op.mapIns st.resolve).shown b τ.mem = op.shown b σ.mem := by
  have hmem := List.mem_of_getElem? hop
  have hread : ∀ s ∈ op.operands, b.read τ.mem (st.resolve s) = b.read σ.mem s := by
    intro s hs
    obtain ⟨hlen, hcell⟩ := h.operand hg hsafe hD hop hit hs
    exact Binding.read_eq_read hlen fun e he => by
      rw [hhome]
      exact hcell e (hlen ▸ he)
  by_cases hin : op.opcode.isInplaceStore = true
  · have hst := Opcode.isStore_of_isInplaceStore hin
    have hc := hg.stores op hmem hst
    have hins : op.operands = [op.input 1] := by
      rw [Op.operands, if_pos hin, hc.ins_eq]
      rfl
    have hin0 : (op.mapIns st.resolve).input 0 = st.resolve (op.input 0) :=
      Op.mapIns_input (by simp [hc.ins_eq])
    have hin1 : (op.mapIns st.resolve).input 1 = st.resolve (op.input 1) :=
      Op.mapIns_input (by simp [hc.ins_eq])
    have hlen1 := (h.operand hg hsafe hD hop hit (s := op.input 1) (by simp [hins])).1
    obtain ⟨o, ho⟩ := h.inv.reads_resolve (op.input 0)
    have hlen0 := (hg.reads_len ho).1
    rw [Op.shown_inplace hin, Op.shown_inplace (by simpa using hin), hin0, hin1, Op.mapIns_comb,
      hlen0, hlen1, Op.mapIns_ins]
    congr 1
    · refine List.map_congr_left fun e he => ?_
      rw [List.mem_filter, List.mem_range] at he
      have hnc : ¬ inComb (op.comb (b.len (op.input 1))) e = true := by
        simpa using he.2
      have hout := (hc.inplace hin).1
      rw [hhome]
      cases hr : st.rename op.out with
      | none =>
        have hres : st.resolve (op.input 0) = op.out := by simp [LoadScan.resolve, ← hout, hr]
        rw [hres, ← hout]
        exact h.cell _ e hr (hout ▸ he.1) fun hd => hnc (h.doomed_inComb hD hop hst hd _)
      | some w =>
        exact absurd (h.renamed_inComb hg hop hst hr (hout ▸ he.1) hin _) hnc
    · have htail : op.ins.tail = [op.input 1] := by rw [hc.ins_eq]; rfl
      rw [← List.map_tail, htail]
      simp only [List.map_cons, List.map_nil]
      rw [hread _ (by simp [hins])]
  · have hin' : op.opcode.isInplaceStore = false := by simpa using hin
    rw [Op.shown_of_not_inplace hin', Op.shown_of_not_inplace (by simpa using hin'),
      Op.mapIns_ins, List.map_map]
    refine List.map_congr_left fun s hs => hread s ?_
    rw [Op.operands, if_neg hin]
    exact hs

/-- The buffers a store leaves agree wherever both sweeps have the cell. -/
lemma store_cells (h : Related b.len ops isRoot D n st σ τ) (hhome : b.home = id)
    (hg : ChainGraph b.len ops) (hsafe : ForwardsSafely ops isRoot) (hD : DropSound ops isRoot D)
    (hop : ops[n]? = some op) (hst : op.opcode.isStore = true) :
    ∃ buf buf', op.routed b σ.mem = some buf ∧ (op.mapIns st.resolve).routed b τ.mem = some buf' ∧
      (st.rename op.out = none → ∀ e < b.len op.out, buf' e = buf e) ∧
      (∀ e, inComb (op.comb (b.len (op.input 1))) e = false → op.opcode.isInplaceStore = true →
        buf e = σ.mem op.out e) ∧
      (op.opcode.isElementStore = true → buf (op.imm 0).toNat = σ.mem (op.input 1) 0 ∧
        buf' (op.imm 0).toNat = τ.mem (st.resolve (op.input 1)) 0) := by
  have hmem := List.mem_of_getElem? hop
  have hc := hg.stores op hmem hst
  have hin0 : (op.mapIns st.resolve).input 0 = st.resolve (op.input 0) :=
    Op.mapIns_input (by simp [hc.ins_eq])
  have hin1 : (op.mapIns st.resolve).input 1 = st.resolve (op.input 1) :=
    Op.mapIns_input (by simp [hc.ins_eq])
  have h1 : op.input 1 ∈ op.operands := by
    rw [Op.operands, hc.ins_eq]
    split <;> simp
  obtain ⟨hlen1, hcell1⟩ := h.operand hg hsafe hD hop (.inl hst) h1
  have hrhs : ∀ k < (op.comb (b.len (op.input 1))).2.2,
      τ.mem (st.resolve (op.input 1)) k = σ.mem (op.input 1) k :=
    fun k hk => hcell1 k (hc.rhsLen ▸ hk)
  by_cases hin : op.opcode.isInplaceStore = true
  · refine ⟨_, _, Op.routed_inplace hin b _, Op.routed_inplace (by simpa using hin) b _,
      fun hr e he => ?_, fun e he _ => ?_, fun hel => ?_⟩
    · simp only [hin1, hlen1, Op.mapIns_comb, Op.mapIns_out, hhome, id_eq]
      refine writeComb_congr hrhs fun hnc => ?_
      refine h.cell _ e hr he fun hd => ?_
      have hcov := h.doomed_inComb hD hop hst hd (b.len (op.input 1))
      simp [hcov] at hnc
    · rw [writeComb_of_not_inComb _ _ he, hhome]
      rfl
    · simp [hin1, Op.mapIns_comb, Op.comb_of_isElementStore hel, writeComb_one, hhome]
  · have hcp : op.opcode.isCopyingStore = true := by simpa [Opcode.isStore, hin] using hst
    have h0 : op.input 0 ∈ op.operands := by
      rw [Op.operands, if_neg hin, hc.ins_eq]
      simp
    obtain ⟨-, hcell0⟩ := h.operand hg hsafe hD hop (.inl hst) h0
    refine ⟨_, _, Op.routed_copying hcp b _, Op.routed_copying (by simpa using hcp) b _,
      fun hr e he => ?_, fun e he hin' => absurd hin' hin, fun hel => ?_⟩
    · simp only [hin0, hin1, hlen1, Op.mapIns_comb, hhome, id_eq]
      refine writeComb_congr hrhs fun _ => hcell0 e ?_
      rw [← (hc.copying (by simpa using hin)).2.2]
      exact he
    · simp [hin1, Op.mapIns_comb, Op.comb_of_isElementStore hel, writeComb_one, hhome]

/-- A store into the vector, kept or dropped, keeps the relation. -/
lemma next_store (h : Related b.len ops isRoot D n st σ τ) (hhome : b.home = id)
    (hg : ChainGraph b.len ops) (hsafe : ForwardsSafely ops isRoot) (hD : DropSound ops isRoot D)
    (hop : ops[n]? = some op) (hst : op.opcode.isStore = true) :
    ∃ buf buf', op.routed b σ.mem = some buf ∧ (op.mapIns st.resolve).routed b τ.mem = some buf' ∧
      Related b.len ops isRoot D (n + 1) (st.step isRoot op)
        { σ with mem := Function.update σ.mem op.out buf }
        { τ with mem := if D n then τ.mem else Function.update τ.mem op.out buf' } := by
  have hmem := List.mem_of_getElem? hop
  have hc := hg.stores op hmem hst
  obtain ⟨buf, buf', hbuf, hbuf', hcells, hkeep, helem⟩ :=
    h.store_cells hhome hg hsafe hD hop hst
  refine ⟨buf, buf', hbuf, hbuf', h.next hg hD hop h.world h.shared ?_ ?_ ?_ ?_ ?_⟩
  · intro s hs
    have hso : s ≠ op.out := fun heq => hs (by simp [heq])
    simp [hso]
  · intro s hs
    have hso : s ≠ op.out := fun heq => hs (by simp [heq])
    by_cases hdn : D n = true <;> simp [hdn, hso]
  · intro s hs hr e he hn
    obtain rfl : s = op.out := by simpa [hc.out2_eq] using hs
    have hr' : st.rename op.out = none := by
      by_cases hel : op.opcode.isElementStore = true
      · rwa [LoadScan.step_element hel] at hr
      · rwa [LoadScan.step_slice hst (by simpa using hel)] at hr
    by_cases hdn : D n = true
    · obtain ⟨op', hop', hcase⟩ := hD n hdn
      obtain rfl := Option.some.inj (hop.symm.trans hop')
      have hin : op.opcode = .setIndexInplace := by
        rcases hcase with hl | ⟨k, hsup, -⟩
        · rw [hl.opcode_eq] at hst
          cases hst
        · obtain ⟨oi, -, hoi, -, hin, -⟩ := hsup.ops_eq
          obtain rfl := Option.some.inj (hop.symm.trans hoi)
          exact hin
      have hel : op.opcode.isElementStore = true := by rw [hin]; rfl
      have hip : op.opcode.isInplaceStore = true := by rw [hin]; rfl
      have hne : op.imm 0 ≠ e := by
        intro heq
        refine hn ⟨?_, ?_, ?_, ?_⟩ <;> rw [LoadScan.step_element hel] <;>
          simp only [Function.update_self]
        · exact heq
        · rw [h.inv.length_eq]
          exact hdn
      have hnc : inComb (op.comb (b.len (op.input 1))) e = false := by
        rw [Op.comb_of_isElementStore hel, Bool.eq_false_iff, ne_eq, inComb_iff]
        rintro ⟨k, hk, hke⟩
        have h0 := (hc.element hel).2.1
        simp only at hk hke
        omega
      simp only [hdn, if_true, Function.update_self]
      rw [hkeep e hnc hip]
      refine h.cell _ e hr' he fun hd => ?_
      have hcov := h.doomed_inComb hD hop hst hd (b.len (op.input 1))
      simp [hcov] at hnc
    · simp only [hdn, Bool.false_eq_true, if_false, Function.update_self]
      exact hcells hr' e he
  · intro hns
    simp [hst] at hns
  · intro hel
    obtain ⟨hb, hb'⟩ := helem hel
    have h1 : op.input 1 ∈ op.operands := by
      rw [Op.operands, hc.ins_eq]
      split <;> simp
    obtain ⟨hl1, h0, hlt⟩ := hc.element hel
    obtain ⟨hlen, hop1⟩ := h.operand hg hsafe hD hop (.inl hst) h1
    have hop1 := hop1 0 (by omega)
    have hself := h.operand_self hg hsafe hop h1 (e := 0) (by omega)
    by_cases hw : st.resolve (op.input 1) = op.out
    · have hbase : b.len op.out = b.len (op.input 0) := by
        by_cases hip : op.opcode.isInplaceStore = true
        · rw [(hc.inplace hip).1]
        · exact (hc.copying (by simpa using hip)).2.2
      have hz : (op.imm 0).toNat = 0 := by
        rw [hw] at hlen
        omega
      rw [hz] at hb hb' ⊢
      rw [hw] at hop1 hb' ⊢
      simp only [Function.update_self, hb]
      by_cases hdn : D n = true
      · simp only [hdn, if_true]
        exact ⟨hop1, trivial⟩
      · simp [hdn, hb', hop1]
    · simp only [Function.update_self, Function.update_of_ne hw, hb]
      refine ⟨?_, hself⟩
      by_cases hdn : D n = true
      · simp only [hdn, if_true]
        exact hop1
      · simp only [hdn, Bool.false_eq_true, if_false, Function.update_of_ne hw]
        exact hop1

/-- An answered load is erased. -/
lemma next_hit (h : Related b.len ops isRoot D n st σ τ) (hhome : b.home = id)
    (hg : ChainGraph b.len ops) (hsafe : ForwardsSafely ops isRoot) (hD : DropSound ops isRoot D)
    (hop : ops[n]? = some op) (hst : op.opcode.isStore = false)
    (hit : st.hits isRoot (op.mapIns st.resolve) = true) :
    ∃ buf, op.routed b σ.mem = some buf ∧
      Related b.len ops isRoot D (n + 1) (st.step isRoot op)
        { σ with mem := Function.update σ.mem op.out buf } τ := by
  obtain ⟨hl, hlive, helem⟩ := ScanInv.hits_iff.1 hit
  rw [ScanInv.mapIns_isLoad] at hl
  obtain ⟨hins, hout2, hlen, h0, hlt⟩ := hg.loads op (List.mem_of_getElem? hop) hl.opcode_eq
  have hin : (op.mapIns st.resolve).input 0 = st.resolve (op.input 0) :=
    Op.mapIns_input (by simp [hins])
  rw [hin] at hlive
  rw [hin, Op.mapIns_imm] at helem
  refine ⟨_, Op.routed_index hl.opcode_eq b _, h.next hg hD hop h.world h.shared ?_ ?_ ?_ ?_ ?_⟩
  · intro s hs
    have hso : s ≠ op.out := fun heq => hs (by simp [heq])
    simp [hso]
  · exact fun _ _ => rfl
  · intro s hs hr
    obtain rfl : s = op.out := by simpa [hout2] using hs
    rw [LoadScan.step_hit hst hit] at hr
    simp at hr
  · intro _ _ hw
    obtain ⟨sop, ha, -⟩ := h.inv.live _ hlive
    obtain ⟨h1, h2⟩ := h.stored _ hlive fun j hj hjn => hw j hj (by omega)
    have hne : (st.lastStore (st.resolve (op.input 0))).value ≠ op.out := by
      intro heq
      exact hw n ha.lt (by omega) ⟨op, hop, by simp [heq]⟩
    have h0m : op.input 0 ∈ op.operands := by
      rw [Op.operands, hl.opcode_eq]
      simp [Opcode.isInplaceStore, hins]
    have hself := h.operand_self hg hsafe hop h0m (e := (op.imm 0).toNat) (by omega)
    rw [helem, hself] at h1 h2
    simp only [Function.update_of_ne hne, Function.update_self, hhome, id_eq]
    exact ⟨h1, h2⟩
  · intro hel
    rw [hl.opcode_eq] at hel
    cases hel

/-- A load that is not answered reads the same element. -/
lemma next_load (h : Related b.len ops isRoot D n st σ τ) (hhome : b.home = id)
    (hg : ChainGraph b.len ops) (hsafe : ForwardsSafely ops isRoot) (hD : DropSound ops isRoot D)
    (hop : ops[n]? = some op) (hi : op.opcode = .index)
    (hit : st.hits isRoot (op.mapIns st.resolve) = false) :
    ∃ buf buf', op.routed b σ.mem = some buf ∧ (op.mapIns st.resolve).routed b τ.mem = some buf' ∧
      Related b.len ops isRoot D (n + 1) (st.step isRoot op)
        { σ with mem := Function.update σ.mem op.out buf }
        { τ with mem := Function.update τ.mem op.out buf' } := by
  obtain ⟨hins, hout2, hlen, h0, hlt⟩ := hg.loads op (List.mem_of_getElem? hop) hi
  have hin : (op.mapIns st.resolve).input 0 = st.resolve (op.input 0) :=
    Op.mapIns_input (by simp [hins])
  have h0m : op.input 0 ∈ op.operands := by
    rw [Op.operands, hi]
    simp [Opcode.isInplaceStore, hins]
  obtain ⟨-, hcell⟩ := h.operand hg hsafe hD hop (.inr hit) h0m
  have hval := hcell (op.imm 0).toNat (by omega)
  refine ⟨_, _, Op.routed_index hi b _, Op.routed_index (by simpa using hi) b _,
    h.next hg hD hop h.world h.shared ?_ ?_ ?_ ?_ ?_⟩
  · intro s hs
    have hso : s ≠ op.out := fun heq => hs (by simp [heq])
    simp [hso]
  · intro s hs
    have hso : s ≠ op.out := fun heq => hs (by simp [heq])
    simp [hso]
  · intro s hs hr e he _
    obtain rfl : s = op.out := by simpa [hout2] using hs
    obtain rfl : e = 0 := by omega
    simp only [Op.mapIns_imm, Function.update_self, hin, hhome, id_eq]
    exact hval
  · intro _ hhit
    simp [hit] at hhit
  · intro hel
    rw [hi] at hel
    cases hel

/-- Any other kernel gets the same inputs. -/
lemma next_kernel (h : Related b.len ops isRoot D n st σ τ) (hhome : b.home = id)
    (hg : ChainGraph b.len ops) (hD : DropSound ops isRoot D)
    (hop : ops[n]? = some op) (hr : op.opcode.isRouted = false) (r : KernelOut V S) (w : W) :
    Related b.len ops isRoot D (n + 1) (st.step isRoot op)
      { mem := op.store b r.out r.out2 σ.mem, world := w, shared := σ.shared }
      { mem := (op.mapIns st.resolve).store b r.out r.out2 τ.mem, world := w
        shared := τ.shared } := by
  have hst := Opcode.isStore_eq_false_of_isRouted_eq_false hr
  have hni : op.opcode ≠ .index := by
    rintro hi
    rw [hi] at hr
    cases hr
  refine h.next hg hD hop rfl h.shared ?_ ?_ ?_ ?_ ?_
  · exact fun s hs => Op.store_apply_of_notMem op (fun t _ => congrFun hhome t) hs
  · exact fun s hs => Op.store_apply_of_notMem (op.mapIns st.resolve)
      (fun t _ => congrFun hhome t) hs
  · intro s hs _ e _ _
    exact congrFun
      (Op.store_apply_of_mem op (op.mapIns st.resolve) (fun t _ => congrFun hhome t)
        (fun t _ => congrFun hhome t) rfl rfl hs) e
  · intro _ hit
    exact absurd (ScanInv.mapIns_isLoad.1 (ScanInv.hits_iff.1 hit).1).opcode_eq hni
  · intro hel
    simp [Opcode.isStore_of_isElementStore hel] at hst

end Steps

end Related

/-! ## The first scan as a rewriter -/

/-- The first scan, once the drop flags are known. -/
def LoadScan.rewriter (isRoot D : ℕ → Bool) : Rewriter (LoadScan U) (Op U) (Op U) where
  emit st op := if D st.ops.length then none else some (op.mapIns st.resolve)
  next st op := st.step isRoot op

section Rewriter

variable {ops : List (Op U)} {isRoot D : ℕ → Bool} {b : Binding} {K : Kernels U V S W}

lemma LoadScan.step_ops (st : LoadScan U) (op : Op U) :
    (st.step isRoot op).ops = st.ops ++ [op.mapIns st.resolve] := by
  by_cases hst : op.opcode.isStore = true
  · by_cases he : op.opcode.isElementStore = true
    · rw [LoadScan.step_element he]
    · rw [LoadScan.step_slice hst (by simpa using he)]
  · rw [Bool.not_eq_true] at hst
    by_cases hit : st.hits isRoot (op.mapIns st.resolve) = true
    · rw [LoadScan.step_hit hst hit]
    · rw [LoadScan.step_other hst (by simpa using hit)]

/-- The kept ops are the scanned ones without the dropped ones. -/
lemma LoadScan.run_eq (isRoot D : ℕ → Bool) (st : LoadScan U) (rest : List (Op U)) :
    ∃ l, (rest.foldl (LoadScan.step isRoot) st).ops = st.ops ++ l ∧
      (LoadScan.rewriter isRoot D).run st rest = eraseDropped D st.ops.length l := by
  induction rest generalizing st with
  | nil => exact ⟨[], by simp, rfl⟩
  | cons op rest ih =>
    obtain ⟨l, hl, hrun⟩ := ih (st.step isRoot op)
    refine ⟨op.mapIns st.resolve :: l, by rw [List.foldl_cons, hl, step_ops]; simp, ?_⟩
    have hlen : (st.step isRoot op).ops.length = st.ops.length + 1 := by simp [step_ops]
    rw [hlen] at hrun
    by_cases hd : D st.ops.length = true
    · have he : (LoadScan.rewriter isRoot D).emit st op = none := if_pos hd
      rw [Rewriter.run_cons_none he, eraseDropped, if_pos hd]
      exact hrun
    · have he : (LoadScan.rewriter isRoot D).emit st op = some (op.mapIns st.resolve) := if_neg hd
      rw [Rewriter.run_cons_some he, eraseDropped, if_neg hd]
      exact congrArg _ hrun

lemma LoadScan.emit_eq_some {st : LoadScan U} {op k : Op U}
    (h : (LoadScan.rewriter isRoot D).emit st op = some k) :
    D st.ops.length = false ∧ k = op.mapIns st.resolve := by
  simp only [rewriter] at h
  by_cases hd : D st.ops.length = true
  · simp [hd] at h
  · rw [if_neg hd] at h
    exact ⟨by simpa using hd, (Option.some.inj h).symm⟩

lemma LoadScan.emit_eq_none {st : LoadScan U} {op : Op U}
    (h : (LoadScan.rewriter isRoot D).emit st op = none) : D st.ops.length = true := by
  simp only [rewriter] at h
  by_cases hd : D st.ops.length = true
  · exact hd
  · rw [if_neg hd] at h
    cases h

/-- The sweep of the kept ops simulates the sweep of the graph. -/
lemma LoadScan.simulates (hhome : b.home = id) (hg : ChainGraph b.len ops)
    (hsafe : ForwardsSafely ops isRoot) (hDrop : DropSound ops isRoot D)
    (hDeq : D = (ops.foldl (LoadScan.step isRoot) {}).drop) (s : SweepState V S W) :
    Rewriter.Simulated
      (fun σ τ => τ.world = σ.world ∧ ∀ r, isRoot r = true → b.read τ.mem r = b.read σ.mem r)
      (fun o o' => o'.inputs = o.inputs) ((LoadScan.rewriter isRoot D).mask {} ops)
      ((forwardMachine K b).run ops s)
      ((forwardMachine K b).run ((LoadScan.rewriter isRoot D).run {} ops) s) := by
  have hc := hg.operandCounts
  have hd := hg.loadsDistinct
  refine Rewriter.run_simulates (LoadScan.rewriter isRoot D)
    (R := fun st rest σ τ => ∃ n, ops.drop n = rest ∧
      D = (rest.foldl (LoadScan.step isRoot) st).drop ∧ Related b.len ops isRoot D n st σ τ)
    ?_ ?_ ?_ ⟨0, rfl, hDeq, ScanInv.zero, rfl, rfl, fun _ _ _ _ _ => rfl,
      fun _ _ _ _ h => by simp at h, fun _ h => by simp at h⟩
  · rintro st σ τ ⟨n, hrest, -, h⟩
    refine ⟨h.world, fun r hr => Binding.read_eq_read rfl fun e he => ?_⟩
    rw [hhome]
    refine h.cell r e ?_ he fun hdoom => ?_
    · by_contra hne
      obtain ⟨w, hw⟩ := Option.ne_none_iff_exists'.1 hne
      obtain ⟨k, i, hki⟩ := h.inv.renamed r w hw
      cases hki with
      | answered _ _ hl hout =>
        rw [← hout, hl.notRoot] at hr
        cases hr
    · obtain ⟨i, k, -, hk, hsup, -⟩ := h.doomed_superseded hDrop hdoom
      obtain ⟨-, ok, -, hok, -⟩ := hsup.ops_eq
      have hlt := (List.getElem?_eq_some_iff.1 hok).1
      have hlen := List.drop_eq_nil_iff.1 hrest
      omega
  · rintro st op k rest σ τ he ⟨n, hrest, hD, h⟩
    obtain ⟨hop, hrest'⟩ := drop_succ_eq hrest
    have hmem := List.mem_of_getElem? hop
    have hp := hg.noPrimal op hmem
    obtain ⟨hdn, rfl⟩ := LoadScan.emit_eq_some he
    rw [h.inv.length_eq] at hdn
    have hit : op.opcode.isStore = true ∨ st.hits isRoot (op.mapIns st.resolve) = false := by
      by_contra hno
      rw [not_or, Bool.not_eq_true, Bool.not_eq_false] at hno
      have hfin := (h.inv.step hc hd hop).foldl_drop hc hd hrest' (Nat.lt_succ_self n) hop hno.1
      rw [LoadScan.step_hit hno.1 hno.2] at hfin
      simp only [h.inv.length_eq, Function.update_self] at hfin
      rw [hD, List.foldl_cons, LoadScan.step_hit hno.1 hno.2] at hdn
      simp only [h.inv.length_eq] at hdn
      rw [hfin] at hdn
      cases hdn
    have hshown := h.shown_eq hhome hg hsafe hDrop hop hit
    by_cases hr : op.opcode.isRouted = true
    · have hnext : ∃ buf buf', op.routed b σ.mem = some buf ∧
          (op.mapIns st.resolve).routed b τ.mem = some buf' ∧
          Related b.len ops isRoot D (n + 1) (st.step isRoot op)
            { σ with mem := Function.update σ.mem op.out buf }
            { τ with mem := Function.update τ.mem op.out buf' } := by
        by_cases hst : op.opcode.isStore = true
        · obtain ⟨buf, buf', h1, h2, h3⟩ := h.next_store hhome hg hsafe hDrop hop hst
          simp only [hdn, Bool.false_eq_true, if_false] at h3
          exact ⟨buf, buf', h1, h2, h3⟩
        · have hi : op.opcode = .index := by
            rw [Opcode.isRouted_iff] at hr
            rcases hr with hr | hr | hr
            · exact hr
            · exact absurd (by simp [Opcode.isStore, hr]) hst
            · exact absurd (by simp [Opcode.isStore, hr]) hst
          exact h.next_load hhome hg hsafe hDrop hop hi (hit.resolve_left hst)
      obtain ⟨buf, buf', hbuf, hbuf', hrel⟩ := hnext
      have hτ : forwardOp K b (op.mapIns st.resolve) τ = _ := forwardOp_routed hp hbuf'
      refine .inr ⟨_, _, _, _, forwardOp_routed hp hbuf, hτ, hshown, n + 1, hrest', ?_, ?_⟩
      · rw [hD]
        rfl
      · rw [hhome]
        exact hrel
    · rw [Bool.not_eq_true] at hr
      have hst := Opcode.isStore_eq_false_of_isRouted_eq_false hr
      have hnip : op.opcode.isInplaceStore = false := by
        simp only [Opcode.isRouted, Bool.or_eq_false_iff] at hr
        exact hr.2
      have hins : (op.mapIns st.resolve).ins.map (b.read τ.mem) = op.ins.map (b.read σ.mem) := by
        rw [← Op.shown_of_not_inplace hnip, ← hshown, Op.shown_of_not_inplace (by simpa using hnip)]
      have hp' : (op.mapIns st.resolve).primalSource = none := hp
      rcases forwardOp_kernel_pair (K := K) (b := b) hp hp' hr rfl rfl rfl hins h.world with
        ⟨e, hσ, hτ⟩ | ⟨r, w, hσ, hτ⟩
      · exact .inl ⟨e, hσ, hτ⟩
      · refine .inr ⟨_, _, _, _, hσ, hτ, hshown, n + 1, hrest', ?_, ?_⟩
        · rw [hD]
          rfl
        · exact h.next_kernel hhome hg hDrop hop hr r w
  · rintro st op rest σ τ he ⟨n, hrest, hD, h⟩
    obtain ⟨hop, hrest'⟩ := drop_succ_eq hrest
    have hmem := List.mem_of_getElem? hop
    have hp := hg.noPrimal op hmem
    have hdn := LoadScan.emit_eq_none he
    rw [h.inv.length_eq] at hdn
    by_cases hst : op.opcode.isStore = true
    · obtain ⟨buf, buf', h1, -, h3⟩ := h.next_store hhome hg hsafe hDrop hop hst
      simp only [hdn, if_true] at h3
      refine ⟨_, _, forwardOp_routed hp h1, n + 1, hrest', ?_, ?_⟩
      · rw [hD]
        rfl
      · rw [hhome]
        exact h3
    · rw [Bool.not_eq_true] at hst
      have hit : st.hits isRoot (op.mapIns st.resolve) = true := by
        by_contra hno
        rw [Bool.not_eq_true] at hno
        have hfin := (h.inv.step hc hd hop).foldl_drop hc hd hrest' (Nat.lt_succ_self n) hop hst
        rw [hD, List.foldl_cons, hfin, LoadScan.step_other hst hno] at hdn
        have := (h.inv.drop n hdn).1
        omega
      obtain ⟨buf, h1, h2⟩ := h.next_hit hhome hg hsafe hDrop hop hst hit
      refine ⟨_, _, forwardOp_routed hp h1, n + 1, hrest', ?_, ?_⟩
      · rw [hD]
        rfl
      · rw [hhome]
        exact h2

end Rewriter

end Stanli
