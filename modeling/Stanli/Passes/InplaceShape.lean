import Stanli.Graph.Session
import Stanli.Passes.InplaceSound

/-!
# The shape of the rewritten graph

What `make_inplace_updates` leaves when slots may be written several times, as long as a copying store
writes a fresh slot: the ops are in evaluation order and inside their buffers (`SelfContained`).
-/

namespace Stanli

variable {U V S W : Type*} {g : Graph U} {isRoot : ℕ → Bool} {roots : List ℕ} {n : ℕ} {op : Op U}

/-- Graphs in which a store that is rewritten in place owns the slot it gives up: no other op produces
it.  A producer behind the store would write an emptied buffer. -/
structure OwnedGraph (g : Graph U) (roots : List ℕ) : Prop extends StoreGraph g where
  owned : ∀ (j k : ℕ) (o o' : Op U), g.ops[j]? = some o → o.opcode.isInplaceStore = false →
    (makeInplaceUpdates g roots).1.ops[j]? = some o' → o'.opcode.isInplaceStore = true →
    Producer g.ops o.out k → k = j

/-- The scan before op `n`. -/
def InplaceScan.before (g : Graph U) (isRoot : ℕ → Bool) (n : ℕ) : InplaceScan :=
  (InplaceScan.rewriter g isRoot).final (InplaceScan.start g) (g.ops.take n)

namespace InplaceScan

lemma before_succ (hop : g.ops[n]? = some op) :
    before g isRoot (n + 1) = (before g isRoot n).step g isRoot op :=
  Rewriter.final_take_succ _ _ hop

lemma before_length : before g isRoot g.ops.length =
    (rewriter g isRoot).final (start g) g.ops := by
  rw [before, List.take_length]

/-- The op that replaces op `n`. -/
lemma rewritten_getElem? : ((rewriter g isRoot).run (start g) g.ops)[n]? =
    g.ops[n]?.map ((before g isRoot n).rewrite g isRoot) := by
  rw [Rewriter.run_getElem? _ (fun _ _ => Option.some_ne_none _)]
  cases g.ops[n]? <;> rfl

/-- The names a step adds. -/
lemma step_rename (st : InplaceScan) (s : ℕ) : (st.step g isRoot op).rename s =
    if st.eligible g isRoot op = true ∧ s = op.out then
      some ((op.mapIns st.resolve).input 0) else st.rename s := by
  by_cases he : st.eligible g isRoot op = true
  · rw [InplaceInv.step_eligible he]
    by_cases hs : s = op.out
    · simp [he, hs]
    · simp [hs]
  · have hne : ¬ (st.eligible g isRoot op = true ∧ s = op.out) := fun h => he h.1
    rw [InplaceInv.step_not_eligible (by simpa using he)]
    simp only [hne, if_false]

/-- A slot that has another name keeps having one. -/
lemma rename_mono {m s : ℕ} (hnm : n ≤ m) (h : (before g isRoot n).rename s ≠ none) :
    (before g isRoot m).rename s ≠ none := by
  induction m with
  | zero =>
    obtain rfl : n = 0 := by omega
    exact h
  | succ m ih =>
    rcases Nat.lt_succ_iff_lt_or_eq.1 (Nat.lt_succ_of_le hnm) with hlt | rfl
    · have hm := ih (by omega)
      cases hop : g.ops[m]? with
      | none =>
        have hlen := List.getElem?_eq_none_iff.1 hop
        have heq : before g isRoot (m + 1) = before g isRoot m := by
          rw [before, before, List.take_of_length_le hlen, List.take_of_length_le (by omega)]
        rwa [heq]
      | some o =>
        rw [before_succ hop, step_rename]
        split
        · simp
        · exact hm
    · exact h

end InplaceScan

/-- The op that replaces op `n`. -/
lemma makeInplaceUpdates_getElem? : (makeInplaceUpdates g roots).1.ops[n]? =
    g.ops[n]?.map ((InplaceScan.before g (g.isRoot roots) n).rewrite g (g.isRoot roots)) :=
  InplaceScan.rewritten_getElem?

/-- An op of the rewritten graph replaces one. -/
lemma exists_of_makeInplaceUpdates (hop : (makeInplaceUpdates g roots).1.ops[n]? = some op) :
    ∃ o, g.ops[n]? = some o ∧
      op = (InplaceScan.before g (g.isRoot roots) n).rewrite g (g.isRoot roots) o := by
  rw [makeInplaceUpdates_getElem?] at hop
  cases ho : g.ops[n]? with
  | none => simp [ho] at hop
  | some o => exact ⟨o, rfl, by simpa [ho, eq_comm] using hop⟩

/-- What the scan knows before op `n`. -/
structure ShapeInv (g : Graph U) (isRoot : ℕ → Bool) (n : ℕ) : Prop where
  slots : ∀ s, (InplaceScan.before g isRoot n).rename s = none →
    (InplaceScan.before g isRoot n).slots[s]? = g.slots[s]?
  renamed : ∀ s v, (InplaceScan.before g isRoot n).rename s = some v →
    (InplaceScan.before g isRoot n).rename v = none ∧ g.len v = g.len s ∧
    (∃ j < n, ∃ o, g.ops[j]? = some o ∧
      (InplaceScan.before g isRoot j).eligible g isRoot o = true ∧ s = o.out) ∧
    ∃ j < n, Producer g.ops v j
  safe : ∀ s, (InplaceScan.before g isRoot n).outputSafe s = true → ∃ j < n, Producer g.ops s j

namespace OwnedGraph

/-- The op that replaces op `n`: the op with its inputs renamed, or a store in place. -/
lemma rewrite_cases (hg : StoreGraph g) (st : InplaceScan) (hop : g.ops[n]? = some op) :
    (op.opcode.isInplaceStore = false ∧ st.eligible g (g.isRoot roots) op = false ∧
      st.rewrite g (g.isRoot roots) op = op.mapIns st.resolve) ∨
    (op.StoreContract g.len ∧
      (op.opcode.isInplaceStore = true ∨ st.eligible g (g.isRoot roots) op = true) ∧
      (st.rewrite g (g.isRoot roots) op).opcode.isInplaceStore = true ∧
      (st.rewrite g (g.isRoot roots) op).ins = op.ins.map st.resolve ∧
      (st.rewrite g (g.isRoot roots) op).out2 = none ∧
      (st.rewrite g (g.isRoot roots) op).out = st.resolve (op.input 0) ∧
      ∀ m, (st.rewrite g (g.isRoot roots) op).comb m = op.comb m) := by
  by_cases he : st.eligible g (g.isRoot roots) op = true
  · have hc := hg.contract hop (by simp [Opcode.isStore, (InplaceInv.eligible_facts he).1])
    obtain ⟨oc, hoc, hrw⟩ := @ScanAt.rewrite_eligible U g (g.isRoot roots) (st, fun _ => false) op hc he
    obtain ⟨hip, hcomb⟩ := inplaceForm_facts (U := U) hoc
    change st.rewrite g (g.isRoot roots) op = _ at hrw
    rw [hrw]
    exact .inr ⟨hc, .inr he, hip, rfl, hc.out2_eq, rfl, hcomb op _ rfl rfl rfl⟩
  · rw [Bool.not_eq_true] at he
    by_cases hip : op.opcode.isInplaceStore = true
    · have hc := hg.contract hop (Opcode.isStore_of_isInplaceStore hip)
      obtain ⟨-, hrw⟩ := @ScanAt.rewrite_inplace U g (g.isRoot roots) (st, fun _ => false) op hc hip
      change st.rewrite g (g.isRoot roots) op = _ at hrw
      rw [hrw]
      exact .inr ⟨hc, .inl hip, hip, rfl, hc.out2_eq, by rw [← (hc.inplace hip).1], fun _ => rfl⟩
    · rw [Bool.not_eq_true] at hip
      exact .inl ⟨hip, he, @ScanAt.rewrite_not_eligible U g (g.isRoot roots) (st, fun _ => false) op he hip⟩

/-- The producer of what a rewritten store writes is that store. -/
lemma unique (hg : OwnedGraph g roots) {j k : ℕ} {o : Op U} (ho : g.ops[j]? = some o)
    (he : (InplaceScan.before g (g.isRoot roots) j).eligible g (g.isRoot roots) o = true)
    (hk : Producer g.ops o.out k) : k = j := by
  have hnip := Opcode.isInplaceStore_eq_false_of_isCopyingStore (InplaceInv.eligible_facts he).1
  refine hg.owned j k o _ ho hnip (makeInplaceUpdates_getElem?.trans (by rw [ho]; rfl)) ?_ hk
  rcases rewrite_cases hg.toStoreGraph (InplaceScan.before g (g.isRoot roots) j) ho with
    ⟨-, hne, -⟩ | ⟨-, -, hip, -⟩
  · rw [he] at hne
    cases hne
  · exact hip

/-- Graphs in which no slot that a copying store writes has another producer. -/
lemma of_fresh (hg : StoreGraph g) (hfresh : g.ops.Pairwise fun o o' =>
    o.opcode.isCopyingStore = true ∨ o'.opcode.isCopyingStore = true →
    o.opcode.isInplaceStore = false → o'.opcode.isInplaceStore = false → ∀ s ∈ o.outs, s ∉ o'.outs) :
    OwnedGraph g roots := by
  refine ⟨hg, fun j k o o' ho hnip ho' hip hk => ?_⟩
  have hcp : o.opcode.isCopyingStore = true := by
    rw [makeInplaceUpdates_getElem?, ho, Option.map_some, Option.some.injEq] at ho'
    subst ho'
    rcases rewrite_cases hg (InplaceScan.before g (g.isRoot roots) j) ho with
      ⟨-, -, hrw⟩ | ⟨-, hip' | he, -⟩
    · rw [hrw, Op.mapIns_opcode, hnip] at hip
      cases hip
    · rw [hnip] at hip'
      cases hip'
    · exact (InplaceInv.eligible_facts he).1
  obtain ⟨o₂, ho₂, hip₂, hso⟩ := hk
  obtain ⟨hj, rfl⟩ := List.getElem?_eq_some_iff.1 ho
  obtain ⟨hk, rfl⟩ := List.getElem?_eq_some_iff.1 ho₂
  have hpair := List.pairwise_iff_getElem.1 hfresh
  rcases Nat.lt_trichotomy j k with h | h | h
  · exact absurd hso (hpair j k hj hk h (.inl hcp) hnip hip₂ _ (by simp))
  · exact h.symm
  · exact absurd (by simp) (hpair k j hk hj h (.inr hcp) hip₂ hnip _ hso)

/-- The invariant after a store that is rewritten. -/
lemma shapeInv_eligible (hg : OwnedGraph g roots) (h : ShapeInv g (g.isRoot roots) n) (hop : g.ops[n]? = some op)
    (he : (InplaceScan.before g (g.isRoot roots) n).eligible g (g.isRoot roots) op = true) :
    ShapeInv g (g.isRoot roots) (n + 1) := by
  obtain ⟨hcp, -, -, hsafe, -⟩ := InplaceInv.eligible_facts he
  have hc := hg.contract hop (by simp [Opcode.isStore, hcp])
  have hnip := Opcode.isInplaceStore_eq_false_of_isCopyingStore hcp
  have hin0 : (op.mapIns (InplaceScan.before g (g.isRoot roots) n).resolve).input 0 =
      (InplaceScan.before g (g.isRoot roots) n).resolve (op.input 0) := Op.mapIns_input (by simp [hc.ins_eq])
  rw [hin0] at hsafe
  -- the base has been produced, so it is not the store's own output
  obtain ⟨jv, hjv, hpv⟩ := h.safe _ hsafe
  have hvo : (InplaceScan.before g (g.isRoot roots) n).resolve (op.input 0) ≠ op.out := by
    intro heq
    have := hg.unique hop he (heq ▸ hpv)
    omega
  have hbase : (InplaceScan.before g (g.isRoot roots) n).rename
        ((InplaceScan.before g (g.isRoot roots) n).resolve (op.input 0)) = none ∧
      g.len ((InplaceScan.before g (g.isRoot roots) n).resolve (op.input 0)) = g.len op.out := by
    rw [(hc.copying hnip).2.2]
    cases hr : (InplaceScan.before g (g.isRoot roots) n).rename (op.input 0) with
    | none =>
      rw [InplaceInv.resolve_of_none hr]
      exact ⟨hr, rfl⟩
    | some v =>
      obtain ⟨h1, h2, -⟩ := h.renamed _ v hr
      rw [InplaceInv.resolve_of_some hr]
      exact ⟨h1, h2⟩
  have hrename : ∀ s, (InplaceScan.before g (g.isRoot roots) (n + 1)).rename s = if s = op.out then
      some ((InplaceScan.before g (g.isRoot roots) n).resolve (op.input 0))
      else (InplaceScan.before g (g.isRoot roots) n).rename s := by
    intro s
    rw [InplaceScan.before_succ hop, InplaceScan.step_rename, hin0]
    simp only [he, true_and]
  constructor
  · intro s hs
    rw [hrename] at hs
    have hso : s ≠ op.out := by
      rintro rfl
      simp at hs
    rw [if_neg hso] at hs
    rw [InplaceScan.before_succ hop, InplaceInv.step_eligible he, List.getElem?_modify]
    simp [Ne.symm hso, h.slots s hs]
  · intro s v hs
    rw [hrename] at hs
    by_cases hso : s = op.out
    · rw [if_pos hso, Option.some.injEq] at hs
      subst hs
      rw [hrename, if_neg hvo, hso]
      exact ⟨hbase.1, hbase.2, ⟨n, by omega, op, hop, he, rfl⟩, jv, by omega, hpv⟩
    · rw [if_neg hso] at hs
      obtain ⟨h1, h2, ⟨j, hj, h3⟩, k, hk, h4⟩ := h.renamed s v hs
      have hv : v ≠ op.out := by
        rintro rfl
        have := hg.unique hop he h4
        omega
      rw [hrename, if_neg hv]
      exact ⟨h1, h2, ⟨j, by omega, h3⟩, k, by omega, h4⟩
  · intro s hs
    rw [InplaceScan.before_succ hop, InplaceInv.step_eligible he] at hs
    obtain ⟨j, hj, hp⟩ := h.safe s hs
    exact ⟨j, by omega, hp⟩

/-- The invariant of the scan. -/
lemma shapeInv (hg : OwnedGraph g roots) (hn : n ≤ g.ops.length) :
    ShapeInv g (g.isRoot roots) n := by
  induction n with
  | zero =>
    exact ⟨fun _ _ => rfl, fun s v h => by simp [InplaceScan.before, InplaceScan.start,
      Rewriter.final] at h, fun s h => by simp [InplaceScan.before, InplaceScan.start,
      Rewriter.final] at h⟩
  | succ n ih =>
    have h := ih (by omega)
    have hop : g.ops[n]? = some g.ops[n] := List.getElem?_eq_getElem (by omega)
    by_cases he : (InplaceScan.before g (g.isRoot roots) n).eligible g (g.isRoot roots) g.ops[n] = true
    · exact hg.shapeInv_eligible h hop he
    · rw [Bool.not_eq_true] at he
      have hstep := InplaceInv.step_not_eligible he
      constructor
      · intro s hs
        rw [InplaceScan.before_succ hop, hstep] at hs ⊢
        exact h.slots s hs
      · intro s v hs
        rw [InplaceScan.before_succ hop, hstep] at hs ⊢
        obtain ⟨h1, h2, ⟨j, hj, h3⟩, k, hk, h4⟩ := h.renamed s v hs
        exact ⟨h1, h2, ⟨j, by omega, h3⟩, k, by omega, h4⟩
      · intro s hs
        rw [InplaceScan.before_succ hop, hstep] at hs
        rcases InplaceInv.markOutputs_true hg.toStoreGraph hop hs with hs | hp
        · obtain ⟨j, hj, hp⟩ := h.safe s hs
          exact ⟨j, by omega, hp⟩
        · exact ⟨n, by omega, hp⟩

/-- A slot that has its own name after its producer keeps it. -/
lemma own_name_final (hg : OwnedGraph g roots) {s : ℕ}
    (hprod : ∀ k, Producer g.ops s k → ∃ i < n, Producer g.ops s i)
    (hs : (InplaceScan.before g (g.isRoot roots) n).rename s = none) :
    (InplaceScan.before g (g.isRoot roots) g.ops.length).rename s = none := by
  by_contra hne
  obtain ⟨v, hv⟩ := Option.ne_none_iff_exists'.1 hne
  obtain ⟨-, -, ⟨j, -, o, ho, he, rfl⟩, -⟩ := (hg.shapeInv (le_refl _)).renamed s v hv
  have hcp := (InplaceInv.eligible_facts he).1
  have hnip := Opcode.isInplaceStore_eq_false_of_isCopyingStore hcp
  obtain ⟨i, hi, hp⟩ := hprod j ⟨o, ho, hnip, by simp⟩
  obtain rfl := hg.unique ho he hp
  have hnext : (InplaceScan.before g (g.isRoot roots) (i + 1)).rename o.out ≠ none := by
    rw [InplaceScan.before_succ ho, InplaceScan.step_rename, if_pos ⟨he, rfl⟩]
    simp
  exact InplaceScan.rename_mono (Nat.succ_le_of_lt hi) hnext hs

/-- What op `n` produces keeps its name and its length, unless the op is rewritten. -/
lemma len_out (hg : OwnedGraph g roots) (hop : g.ops[n]? = some op)
    (hnip : op.opcode.isInplaceStore = false)
    (he : (InplaceScan.before g (g.isRoot roots) n).eligible g (g.isRoot roots) op = false) {s : ℕ} (hs : s ∈ op.outs) :
    (InplaceScan.before g (g.isRoot roots) g.ops.length).rename s = none := by
  by_contra hne
  obtain ⟨v, hv⟩ := Option.ne_none_iff_exists'.1 hne
  obtain ⟨-, -, ⟨j, -, o, ho, he', rfl⟩, -⟩ := (hg.shapeInv (le_refl _)).renamed s v hv
  obtain rfl := hg.unique ho he' ⟨op, hop, hnip, hs⟩
  obtain rfl := Option.some.inj (hop.symm.trans ho)
  rw [he'] at he
  cases he

/-- What stands for a slot op `n` reads has been produced before, if at all. -/
lemma read_facts (hg : OwnedGraph g roots) (hop : g.ops[n]? = some op) {s : ℕ} (hs : s ∈ op.ins) :
    (InplaceScan.before g (g.isRoot roots) n).rename ((InplaceScan.before g (g.isRoot roots) n).resolve s) = none ∧
      g.len ((InplaceScan.before g (g.isRoot roots) n).resolve s) = g.len s ∧
      ∀ k, Producer g.ops ((InplaceScan.before g (g.isRoot roots) n).resolve s) k →
        ∃ i < n, Producer g.ops ((InplaceScan.before g (g.isRoot roots) n).resolve s) i := by
  have hn : n ≤ g.ops.length := Nat.le_of_lt (List.getElem?_eq_some_iff.1 hop).1
  cases hr : (InplaceScan.before g (g.isRoot roots) n).rename s with
  | none =>
    rw [InplaceInv.resolve_of_none hr]
    exact ⟨hr, rfl, fun k hk => hg.producer_lt hop hs hk.writes⟩
  | some v =>
    obtain ⟨h1, h2, -, h4⟩ := (hg.shapeInv hn).renamed s v hr
    rw [InplaceInv.resolve_of_some hr]
    exact ⟨h1, h2, fun _ _ => h4⟩

end OwnedGraph

section Rewritten

lemma OwnedGraph.len_eq (hg : OwnedGraph g roots) {s : ℕ}
    (hs : (InplaceScan.before g (g.isRoot roots) g.ops.length).rename s = none) :
    (makeInplaceUpdates g roots).1.len s = g.len s := by
  have hslots : (makeInplaceUpdates g roots).1.slots =
      (InplaceScan.before g (g.isRoot roots) g.ops.length).slots := by
    rw [InplaceScan.before_length]
    rfl
  unfold Graph.len
  rw [hslots, (hg.shapeInv (le_refl _)).slots s hs]

/-- A producer that is not rewritten is still there. -/
lemma OwnedGraph.writes_of_producer (hg : OwnedGraph g roots) {s i : ℕ} (hp : Producer g.ops s i)
    (hin : i < n) (hs : (InplaceScan.before g (g.isRoot roots) n).rename s = none) :
    Writes (makeInplaceUpdates g roots).1.ops s i := by
  obtain ⟨o, ho, hip, hso⟩ := hp
  have he : (InplaceScan.before g (g.isRoot roots) i).eligible g (g.isRoot roots) o = false := by
    by_contra he
    rw [Bool.not_eq_false] at he
    have hc := hg.contract ho (by simp [Opcode.isStore, (InplaceInv.eligible_facts he).1])
    obtain rfl : s = o.out := by simpa [hc.out2_eq] using hso
    have hnext : (InplaceScan.before g (g.isRoot roots) (i + 1)).rename o.out ≠ none := by
      rw [InplaceScan.before_succ ho, InplaceScan.step_rename, if_pos ⟨he, rfl⟩]
      simp
    exact InplaceScan.rename_mono (Nat.succ_le_of_lt hin) hnext hs
  refine ⟨_, InplaceScan.rewritten_getElem?.trans (by rw [ho]; rfl), ?_⟩
  rw [@ScanAt.rewrite_not_eligible U g (g.isRoot roots)
    (InplaceScan.before g (g.isRoot roots) i, fun _ => false) o he hip]
  exact hso

/-- A slot the rewritten graph writes has a producer. -/
lemma OwnedGraph.exists_producer_of_writes (hg : OwnedGraph g roots) {s j : ℕ}
    (hw : Writes (makeInplaceUpdates g roots).1.ops s j) : ∃ k, Producer g.ops s k := by
  obtain ⟨op, hop, hs⟩ := hw
  obtain ⟨o, ho, rfl⟩ := exists_of_makeInplaceUpdates hop
  rcases @OwnedGraph.rewrite_cases U g roots j o hg.toStoreGraph (InplaceScan.before g (g.isRoot roots) j) ho with
    ⟨hip, -, hrw⟩ | ⟨hc, hcase, -, -, h2, hout, -⟩
  · rw [hrw] at hs
    exact ⟨j, o, ho, hip, hs⟩
  · obtain rfl : s = (InplaceScan.before g (g.isRoot roots) j).resolve (o.input 0) := by
      simpa [Op.outs, h2, hout] using hs
    have hinv := hg.shapeInv
      (Nat.le_of_lt (List.getElem?_eq_some_iff.1 ho).1)
    cases hr : (InplaceScan.before g (g.isRoot roots) j).rename (o.input 0) with
    | some v =>
      obtain ⟨-, -, -, k, -, hk⟩ := hinv.renamed _ v hr
      rw [InplaceInv.resolve_of_some hr]
      exact ⟨k, hk⟩
    | none =>
      rw [InplaceInv.resolve_of_none hr]
      rcases hcase with hip | he
      · exact hg.exists_producer ⟨o, ho, by simp [(hc.inplace hip).1]⟩
      · obtain ⟨-, -, -, hsafe, -⟩ := InplaceInv.eligible_facts he
        rw [Op.mapIns_input (by simp [hc.ins_eq]), InplaceInv.resolve_of_none hr] at hsafe
        obtain ⟨k, -, hk⟩ := hinv.safe _ hsafe
        exact ⟨k, hk⟩

/-- The rewritten graph is in evaluation order and inside its buffers. -/
theorem OwnedGraph.selfContained (hg : OwnedGraph g roots) :
    SelfContained (makeInplaceUpdates g roots).1 := by
  -- what op `n` reads is as long as what it read before, and has been written before
  have hlen : ∀ {n o s}, g.ops[n]? = some o → s ∈ o.ins → (makeInplaceUpdates g roots).1.len
      ((InplaceScan.before g (g.isRoot roots) n).resolve s) = g.len s := by
    intro n o s ho hs
    obtain ⟨h1, h2, h3⟩ := hg.read_facts ho hs
    rw [hg.len_eq (hg.own_name_final h3 h1), h2]
  have hins : ∀ {n} {o : Op U}, g.ops[n]? = some o →
      ((InplaceScan.before g (g.isRoot roots) n).rewrite g (g.isRoot roots) o).ins =
        o.ins.map (InplaceScan.before g (g.isRoot roots) n).resolve := by
    intro n o ho
    rcases @OwnedGraph.rewrite_cases U g roots n o hg.toStoreGraph (InplaceScan.before g (g.isRoot roots) n) ho
      with ⟨-, -, hrw⟩ | ⟨-, -, -, hins, -⟩
    · rw [hrw]
      rfl
    · exact hins
  refine ⟨fun n s op hop hs j hw => ?_, fun op hop hip => ?_, fun op hop hi => ?_, fun op hop => ?_,
    fun op hop => ?_⟩
  · obtain ⟨o, ho, rfl⟩ := exists_of_makeInplaceUpdates hop
    rw [hins ho, List.mem_map] at hs
    obtain ⟨s, hs, rfl⟩ := hs
    obtain ⟨h1, -, h3⟩ := hg.read_facts ho hs
    obtain ⟨k, hk⟩ := hg.exists_producer_of_writes hw
    obtain ⟨i, hi, hp⟩ := h3 k hk
    exact ⟨i, hi, hg.writes_of_producer hp hi h1⟩
  all_goals
    obtain ⟨n, hn⟩ := List.mem_iff_getElem?.1 hop
    obtain ⟨o, ho, rfl⟩ := exists_of_makeInplaceUpdates hn
    have hmem := List.mem_of_getElem? ho
    have hcases := @OwnedGraph.rewrite_cases U g roots n o hg.toStoreGraph
      (InplaceScan.before g (g.isRoot roots) n) ho
  · rcases hcases with ⟨hnip, -, hrw⟩ | ⟨hc, -, -, hins', -, hout, -⟩
    · rw [hrw, Op.mapIns_opcode, hnip] at hip
      cases hip
    · rw [hout, hins', hc.ins_eq]
      simp
  · rcases hcases with ⟨hnip, he, hrw⟩ | ⟨-, -, hip, -⟩
    · rw [hrw] at hi ⊢
      obtain ⟨-, -, hlen1, -⟩ := hg.loads o hmem hi
      rw [Op.mapIns_out, hg.len_eq (hg.len_out ho hnip he (by simp)), hlen1]
    · exact absurd hi (Opcode.ne_index_of_isStore (Opcode.isStore_of_isInplaceStore hip))
  · rcases hcases with ⟨hnip, he, hrw⟩ | ⟨hc, -, hip, hins', h2, hout, hcomb⟩
    · rw [hrw]
      by_cases hr : o.opcode.isRouted = true
      · rcases Opcode.isRouted_iff.1 hr with hi | hcp | hip
        · obtain ⟨hins1, h2, -, h0, hlt⟩ := hg.loads o hmem hi
          have hin0 : (o.mapIns (InplaceScan.before g (g.isRoot roots) n).resolve).input 0 =
              (InplaceScan.before g (g.isRoot roots) n).resolve (o.input 0) :=
            Op.mapIns_input (by simp [hins1])
          have hmem0 : o.input 0 ∈ o.ins := by
            rw [hins1]
            simp
          refine Op.inBounds_of_load hi ⟨h2, Op.input_mem (by simp [hins1]), ?_⟩
          rw [hin0, hlen ho hmem0, Op.mapIns_imm]
          omega
        · have hc := hg.contract ho (by simp [Opcode.isStore, hcp])
          have hin0 : (o.mapIns (InplaceScan.before g (g.isRoot roots) n).resolve).input 0 =
              (InplaceScan.before g (g.isRoot roots) n).resolve (o.input 0) :=
            Op.mapIns_input (by simp [hc.ins_eq])
          have hin1 : (o.mapIns (InplaceScan.before g (g.isRoot roots) n).resolve).input 1 =
              (InplaceScan.before g (g.isRoot roots) n).resolve (o.input 1) :=
            Op.mapIns_input (by simp [hc.ins_eq])
          refine ⟨fun _ => hc.out2_eq, fun hi => ?_, fun _ => ?_, fun _ => ⟨by simp [hc.ins_eq], ?_⟩⟩
          · exact absurd hi (Opcode.ne_index_of_isStore (by simp [Opcode.isStore, hcp]))
          · rw [hin0, Op.mapIns_out, hg.len_eq (hg.len_out ho hnip he (by simp)),
              hlen ho (by rw [hc.ins_eq]; simp), (hc.copying hnip).2.2]
          · rw [hin1, hlen ho (by rw [hc.ins_eq]; simp), Op.mapIns_comb, hc.rhsLen]
        · rw [hip] at hnip
          cases hnip
      · exact Op.inBounds_of_kernel (by simpa using hr)
    · have hst := Opcode.isStore_of_isInplaceStore hip
      refine ⟨fun _ => h2, fun hi => absurd hi (Opcode.ne_index_of_isStore hst), fun hcp => ?_,
        fun _ => ⟨by rw [hins', hc.ins_eq]; simp, ?_⟩⟩
      · rw [Opcode.isInplaceStore_eq_false_of_isCopyingStore hcp] at hip
        cases hip
      · have hin1 : ((InplaceScan.before g (g.isRoot roots) n).rewrite g (g.isRoot roots) o).input 1 =
            (InplaceScan.before g (g.isRoot roots) n).resolve (o.input 1) := by
          rw [Op.input, hins', hc.ins_eq]
          rfl
        rw [hin1, hlen ho (by rw [hc.ins_eq]; simp), hcomb, hc.rhsLen]
  · rw [InplaceScan.rewrite_primalSource]
    exact hg.noPrimal o hmem

/-- The stores in place of the rewritten graph update their base. -/
lemma OwnedGraph.inplace_base (hg : OwnedGraph g roots) (hop : op ∈ (makeInplaceUpdates g roots).1.ops)
    (hip : op.opcode.isInplaceStore = true) : op.out = op.input 0 := by
  obtain ⟨n, hn⟩ := List.mem_iff_getElem?.1 hop
  obtain ⟨o, ho, rfl⟩ := exists_of_makeInplaceUpdates hn
  rcases OwnedGraph.rewrite_cases hg.toStoreGraph (InplaceScan.before g (g.isRoot roots) n) ho with
    ⟨hnip, -, hrw⟩ | ⟨hc, -, -, hins, -, hout, -⟩
  · rw [hrw, Op.mapIns_opcode, hnip] at hip
    cases hip
  · have hin0 : ((InplaceScan.before g (g.isRoot roots) n).rewrite g (g.isRoot roots) o).input 0 =
        (InplaceScan.before g (g.isRoot roots) n).resolve (o.input 0) := by
      rw [Op.input, hins, hc.ins_eq]
      rfl
    rw [hout, hin0]

end Rewritten

end Stanli
