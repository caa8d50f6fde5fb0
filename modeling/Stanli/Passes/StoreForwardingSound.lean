import Mathlib.Algebra.Order.Ring.Nat
import Stanli.Passes.StoreForwardingScan

/-!
# Forwarding stores to loads is sound, and when

The second scan erases the element stores that nothing reads afterwards; together with the first one
this gives the pass.
-/

namespace Stanli

variable {U V S W : Type*}

/-! ## The second scan -/

/-- The slots that the ops which survive the second scan read. -/
def readAfterKept (isRoot : ℕ → Bool) : List (Op U) → ℕ → Bool
  | [], _ => false
  | op :: ops, s =>
    if deadStore isRoot (readAfterKept isRoot ops) op then readAfterKept isRoot ops s
    else readAfterKept isRoot ops s || decide (s ∈ op.ins)

/-- The second scan; its state is the ops still to come, the next one included. -/
def deadStoreRewriter (isRoot : ℕ → Bool) : Rewriter (List (Op U)) (Op U) (Op U) where
  emit rest op := if deadStore isRoot (readAfterKept isRoot rest.tail) op then none else some op
  next rest _ := rest.tail

section Sweep

variable {isRoot : ℕ → Bool} {b : Binding} {K : Kernels U V S W}

lemma eraseDropped_congr {α : Type*} {drop drop' : ℕ → Bool} {k : ℕ} (as : List α)
    (h : ∀ j, k ≤ j → drop j = drop' j) : eraseDropped drop k as = eraseDropped drop' k as := by
  induction as generalizing k with
  | nil => rfl
  | cons a as ih =>
    rw [eraseDropped, eraseDropped, h k (Nat.le_refl k), ih fun j hj => h j (by omega)]

lemma deadStoreRewriter_emit_eq_some {p : List (Op U)} {op k : Op U}
    (h : (deadStoreRewriter isRoot).emit p op = some k) :
    ¬ deadStore isRoot (readAfterKept isRoot p.tail) op = true ∧ k = op := by
  simp only [deadStoreRewriter] at h
  by_cases hd : deadStore isRoot (readAfterKept isRoot p.tail) op = true
  · simp [hd] at h
  · rw [if_neg hd] at h
    exact ⟨hd, (Option.some.inj h).symm⟩

lemma deadStoreRewriter_emit_eq_none {p : List (Op U)} {op : Op U}
    (h : (deadStoreRewriter isRoot).emit p op = none) :
    deadStore isRoot (readAfterKept isRoot p.tail) op = true := by
  simp only [deadStoreRewriter] at h
  by_cases hd : deadStore isRoot (readAfterKept isRoot p.tail) op = true
  · exact hd
  · rw [if_neg hd] at h
    cases h

lemma readAfterKept_dead {op : Op U} {ops : List (Op U)}
    (h : deadStore isRoot (readAfterKept isRoot ops) op = true) :
    readAfterKept isRoot (op :: ops) = readAfterKept isRoot ops := by
  funext s
  rw [readAfterKept, if_pos h]

lemma readAfterKept_kept {op : Op U} {ops : List (Op U)}
    (h : ¬ deadStore isRoot (readAfterKept isRoot ops) op = true) :
    readAfterKept isRoot (op :: ops) =
      fun s => readAfterKept isRoot ops s || decide (s ∈ op.ins) := by
  funext s
  rw [readAfterKept, if_neg h]

/-- The indexed sweep is the rewriter, run on the ops the first scan kept. -/
lemma sweepStores_eq (scan : LoadScan U) (k : ℕ) (ops : List (Op U)) :
    (∀ j < k, (sweepStores isRoot scan k ops).drop j = scan.drop j) ∧
    (sweepStores isRoot scan k ops).readAfter =
      readAfterKept isRoot (eraseDropped scan.drop k ops) ∧
    eraseDropped (sweepStores isRoot scan k ops).drop k ops =
      (deadStoreRewriter isRoot).run (eraseDropped scan.drop k ops)
        (eraseDropped scan.drop k ops) := by
  induction ops generalizing k with
  | nil => exact ⟨fun _ _ => rfl, rfl, rfl⟩
  | cons op ops ih =>
    obtain ⟨hdrop, hread, hrun⟩ := ih (k + 1)
    have hk := hdrop k (by omega)
    by_cases hd : scan.drop k = true
    · have hr : sweepStores isRoot scan k (op :: ops) = sweepStores isRoot scan (k + 1) ops := by
        rw [sweepStores, hk, if_pos hd]
      rw [hr, eraseDropped, eraseDropped, hk, if_pos hd, if_pos hd]
      exact ⟨fun j hj => hdrop j (by omega), hread, hrun⟩
    · have hlist : eraseDropped scan.drop k (op :: ops) =
          op :: eraseDropped scan.drop (k + 1) ops := by
        rw [eraseDropped, if_neg hd]
      rw [hlist]
      by_cases hdead : deadStore isRoot (sweepStores isRoot scan (k + 1) ops).readAfter op = true
      · have hr : sweepStores isRoot scan k (op :: ops) =
            { sweepStores isRoot scan (k + 1) ops with
              drop := Function.update (sweepStores isRoot scan (k + 1) ops).drop k true
              removed := (sweepStores isRoot scan (k + 1) ops).removed + 1 } := by
          rw [sweepStores, hk, if_neg hd, if_pos hdead]
        rw [hread] at hdead
        have he : (deadStoreRewriter isRoot).emit
            (op :: eraseDropped scan.drop (k + 1) ops) op = none := if_pos hdead
        rw [hr, Rewriter.run_cons_none he, eraseDropped, if_pos (by simp),
          readAfterKept_dead hdead]
        refine ⟨fun j hj => ?_, hread, ?_⟩
        · change Function.update (sweepStores isRoot scan (k + 1) ops).drop k true j = _
          rw [Function.update_of_ne (Nat.ne_of_lt hj)]
          exact hdrop j (by omega)
        · refine (eraseDropped_congr ops fun j hj => ?_).trans hrun
          change Function.update (sweepStores isRoot scan (k + 1) ops).drop k true j = _
          rw [Function.update_of_ne (by omega)]
      · have hr : sweepStores isRoot scan k (op :: ops) =
            { sweepStores isRoot scan (k + 1) ops with
              readAfter := fun s => (sweepStores isRoot scan (k + 1) ops).readAfter s ||
                decide (s ∈ op.ins) } := by
          rw [sweepStores, hk, if_neg hd, if_neg hdead]
        rw [hread] at hdead
        have he : (deadStoreRewriter isRoot).emit
            (op :: eraseDropped scan.drop (k + 1) ops) op = some op := if_neg hdead
        rw [hr, Rewriter.run_cons_some he, eraseDropped, hk, if_neg hd]
        refine ⟨fun j hj => hdrop j (by omega), ?_, congrArg _ hrun⟩
        rw [readAfterKept_kept hdead, hread]

/-- What an op does to the buffers depends on the buffers of its inputs and its output only. -/
lemma Op.routed_congr {op : Op U} (hins : op.opcode.isRouted = true → op.input 0 ∈ op.ins)
    (hins1 : op.opcode.isStore = true → op.input 1 ∈ op.ins) (hhome : b.home = id)
    {m m' : Arena V} (h : ∀ s ∈ op.ins, m' s = m s) (hout : m' op.out = m op.out) :
    op.routed b m' = op.routed b m := by
  by_cases hi : op.opcode = .index
  · rw [Op.routed_index hi, Op.routed_index hi, hhome]
    simp only [id_eq, hout, h _ (hins (by rw [hi]; rfl))]
  by_cases hcp : op.opcode.isCopyingStore = true
  · rw [Op.routed_copying hcp, Op.routed_copying hcp, hhome]
    simp only [id_eq, h _ (hins (by simp [Opcode.isRouted, hcp])),
      h _ (hins1 (by simp [Opcode.isStore, hcp]))]
  by_cases hip : op.opcode.isInplaceStore = true
  · rw [Op.routed_inplace hip, Op.routed_inplace hip, hhome]
    simp only [id_eq, hout, h _ (hins1 (by simp [Opcode.isStore, hip]))]
  · have hr : op.opcode.isRouted = false := by simp [Opcode.isRouted, hi, hcp, hip]
    rw [Op.routed_eq_none hr, Op.routed_eq_none hr]

/-- The second scan keeps the forward sweep: a slot whose cells differ is never read again. -/
lemma deadStores_simulates (isRoot : ℕ → Bool) (hhome : b.home = id) {ops : List (Op U)}
    (hp : ∀ op ∈ ops, op.primalSource = none) (hc : OperandCounts ops) (s : SweepState V S W) :
    Rewriter.Simulated
      (fun σ τ => τ.world = σ.world ∧ ∀ r, isRoot r = true → b.read τ.mem r = b.read σ.mem r)
      (fun o o' => o'.inputs = o.inputs) ((deadStoreRewriter isRoot).mask ops ops)
      ((forwardMachine K b).run ops s)
      ((forwardMachine K b).run ((deadStoreRewriter isRoot).run ops ops) s) := by
  refine Rewriter.run_simulates (deadStoreRewriter isRoot)
    (R := fun p rest (σ τ : SweepState V S W) => p = rest ∧ (∀ op ∈ rest, op ∈ ops) ∧
      τ.world = σ.world ∧ τ.shared = σ.shared ∧
      ∀ s, (readAfterKept isRoot rest s = false ∧ isRoot s = false) ∨ τ.mem s = σ.mem s)
    ?_ ?_ ?_ ⟨rfl, fun _ h => h, rfl, rfl, fun _ => .inr rfl⟩
  · rintro p σ τ ⟨-, -, hw, -, hmem⟩
    refine ⟨hw, fun r hr => Binding.read_eq_read rfl fun e _ => ?_⟩
    rw [hhome]
    rcases hmem r with ⟨-, h⟩ | h
    · simp [hr] at h
    · exact congrFun h e
  · rintro p op k rest σ τ he ⟨rfl, hsub, hw, hsh, hmem⟩
    obtain ⟨hlive, rfl⟩ := deadStoreRewriter_emit_eq_some he
    rw [List.tail_cons] at hlive
    have hop := hsub k (by simp)
    have hins : ∀ s ∈ k.ins, τ.mem s = σ.mem s := by
      intro s hs
      rcases hmem s with ⟨h, -⟩ | h
      · rw [readAfterKept_kept hlive] at h
        simp [hs] at h
      · exact h
    have hread : ∀ s ∈ k.ins, b.read τ.mem s = b.read σ.mem s := by
      intro s hs
      refine Binding.read_eq_read rfl fun e _ => ?_
      rw [hhome]
      exact congrFun (hins s hs) e
    have hcells : ∀ s, (readAfterKept isRoot rest s = false ∧ isRoot s = false) ∨
        τ.mem s = σ.mem s := by
      intro s
      rcases hmem s with ⟨h, h'⟩ | h
      · rw [readAfterKept_kept hlive, Bool.or_eq_false_iff] at h
        exact .inl ⟨h.1, h'⟩
      · exact .inr h
    have hshown : k.shown b τ.mem = k.shown b σ.mem := by
      by_cases hip : k.opcode.isInplaceStore = true
      · have hi := hc.store k hop (Opcode.isStore_of_isInplaceStore hip)
        rw [Op.shown_inplace hip, Op.shown_inplace hip, hhome]
        simp only [id_eq, hins (k.input 0) (by rw [hi]; simp)]
        congr 1
        exact List.map_congr_left fun s hs => hread s (List.mem_of_mem_tail hs)
      · rw [Bool.not_eq_true] at hip
        rw [Op.shown_of_not_inplace hip, Op.shown_of_not_inplace hip]
        exact List.map_congr_left hread
    by_cases hr : k.opcode.isRouted = true
    · obtain ⟨buf, hbuf⟩ : ∃ buf, k.routed b σ.mem = some buf := by
        rw [Opcode.isRouted_iff] at hr
        rcases hr with h | h | h
        · exact ⟨_, Op.routed_index h b _⟩
        · exact ⟨_, Op.routed_copying h b _⟩
        · exact ⟨_, Op.routed_inplace h b _⟩
      obtain ⟨buf', hbuf', hout⟩ : ∃ buf', k.routed b τ.mem = some buf' ∧
          (τ.mem k.out = σ.mem k.out → buf' = buf) := by
        rw [Opcode.isRouted_iff] at hr
        have heq : τ.mem k.out = σ.mem k.out → k.routed b τ.mem = k.routed b σ.mem := fun ho =>
          Op.routed_congr (fun hr' => by
              rw [Opcode.isRouted_iff] at hr'
              rcases hr' with h | h | h
              · rw [hc.load k hop h]
                simp
              · rw [hc.store k hop (by simp [Opcode.isStore, h])]
                simp
              · rw [hc.store k hop (by simp [Opcode.isStore, h])]
                simp)
            (fun hs => by rw [hc.store k hop hs]; simp) hhome hins ho
        rcases hr with h | h | h
        · exact ⟨_, Op.routed_index h b _, fun ho =>
            Option.some.inj ((Op.routed_index h b _).symm.trans ((heq ho).trans hbuf))⟩
        · exact ⟨_, Op.routed_copying h b _, fun ho =>
            Option.some.inj ((Op.routed_copying h b _).symm.trans ((heq ho).trans hbuf))⟩
        · exact ⟨_, Op.routed_inplace h b _, fun ho =>
            Option.some.inj ((Op.routed_inplace h b _).symm.trans ((heq ho).trans hbuf))⟩
      refine .inr ⟨_, _, _, _, forwardOp_routed (hp k hop) hbuf, forwardOp_routed (hp k hop) hbuf',
        hshown, rfl, fun o ho => hsub o (by simp [ho]), hw, hsh, fun s => ?_⟩
      simp only [hhome, id_eq]
      by_cases hso : s = k.out
      · subst hso
        rcases hcells k.out with h | h
        · exact .inl h
        · exact .inr (by simp [hout h])
      · simp only [Function.update_of_ne hso]
        exact hcells s
    · rw [Bool.not_eq_true] at hr
      rcases forwardOp_kernel_pair (K := K) (hp k hop) (hp k hop) hr rfl rfl rfl
        (List.map_congr_left hread) hw with ⟨e, hσ, hτ⟩ | ⟨r, w, hσ, hτ⟩
      · exact .inl ⟨e, hσ, hτ⟩
      · refine .inr ⟨_, _, _, _, hσ, hτ, hshown, rfl, fun o ho => hsub o (by simp [ho]), rfl, hsh,
          fun s => ?_⟩
        by_cases hso : s ∈ k.outs
        · exact .inr (Op.store_apply_of_mem k k (fun t _ => congrFun hhome t)
            (fun t _ => congrFun hhome t) rfl rfl hso)
        · simp only [Op.store_apply_of_notMem k (fun t _ => congrFun hhome t) hso]
          exact hcells s
  · rintro p op rest σ τ he ⟨rfl, hsub, hw, hsh, hmem⟩
    have hdead := deadStoreRewriter_emit_eq_none he
    rw [List.tail_cons] at hdead
    have hop := hsub op (by simp)
    simp only [deadStore, Bool.and_eq_true, Bool.not_eq_true'] at hdead
    obtain ⟨⟨hel, hra⟩, hroot⟩ := hdead
    obtain ⟨buf, hbuf⟩ : ∃ buf, op.routed b σ.mem = some buf := by
      rcases Opcode.isElementStore_iff.1 hel with h | h
      · exact ⟨_, Op.routed_copying (by rw [h]; rfl) b _⟩
      · exact ⟨_, Op.routed_inplace (by rw [h]; rfl) b _⟩
    refine ⟨_, _, forwardOp_routed (hp op hop) hbuf, rfl, fun o ho => hsub o (by simp [ho]), hw, hsh,
      fun s => ?_⟩
    simp only [hhome, id_eq]
    by_cases hso : s = op.out
    · exact .inl (hso ▸ ⟨hra, hroot⟩)
    · simp only [Function.update_of_ne hso]
      rcases hmem s with ⟨h, h'⟩ | h
      · rw [readAfterKept_dead (by simp [deadStore, hel, hra, hroot])] at h
        exact .inl ⟨h, h'⟩
      · exact .inr h

end Sweep

/-! ## The pass -/

section Pass

variable {isRoot : ℕ → Bool}

/-- The count of removed ops counts: while it is zero, nothing is dropped. -/
lemma LoadScan.removed_pos (ops : List (Op U)) :
    ∀ j, (ops.foldl (LoadScan.step isRoot) {}).drop j = true →
      0 < (ops.foldl (LoadScan.step isRoot) {}).removed := by
  have hstep : ∀ (st : LoadScan U) (op : Op U), (∀ j, st.drop j = true → 0 < st.removed) →
      ∀ j, (st.step isRoot op).drop j = true → 0 < (st.step isRoot op).removed := by
    intro st op h j hj
    by_cases hst : op.opcode.isStore = true
    · by_cases he : op.opcode.isElementStore = true
      · rw [LoadScan.step_element he] at hj ⊢
        by_cases hs : { st with ops := st.ops ++ [op.mapIns st.resolve] }.supersedes
            (op.mapIns st.resolve) = true
        · simp only [hs, if_true]
          exact Nat.succ_pos _
        · simp only [hs] at hj ⊢
          exact h j hj
      · rw [LoadScan.step_slice hst (by simpa using he)] at hj ⊢
        exact h j hj
    · rw [Bool.not_eq_true] at hst
      by_cases hit : st.hits isRoot (op.mapIns st.resolve) = true
      · rw [LoadScan.step_hit hst hit]
        exact Nat.succ_pos _
      · rw [LoadScan.step_other hst (by simpa using hit)] at hj ⊢
        exact h j hj
  have hfold : ∀ st : LoadScan U, (∀ j, st.drop j = true → 0 < st.removed) →
      ∀ j, (ops.foldl (LoadScan.step isRoot) st).drop j = true →
        0 < (ops.foldl (LoadScan.step isRoot) st).removed := by
    induction ops with
    | nil => exact fun st h => h
    | cons op ops ih => exact fun st h => ih _ (hstep st op h)
  exact hfold {} fun j hj => by simp at hj

lemma sweepStores_removed_pos (scan : LoadScan U) (h : ∀ j, scan.drop j = true → 0 < scan.removed)
    (k : ℕ) (ops : List (Op U)) : ∀ j, (sweepStores isRoot scan k ops).drop j = true →
      0 < (sweepStores isRoot scan k ops).removed := by
  induction ops generalizing k with
  | nil => exact h
  | cons op ops ih =>
    intro j hj
    rw [sweepStores] at hj ⊢
    by_cases hd : (sweepStores isRoot scan (k + 1) ops).drop k = true
    · rw [if_pos hd] at hj ⊢
      exact ih (k + 1) j hj
    by_cases hdead : deadStore isRoot (sweepStores isRoot scan (k + 1) ops).readAfter op = true
    · rw [if_neg hd, if_pos hdead]
      exact Nat.succ_pos _
    · rw [if_neg hd, if_neg hdead] at hj ⊢
      exact ih (k + 1) j hj

/-- The graph the pass leaves. -/
lemma forwardStoresToLoads_eq (g : Graph U) (roots : List ℕ) {scan : LoadScan U}
    (hscan : g.ops.foldl (LoadScan.step (g.isRoot roots)) {} = scan) :
    (forwardStoresToLoads g roots).1 =
      { g with
        ops := (deadStoreRewriter (g.isRoot roots)).run (eraseDropped scan.drop 0 scan.ops)
          (eraseDropped scan.drop 0 scan.ops) } := by
  rw [← (sweepStores_eq scan 0 scan.ops).2.2]
  set sweep := sweepStores (g.isRoot roots) scan 0 scan.ops with hsweep
  have hpos : ∀ j, sweep.drop j = true → 0 < sweep.removed :=
    sweepStores_removed_pos scan (hscan ▸ LoadScan.removed_pos g.ops) 0 scan.ops
  have herase : ∀ (drop : ℕ → Bool) (k : ℕ) (l : List (Op U)), (∀ j, drop j = false) →
      eraseDropped drop k l = l := by
    intro drop k l h
    induction l generalizing k with
    | nil => rfl
    | cons a l ih => rw [eraseDropped, h k, if_neg (by simp), ih]
  by_cases h0 : sweep.removed = 0
  · have hno : ∀ j, sweep.drop j = false := by
      intro j
      by_contra hj
      rw [Bool.not_eq_false] at hj
      have := hpos j hj
      omega
    have hres : forwardStoresToLoads g roots = ({ g with ops := scan.ops }, 0) := by
      simp only [forwardStoresToLoads, hscan]
      exact if_pos h0
    rw [hres, herase _ _ _ hno]
  · have hres : forwardStoresToLoads g roots =
        ({ g with ops := eraseDropped sweep.drop 0 scan.ops }, sweep.removed) := by
      simp only [forwardStoresToLoads, hscan]
      exact if_neg h0
    rw [hres]

end Pass

/-- What the pass is to preserve, from one arena.  The surviving ops are ops of the graph with
renamed inputs, the sweeps agree on what these read and on the roots, and every op that reads the
vector of a superseded store before the store that replaces it is an answered load. -/
structure StoreForwardingPreserves (K : Kernels U V S W) (g : Graph U) (roots : List ℕ)
    (m : Arena V) (w : W) : Prop where
  forward : ∃ mask, List.Forall₂ (fun o o' => ∃ f, o' = Op.mapIns f o) (applyMask mask g.ops)
      (forwardStoresToLoads g roots).1.ops ∧
    g.ForwardPreserved K (forwardStoresToLoads g roots).1 roots mask m m w
  unread : ∀ (i : ℕ) (op : Op U), g.ops[i]? = some op → op.opcode = .setIndexInplace →
    (g.ops.foldl (LoadScan.step (g.isRoot roots)) {}).drop i = true →
    ∃ k, Superseded g.ops i k op.out ∧ ∀ (q : ℕ) (o : Op U), i < q → q < k →
      g.ops[q]? = some o → op.out ∈ o.operands →
      o.opcode = .index ∧ (g.ops.foldl (LoadScan.step (g.isRoot roots)) {}).drop q = true

section Sound

variable {ops : List (Op U)} {isRoot : ℕ → Bool} {len : ℕ → ℕ}

/-- The scan of a prefix. -/
lemma ScanInv.take (isRoot : ℕ → Bool) (hc : OperandCounts ops) (hd : LoadsDistinct ops) {n : ℕ}
    (hn : n ≤ ops.length) :
    ScanInv ops isRoot n ((ops.take n).foldl (LoadScan.step isRoot) {}) := by
  induction n with
  | zero => exact ScanInv.zero
  | succ n ih =>
    have hlt : n < ops.length := hn
    rw [List.take_add_one, List.getElem?_eq_getElem hlt, Option.toList_some, List.foldl_append]
    exact (ih (by omega)).step hc hd (List.getElem?_eq_getElem hlt)

lemma scan_split (n : ℕ) : ops.foldl (LoadScan.step isRoot) {} =
    (ops.drop n).foldl (LoadScan.step isRoot) ((ops.take n).foldl (LoadScan.step isRoot) {}) := by
  rw [← List.foldl_append, List.take_append_drop]

/-- The final drop flags are sound. -/
lemma dropSound (isRoot : ℕ → Bool) (hc : OperandCounts ops) (hd : LoadsDistinct ops) :
    DropSound ops isRoot (ops.foldl (LoadScan.step isRoot) {}).drop := by
  intro j hj
  have h := ScanInv.take isRoot hc hd (Nat.le_refl ops.length)
  rw [List.take_length] at h
  obtain ⟨-, op, hop, hcase⟩ := h.drop j hj
  refine ⟨op, hop, ?_⟩
  rcases hcase with hl | ⟨k, -, hsup⟩
  · exact .inl hl
  · exact .inr ⟨k, hsup⟩

/-- Between a dropped store and its successor, only answered loads read the vector. -/
lemma superseded_unread (hg : ChainGraph len ops) (hsafe : ForwardsSafely ops isRoot) {i k q : ℕ}
    {v : ℕ} {o : Op U} (hsup : Superseded ops i k v)
    (hobs : ∀ q, i < q → q < k → ¬ Observes ops isRoot v q) (hiq : i < q) (hqk : q < k)
    (hoq : ops[q]? = some o) (hv : v ∈ o.operands) :
    o.opcode = .index ∧ (ops.foldl (LoadScan.step isRoot) {}).drop q = true := by
  have hc := hg.operandCounts
  have hd := hg.loadsDistinct
  have hlt : q < ops.length := (List.getElem?_eq_some_iff.1 hoq).1
  have hst : o.opcode.isStore = false := by
    by_contra hst
    rw [Bool.not_eq_false] at hst
    obtain ⟨q', h1, h2, h3⟩ := hsafe.undisturbed i q k v o hsup hiq hqk hoq hst hv
    exact hobs q' h1 h2 h3
  have hinv := ScanInv.take isRoot hc hd (Nat.le_of_lt hlt)
  set st := (ops.take q).foldl (LoadScan.step isRoot) {} with hst'
  have hnone : st.rename v = none := by
    by_contra hne
    obtain ⟨w, hw⟩ := Option.ne_none_iff_exists'.1 hne
    obtain ⟨k0, i0, hr⟩ := hinv.renamed v w hw
    obtain ⟨-, hfresh⟩ := hsafe.fresh q v w k0 i0 o hoq hv hr
    obtain ⟨oi, -, hoi, -, hin, -, hout, -⟩ := hsup.ops_eq
    cases hr with
    | answered hk0 hop0 hl hout0 =>
      have hik : i ≤ k0 := by
        by_contra hik
        exact hfresh i (by omega) hiq ⟨oi, hoi, by simp [hout]⟩
      rcases Nat.lt_or_eq_of_le hik with hik | rfl
      · have := hg.rewrite i k0 v _ hik ⟨oi, hoi, by simp [hout]⟩ hop0 (by simp [hout0])
        rw [hl.opcode_eq] at this
        cases this
      · obtain rfl := Option.some.inj (hoi.symm.trans hop0)
        rw [hl.opcode_eq] at hin
        cases hin
  have hobs' := hobs q hiq hqk
  obtain ⟨hl, i', sop, ha⟩ : o.IsLoad isRoot ∧ ∃ i st, Answers ops q v (o.imm 0) i st := by
    by_contra hno
    exact hobs' ⟨o, hoq, hst, hno, v, Op.operands_subset hv, none, hinv.unrenamed v hnone⟩
  refine ⟨hl.opcode_eq, ?_⟩
  have hins := (hg.loads o (List.mem_of_getElem? hoq) hl.opcode_eq).1
  have hv0 : v = o.input 0 := by
    have := Op.operands_subset hv
    rw [hins, List.mem_singleton] at this
    exact this
  have hin0 : (o.mapIns st.resolve).input 0 = v := by
    rw [Op.mapIns_input (by simp [hins]), ← hv0]
    simp [LoadScan.resolve, hnone]
  have hlive : (st.lastStore v).live = true := by
    by_contra hdead
    rw [Bool.not_eq_true] at hdead
    exact hinv.dead v hdead _ _ _ ha
  have hhit : st.hits isRoot (o.mapIns st.resolve) = true := by
    rw [ScanInv.hits_iff, ScanInv.mapIns_isLoad, hin0]
    obtain ⟨sop', ha', -⟩ := hinv.live v hlive
    obtain ⟨-, rfl⟩ := ha.unique ha'
    exact ⟨hl, hlive, ha'.elem_eq.symm.trans ha.elem_eq⟩
  have hdrop : ops.drop q = o :: ops.drop (q + 1) := by
    rw [List.drop_eq_getElem_cons hlt]
    exact congrArg (· :: _) (Option.some.inj ((List.getElem?_eq_getElem hlt).symm.trans hoq))
  rw [scan_split q, hdrop, List.foldl_cons,
    (hinv.step hc hd hoq).foldl_drop hc hd rfl (Nat.lt_succ_self q) hoq hst,
    LoadScan.step_hit hst hhit]
  simp only [hinv.length_eq, Function.update_self]

/-- Forwarding stores to loads preserves the forward sweep of every graph whose answered loads are
fresh and whose superseded stores are undisturbed. -/
theorem forwardStoresToLoads_preserves (K : Kernels U V S W) (g : Graph U) (roots : List ℕ)
    (hg : ChainGraph g.len g.ops) (hsafe : ForwardsSafely g.ops (g.isRoot roots)) (m : Arena V)
    (w : W) : StoreForwardingPreserves K g roots m w := by
  have hc := hg.operandCounts
  have hd := hg.loadsDistinct
  have hsound := dropSound (g.isRoot roots) hc hd
  refine ⟨?_, fun i op hop hin hdrop => ?_⟩
  · have hops := forwardStoresToLoads_eq g roots rfl
    set scan := g.ops.foldl (LoadScan.step (g.isRoot roots)) {} with hscan
    obtain ⟨l, hl, hrun⟩ := LoadScan.run_eq (g.isRoot roots) scan.drop {} g.ops
    have hscanops : scan.ops = l := hl
    -- the ops between the two scans
    set mid := eraseDropped scan.drop 0 scan.ops with hmid
    have hrun' : (LoadScan.rewriter (g.isRoot roots) scan.drop).run {} g.ops = mid := by
      rw [hmid, hscanops]
      exact hrun
    have hmem : ∀ o' ∈ mid, ∃ o ∈ g.ops, ∃ f, o' = Op.mapIns f o := by
      intro o' ho'
      rw [← hrun'] at ho'
      obtain ⟨st, o, ho, he⟩ := Rewriter.exists_of_mem_run _ ho'
      exact ⟨o, ho, _, (LoadScan.emit_eq_some he).2⟩
    have hpmid : ∀ o' ∈ mid, o'.primalSource = none := by
      intro o' ho'
      obtain ⟨o, ho, f, rfl⟩ := hmem o' ho'
      exact hg.noPrimal o ho
    have hcmid : OperandCounts mid := by
      refine ⟨fun o' ho' hi => ?_, fun o' ho' hs => ?_⟩
      · obtain ⟨o, ho, f, rfl⟩ := hmem o' ho'
        have hins := hc.load o ho hi
        rw [Op.mapIns_input (by simp [hins]), Op.mapIns_ins, hins]
        simp [Op.input]
      · obtain ⟨o, ho, f, rfl⟩ := hmem o' ho'
        have hins := hc.store o ho hs
        rw [Op.mapIns_input (by simp [hins]), Op.mapIns_input (by simp [hins]), Op.mapIns_ins, hins]
        simp [Op.input]
    have hhome : g.bind.home = id := Graph.bind_home hg.noPrimal
    set g' := (forwardStoresToLoads g roots).1 with hg'
    have hhome' : g'.bind.home = id := Graph.bind_home fun o ho => by
      rw [hops] at ho
      obtain ⟨_, o', ho', he⟩ := Rewriter.exists_of_mem_run _ ho
      rw [(deadStoreRewriter_emit_eq_some he).2]
      exact hpmid o' ho'
    have hlen : g'.bind.len = g.bind.len := by
      rw [hops]
      rfl
    have hstep : forwardMachine K g'.bind = forwardMachine K g.bind := by
      unfold forwardMachine
      rw [forwardOp_binding_congr hlen (hhome'.trans hhome.symm)]
    have hsim1 := LoadScan.simulates (K := K) hhome hg hsafe hsound rfl ⟨m, w, fun _ => none⟩
    have hsim2 := deadStores_simulates (g.isRoot roots) (K := K) hhome hpmid hcmid
      ⟨m, w, fun _ => none⟩
    rw [hrun'] at hsim1
    have hread : ∀ (a : Arena V) r, g'.bind.read a r = g.bind.read a r := by
      intro a r
      unfold Binding.read
      rw [hlen, hhome, hhome']
    have hops' : g'.ops = (deadStoreRewriter (g.isRoot roots)).run mid mid := by
      rw [hops]
    have hsurv1 := Rewriter.forall₂_run (LoadScan.rewriter (g.isRoot roots) scan.drop)
      (fun st o k he => (⟨_, (LoadScan.emit_eq_some he).2⟩ : ∃ f, k = Op.mapIns f o)) {} g.ops
    have hsurv2 := Rewriter.forall₂_run (deadStoreRewriter (U := U) (g.isRoot roots))
      (fun p o k he => ((deadStoreRewriter_emit_eq_some he).2 : k = o)) mid mid
    rw [hrun'] at hsurv1
    refine ⟨composeMask ((LoadScan.rewriter (g.isRoot roots) scan.drop).mask {} g.ops)
      ((deadStoreRewriter (g.isRoot roots)).mask mid mid), ?_, ?_⟩
    · rw [applyMask_composeMask, hops']
      refine forall₂_trans ?_ (forall₂_applyMask _ hsurv1) hsurv2
      rintro a b c ⟨f, rfl⟩ rfl
      exact ⟨f, rfl⟩
    · unfold Graph.ForwardPreserved Graph.forward
      rw [hstep, hops']
      refine hsim1.trans hsim2 ?_ fun x y z hxy hyz => hyz.trans hxy
      rintro x y z ⟨hxy, hrxy⟩ ⟨hyz, hryz⟩
      refine ⟨hyz.trans hxy, fun r hr => ?_⟩
      rw [hread]
      exact (hryz r hr).trans (hrxy r hr)
  · obtain ⟨op', hop', hcase⟩ := hsound i hdrop
    obtain rfl := Option.some.inj (hop.symm.trans hop')
    rcases hcase with hl | ⟨k, hsup, hobs⟩
    · rw [hl.opcode_eq] at hin
      cases hin
    · exact ⟨k, hsup, fun q o hiq hqk hoq hv =>
        superseded_unread hg hsafe hsup hobs hiq hqk hoq hv⟩

/-- An element stored, read back and overwritten. -/
def readBackGraph : Graph Unit where
  slots := [⟨2, false⟩, ⟨1, true⟩, ⟨2, false⟩, ⟨1, false⟩]
  ops :=
    [{ opcode := .setIndex, out := 2, ins := [0, 1], idata := [0] },
     { opcode := .setIndexInplace, out := 2, ins := [2, 1], idata := [1] },
     { opcode := .index, out := 3, ins := [2], idata := [1] },
     { opcode := .setIndexInplace, out := 2, ins := [2, 3], idata := [1] }]

lemma readBackGraph_chainGraph : ChainGraph readBackGraph.len readBackGraph.ops where
  chains := by decide
  stores op hop hs := by
    have h : ∀ op ∈ readBackGraph.ops, op.opcode.isStore = true →
        readBackGraph.validStoreContract op = true := by decide
    exact Graph.storeContract_of_valid (h op hop hs)
  loads := by decide
  noPrimal := by decide

lemma readBackGraph_load {k : ℕ} {op : Op Unit} (hop : readBackGraph.ops[k]? = some op)
    (hi : op.opcode = .index) : k = 2 ∧ op.out = 3 ∧ op.input 0 = 2 := by
  rcases k with _ | _ | _ | _ | k
  all_goals simp only [readBackGraph, Nat.reduceAdd, List.getElem?_cons_succ,
    List.getElem?_cons_zero, List.getElem?_nil, Option.some.injEq, reduceCtorEq] at hop
  all_goals subst hop
  all_goals first | exact ⟨rfl, rfl, rfl⟩ | cases hi

lemma readBackGraph_writes {s k : ℕ} (h : Writes readBackGraph.ops s k) :
    s = 2 ∨ s = 3 ∧ k = 2 := by
  obtain ⟨op, hop, hs⟩ := h
  rcases k with _ | _ | _ | _ | k
  all_goals simp only [readBackGraph, Nat.reduceAdd, List.getElem?_cons_succ,
    List.getElem?_cons_zero, List.getElem?_nil, Option.some.injEq, reduceCtorEq] at hop
  all_goals subst hop
  all_goals simp [Op.outs] at hs
  all_goals simp [hs]

lemma readBackGraph_forwardsSafely :
    ForwardsSafely readBackGraph.ops (readBackGraph.isRoot [2]) := by
  have hself : ∀ {n s w : ℕ} {o}, n ≤ 2 →
      Reads readBackGraph.ops (readBackGraph.isRoot [2]) n s w o → w = s := by
    intro n s w o hn hr
    cases hr with
    | self | unanswered => rfl
    | answered hk hop hl =>
      have := (readBackGraph_load hop hl.opcode_eq).1
      omega
  refine ⟨?_, ?_⟩
  · intro r s w k i op hop hs hr
    cases hr with
    | answered hk hopk hl hout hbase ha hvalue =>
      obtain ⟨rfl, hout3, hin⟩ := readBackGraph_load hopk hl.opcode_eq
      obtain rfl := hself (Nat.le_refl 2) hbase
      have hi : i = 1 := by
        by_contra hi
        have := ha.lt
        exact ha.last 1 (by omega) (by omega) ⟨_, rfl, rfl, hin.symm⟩
      subst hi
      obtain rfl := Option.some.inj (ha.get.symm.trans (rfl : _ = some _))
      obtain rfl := hself (by omega) hvalue
      refine ⟨fun j _ _ hw => ?_, fun j hj _ hw => ?_⟩
      · rcases readBackGraph_writes hw with h | ⟨h, -⟩ <;> cases h
      · rw [← hout, hout3] at hw
        rcases readBackGraph_writes hw with h | ⟨-, h⟩
        · cases h
        · omega
  · intro i r k v op hsup hir hrk hop hst hv
    obtain ⟨oi, ok, hoi, hok, hini, -⟩ := hsup.ops_eq
    have hk : k < 4 := (List.getElem?_eq_some_iff.1 hok).1
    have hi : i ≠ 0 := by
      rintro rfl
      obtain rfl := Option.some.inj (hoi.symm.trans (rfl : _ = some _))
      cases hini
    obtain rfl : r = 2 := by omega
    obtain rfl := Option.some.inj (hop.symm.trans (rfl : _ = some _))
    cases hst

/-- The read-back is answered and the first write dropped, and nothing changes. -/
theorem readBackGraph_preserves :
    StoreForwardingPreserves (Kernels.empty Unit ℕ Unit Unit) readBackGraph [2] (fun s _ => s) () :=
  forwardStoresToLoads_preserves _ _ _ readBackGraph_chainGraph readBackGraph_forwardsSafely _ ()

end Sound

/-! ## The unobserved observer -/

/-- A vector written in place, copied by a store, and written again at the same element. -/
def copiedVectorGraph : Graph Unit where
  slots := [⟨2, false⟩, ⟨1, true⟩, ⟨1, true⟩, ⟨1, true⟩, ⟨1, true⟩, ⟨2, false⟩, ⟨2, false⟩]
  ops :=
    [{ opcode := .setIndex, out := 5, ins := [0, 1], idata := [0] },
     { opcode := .setIndexInplace, out := 5, ins := [5, 2], idata := [0] },
     { opcode := .setIndex, out := 6, ins := [5, 3], idata := [1] },
     { opcode := .setIndexInplace, out := 5, ins := [5, 4], idata := [0] }]

/-- The store that copies the vector does not mark it observed, so the write it copies is dropped:
the copy gets the element from before that write. -/
theorem copiedVectorGraph_not_preserved :
    ChainGraph copiedVectorGraph.len copiedVectorGraph.ops ∧ EvalOrder copiedVectorGraph.ops ∧
    ¬ StoreForwardingPreserves (Kernels.empty Unit ℕ Unit Unit) copiedVectorGraph [5, 6]
      (fun s _ => s) () := by
  refine ⟨⟨by decide, fun op hop hs => ?_, by decide, by decide⟩, by decide, fun h => ?_⟩
  · have h : ∀ op ∈ copiedVectorGraph.ops, op.opcode.isStore = true →
        copiedVectorGraph.validStoreContract op = true := by decide
    exact Graph.storeContract_of_valid (h op hop hs)
  · obtain ⟨mask, -, hsim⟩ := h.forward
    have h6 := (hsim.final (by decide)).2 6 (by decide)
    revert h6
    decide

end Stanli
