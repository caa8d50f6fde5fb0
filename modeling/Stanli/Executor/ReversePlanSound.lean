import Mathlib.Algebra.Order.Ring.Nat
import Stanli.Executor.LayoutSound
import Stanli.Executor.ReversePlan

/-!
# The fused plan performs the unfused sweep

The plan under construction is the stored form (`Lib/Batching`) of a sequence of items, steps and
batches of pending ops, and performing the items is calling the backwards of the ops seen so far, last
op first (`Built`).  Detaching the data gives the executor that binding gives over the new buffer, so
a plan is the same before and after.
-/

namespace Stanli

variable {U V X : Type*} {g : Graph U} {K : ReverseKernels U V X} {B : BindEnv U} {L : Layout}
  {stale : ℕ → ℕ}

/-! ## The contract of micro-ops -/

/-- What `CachedMicroFn` promises of the cached ops of a bound graph: the micro-ops reproduce the
backward of the context, and neither whether there are any nor how many depends on where the data
are. -/
structure Graph.MicroContract [Add V] [Sub V] [Mul V] [Zero V] (g : Graph U)
    (K : ReverseKernels U V X) (B : BindEnv U) (L : Layout) : Prop where
  reproduces : ∀ p ∈ g.ops.zip L.scratchOffsets, p.1.cached = true → p.1.out2 = none →
    ∀ b f, K.backward p.1.opcode = some b → K.cachedMicro p.1.opcode = some f →
    ∀ buffer, (f (L.kernelCtx B g buffer p.1 p.2)).1 = true →
    ∀ st, (f (L.kernelCtx B g buffer p.1 p.2)).2.foldl (fun st m => runBwdMicro K m st) st =
      callBackward b (L.kernelCtx B g buffer p.1 p.2) .null st
  stable : ∀ p ∈ g.ops.zip L.scratchOffsets, p.1.cached = true →
    ∀ f, K.cachedMicro p.1.opcode = some f → ∀ buffer buffer',
    (f (L.kernelCtx B g buffer p.1 p.2)).1 = (f (L.kernelCtx B g buffer' p.1 p.2)).1 ∧
    (f (L.kernelCtx B g buffer p.1 p.2)).2.length = (f (L.kernelCtx B g buffer' p.1 p.2)).2.length

/-- How many micro-ops a cached op has to offer. -/
def Layout.microsOf (L : Layout) (g : Graph U) (K : ReverseKernels U V X) (B : BindEnv U)
    (buffer : ℕ) (p : Op U × ℕ) : ℕ :=
  if p.1.cached then
    (K.cachedMicro p.1.opcode).elim 0 fun f => (f (L.kernelCtx B g buffer p.1 p.2)).2.length
  else 0

/-- How many micro-ops the cached ops of a graph have to offer together. -/
def Graph.microCount (g : Graph U) (K : ReverseKernels U V X) (B : BindEnv U) (L : Layout)
    (buffer : ℕ) : ℕ :=
  ((g.ops.zip L.scratchOffsets).map (L.microsOf g K B buffer)).sum

/-! ## Where the contexts are -/

section Positions

lemma length_ctxPositions (f c : ℕ) (ops : List (Op U)) :
    (ctxPositions f c ops).length = ops.length := by
  induction ops generalizing f c with
  | nil => rfl
  | cons op ops ih =>
    unfold ctxPositions
    split <;> simp [ih]

/-- The positions of the ops that run start at `f`, those of the cached ops at `c`. -/
lemma mem_ctxPositions {f c x : ℕ} {ops : List (Op U)} (h : x ∈ ctxPositions f c ops) :
    (f ≤ x ∧ x < f + ops.countP fun op => !op.cached) ∨ c ≤ x := by
  induction ops generalizing f c with
  | nil => simp [ctxPositions] at h
  | cons op ops ih =>
    unfold ctxPositions at h
    by_cases hc : op.cached = true
    · rw [if_pos hc] at h
      rw [List.countP_cons_of_neg (by simp [hc])]
      rcases List.mem_cons.1 h with rfl | h
      · exact Or.inr le_rfl
      · rcases ih h with h | h
        · exact Or.inl h
        · exact Or.inr (by omega)
    · rw [if_neg hc] at h
      rw [List.countP_cons_of_pos (by simp [hc])]
      rcases List.mem_cons.1 h with rfl | h
      · exact Or.inl (by omega)
      · rcases ih h with h | h
        · exact Or.inl (by omega)
        · exact Or.inr h

lemma nodup_ctxPositions {f c : ℕ} {ops : List (Op U)}
    (h : f + (ops.countP fun op => !op.cached) ≤ c) : (ctxPositions f c ops).Nodup := by
  induction ops generalizing f c with
  | nil => exact List.nodup_nil
  | cons op ops ih =>
    unfold ctxPositions
    by_cases hc : op.cached = true
    · rw [List.countP_cons_of_neg (by simp [hc])] at h
      rw [if_pos hc, List.nodup_cons]
      refine ⟨fun hm => ?_, ih (by omega)⟩
      rcases mem_ctxPositions hm with hm | hm <;> omega
    · rw [List.countP_cons_of_pos (by simp [hc])] at h
      rw [if_neg hc, List.nodup_cons]
      refine ⟨fun hm => ?_, ih (by omega)⟩
      rcases mem_ctxPositions hm with hm | hm <;> omega

lemma Graph.length_ctxPos (g : Graph U) : g.ctxPos.length = g.ops.length := length_ctxPositions ..

/-- Every op has a context of its own. -/
lemma Graph.nodup_ctxPos (g : Graph U) : g.ctxPos.Nodup :=
  nodup_ctxPositions (by rw [Nat.zero_add]; exact le_rfl)

/-- A place nobody writes keeps what it has. -/
lemma foldl_update_of_notMem {α β : Type*} (F : β → α → β) {l : List (ℕ × α)} (m : ℕ → β) {k : ℕ}
    (hk : ∀ p ∈ l, p.1 ≠ k) :
    l.foldl (fun m q => Function.update m q.1 (F (m q.1) q.2)) m k = m k := by
  induction l generalizing m with
  | nil => rfl
  | cons q l ih =>
    rw [List.foldl_cons, ih _ fun p hp => hk p (List.mem_cons_of_mem _ hp),
      Function.update_of_ne (hk q (List.mem_cons_self ..)).symm]

/-- Writing to different places, each write reaches its place once. -/
lemma foldl_update_zip {α β : Type*} {keys : List ℕ} {vals : List α} (F : β → α → β) (m : ℕ → β)
    (hk : keys.Nodup) {p : ℕ × α} (hp : p ∈ keys.zip vals) :
    (keys.zip vals).foldl (fun m q => Function.update m q.1 (F (m q.1) q.2)) m p.1 =
      F (m p.1) p.2 := by
  induction keys generalizing vals m with
  | nil => simp at hp
  | cons k keys ih =>
    rw [List.nodup_cons] at hk
    cases vals with
    | nil => simp at hp
    | cons v vals =>
      have hkeys : ∀ q ∈ keys.zip vals, q.1 ≠ k := by
        rintro q hq rfl
        exact hk.1 (List.of_mem_zip (a := q.1) (b := q.2) hq).1
      rw [List.zip_cons_cons, List.foldl_cons]
      rcases List.mem_cons.1 (List.zip_cons_cons ▸ hp) with rfl | hp
      · rw [foldl_update_of_notMem F _ hkeys, Function.update_self]
      · rw [ih _ hk.2 hp, Function.update_of_ne (hkeys p hp)]

end Positions

/-! ## The ops with their scratch and their contexts -/

/-- Each op with its scratch offset and the position of its context. -/
def Graph.bound (g : Graph U) (L : Layout) : List ((Op U × ℕ) × ℕ) :=
  (g.ops.zip L.scratchOffsets).zip g.ctxPos

section Bound

variable (hlen : L.scratchOffsets.length = g.ops.length)

include hlen in
lemma Graph.bound_ops : g.ops.zip g.ctxPos = (g.bound L).map fun t => (t.1.1, t.2) := by
  have hfst : (g.ops.zip L.scratchOffsets).map Prod.fst = g.ops :=
    List.map_fst_zip (by omega)
  calc g.ops.zip g.ctxPos = ((g.ops.zip L.scratchOffsets).map Prod.fst).zip g.ctxPos := by rw [hfst]
    _ = (g.bound L).map fun t => (t.1.1, t.2) := by
      rw [Graph.bound, List.zip_map_left]
      rfl

include hlen in
lemma Graph.bound_scratch : g.ops.zip L.scratchOffsets = (g.bound L).map Prod.fst := by
  rw [Graph.bound, List.map_fst_zip]
  rw [List.length_zip, g.length_ctxPos]
  omega

/-- The context of an op is where `ctxPos` says. -/
lemma Graph.bindCtx_at (buffer : ℕ) {t : (Op U × ℕ) × ℕ} (ht : t ∈ g.bound L) :
    g.bindCtx B L buffer t.2 = L.kernelCtx B g buffer t.1.1 t.1.2 := by
  have hmem : (t.2, t.1) ∈ g.ctxPos.zip (g.ops.zip L.scratchOffsets) := by
    rw [← List.zip_swap, List.mem_map]
    exact ⟨t, ht, rfl⟩
  exact foldl_update_zip (fun _ (p : Op U × ℕ) => L.kernelCtx B g buffer p.1 p.2) (fun _ => .empty)
    g.nodup_ctxPos hmem

end Bound

/-! ## Detaching the data -/

/-- A slot that an op writes is not in the data buffer. -/
lemma Graph.Accepted.dataOffset_eq_none (h : g.Accepted B L) {s : ℕ} (hs : g.written s = true) :
    L.dataOffset s = none := by
  rw [h.dataOffset]
  exact Packing.placeAll_of_notMem (Or.inr (by simp [ownsData, hs])) _

/-- Where a slot is not in the data buffer, its place does not depend on the buffer. -/
lemma Layout.ptr_slotData {s : ℕ} (h : L.dataOffset s = none) (buffer buffer' : ℕ) :
    (L.slotData B s).ptr buffer = (L.slotData B s).ptr buffer' := by
  unfold slotData
  rw [h]
  dsimp only
  split <;> rfl

/-- The context of an op over another buffer. -/
lemma Graph.Accepted.kernelCtx_detach (h : g.Accepted B L) {op : Op U} (hop : op ∈ g.ops)
    (buffer buffer' so : ℕ) :
    L.repoint B buffer' op (L.kernelCtx B g buffer op so) = L.kernelCtx B g buffer' op so := by
  have hout : ∀ s ∈ op.outs, (L.slotData B s).ptr buffer = (L.slotData B s).ptr buffer' :=
    fun s hs => Layout.ptr_slotData
      (h.dataOffset_eq_none (List.any_eq_true.2 ⟨op, hop, decide_eq_true hs⟩)) ..
  have hins : List.zipWith (fun s d =>
      if (L.dataOffset s).isSome then ((L.slotData B s).ptr buffer', d.2) else d)
      op.ins (L.kernelCtx B g buffer op so).ins = (L.kernelCtx B g buffer' op so).ins := by
    simp only [Layout.kernelCtx, Layout.makeCtx, List.map_map]
    rw [List.zipWith_map_right, List.zipWith_self]
    refine List.map_congr_left fun s _ => ?_
    cases hd : L.dataOffset s with
    | none => simp [Layout.ptr_slotData hd buffer buffer']
    | some o => simp
  rw [Layout.repoint, hins]
  simp only [Layout.kernelCtx, Layout.makeCtx, KernelCtx.mk.injEq, true_and, and_true, Prod.mk.injEq]
  refine ⟨hout _ (by simp), ?_⟩
  cases h2 : op.out2 with
  | none => rfl
  | some s => simp [hout s (by simp [h2])]

/-- Detaching leaves the contexts that binding over the new buffer gives. -/
lemma Graph.Accepted.detach_ctx (h : g.Accepted B L) (E : ReverseExecutor U V X) {buffer : ℕ}
    (hE : E.ctx = g.bindCtx B L buffer) (buffer' : ℕ) :
    (E.detachData g B L buffer').ctx = g.bindCtx B L buffer' := by
  obtain ⟨source, hs⟩ := h.scratch
  have hlen : L.scratchOffsets.length = g.ops.length := hs.length
  funext k
  simp only [ReverseExecutor.detachData, ReverseExecutor.refreshMicros, hE]
  by_cases hk : k ∈ g.ctxPos
  · obtain ⟨t, ht, rfl⟩ : ∃ t ∈ g.bound L, t.2 = k := by
      have hsnd : (g.bound L).map Prod.snd = g.ctxPos :=
        List.map_snd_zip (by rw [List.length_zip, g.length_ctxPos]; omega)
      rw [← hsnd] at hk
      obtain ⟨t, ht, rfl⟩ := List.mem_map.1 hk
      exact ⟨t, ht, rfl⟩
    have hmem : (t.2, t.1.1) ∈ g.ctxPos.zip g.ops := by
      rw [← List.zip_swap, List.mem_map]
      refine ⟨(t.1.1, t.2), ?_, rfl⟩
      rw [bound_ops hlen]
      exact List.mem_map_of_mem ht
    refine (foldl_update_zip (fun c (op : Op U) => L.repoint B buffer' op c) _ g.nodup_ctxPos
      hmem).trans ?_
    rw [bindCtx_at _ ht, bindCtx_at _ ht]
    exact h.kernelCtx_detach (List.of_mem_zip hmem).2 ..
  · have hno : ∀ {α : Type _} {vals : List α}, ∀ p ∈ g.ctxPos.zip vals, p.1 ≠ k := by
      rintro α vals p hp rfl
      exact hk (List.of_mem_zip (a := p.1) (b := p.2) hp).1
    have hbind : ∀ b, g.bindCtx B L b k = .empty := fun b =>
      foldl_update_of_notMem (fun _ (p : Op U × ℕ) => L.kernelCtx B g b p.1 p.2) _ hno
    refine (foldl_update_of_notMem (fun c (op : Op U) => L.repoint B buffer' op c) _ hno).trans ?_
    rw [hbind, hbind]

/-! ## Items -/

/-- The micro-ops of a waiting or fused op. -/
def PendingOp.micros (ctx : ℕ → KernelCtx U) (q : PendingOp U V X) : List (BwdMicro V) :=
  tagged q.opcode (q.cachedMicro (ctx q.ci)).2

/-- A waiting op as a step. -/
def PendingOp.step (q : PendingOp U V X) : BwdStep U V X := ⟨q.backward, q.ci, .null⟩

/-- A waiting op as a fused one. -/
def PendingOp.fuse (q : PendingOp U V X) : FusedOp U V := ⟨q.ci, q.cachedMicro, q.opcode⟩

/-- A batch of ops as a batch of micro-ops. -/
def expand (ctx : ℕ → KernelCtx U) :
    Item (BwdStep U V X) (PendingOp U V X) → Item (BwdStep U V X) (BwdMicro V)
  | .step s => .step s
  | .batch qs => .batch (qs.flatMap (PendingOp.micros ctx))

lemma expand_hole (ctx : ℕ → KernelCtx U) (i : Item (BwdStep U V X) (PendingOp U V X)) :
    (expand ctx i).hole = i.hole := by
  cases i <;> rfl

lemma expand_micros (ctx : ℕ → KernelCtx U) (is : List (Item (BwdStep U V X) (PendingOp U V X))) :
    (is.map (expand ctx)).flatMap Item.micros =
      (is.flatMap Item.micros).flatMap (PendingOp.micros ctx) := by
  induction is with
  | nil => rfl
  | cons i is ih =>
    rw [List.map_cons, List.flatMap_cons, List.flatMap_cons, List.flatMap_append, ih]
    cases i <;> rfl

/-- The mark as it is kept. -/
def Mark.kept (r : Mark) : Mark := ⟨toUInt32 r.first, toUInt32 r.last, toUInt32 r.at_⟩

section Meaning

variable [Add V] [Sub V] [Mul V] [Zero V]

/-- Run a step over given contexts. -/
def stepAt (ctx : ℕ → KernelCtx U) (s : BwdStep U V X) (st : RevState V X) : RevState V X :=
  callBackward s.fn (ctx s.ctx) s.out2Adj st

/-- Perform items over given contexts. -/
def performAt (K : ReverseKernels U V X) (ctx : ℕ → KernelCtx U)
    (is : List (Item (BwdStep U V X) (PendingOp U V X))) (st : RevState V X) : RevState V X :=
  (is.map (expand ctx)).foldl (fun st i => i.perform (stepAt ctx) (runBwdMicro K) st) st

lemma performAt_append (ctx : ℕ → KernelCtx U)
    (is js : List (Item (BwdStep U V X) (PendingOp U V X))) (st : RevState V X) :
    performAt K ctx (is ++ js) st = performAt K ctx js (performAt K ctx is st) := by
  rw [performAt, List.map_append, List.foldl_append]
  rfl

/-- Run waiting ops as steps. -/
def runPending (ctx : ℕ → KernelCtx U) (qs : List (PendingOp U V X)) (st : RevState V X) :
    RevState V X :=
  qs.foldl (fun st q => stepAt ctx q.step st) st

/-- The micro-ops of an op do what its backward does. -/
def PendingOp.Honest (K : ReverseKernels U V X) (ctx : ℕ → KernelCtx U) (q : PendingOp U V X) : Prop :=
  ∀ st, (q.micros ctx).foldl (fun st m => runBwdMicro K m st) st = stepAt ctx q.step st

lemma performAt_steps (ctx : ℕ → KernelCtx U) (qs : List (PendingOp U V X)) (st : RevState V X) :
    performAt K ctx (qs.map fun q => .step q.step) st = runPending ctx qs st := by
  rw [performAt, List.map_map, List.foldl_map]
  rfl

/-- A batch of honest ops does what the ops do as steps. -/
lemma performAt_batch {ctx : ℕ → KernelCtx U} {qs : List (PendingOp U V X)}
    (h : ∀ q ∈ qs, q.Honest K ctx) (st : RevState V X) :
    performAt K ctx [.batch qs] st = runPending ctx qs st := by
  change (qs.flatMap (PendingOp.micros ctx)).foldl (fun st m => runBwdMicro K m st) st = _
  induction qs generalizing st with
  | nil => rfl
  | cons q qs ih =>
    rw [List.flatMap_cons, List.foldl_append, h q (List.mem_cons_self ..),
      ih fun q' hq' => h q' (List.mem_cons_of_mem _ hq')]
    rfl

/-- A plan under construction: it stores `items`, `qs` wait, and together they do `f`. -/
structure Built (K : ReverseKernels U V X) (ctx : ℕ → KernelCtx U)
    (items : List (Item (BwdStep U V X) (PendingOp U V X))) (f : RevState V X → RevState V X)
    (p : ReversePlan U V X) : Prop where
  bwd : p.bwd = items.map Item.hole
  fused : p.fused = (items.flatMap Item.micros).map PendingOp.fuse
  micro : p.micro = (items.map (expand ctx)).flatMap Item.micros ++
    p.pending.flatMap (PendingOp.micros ctx)
  microRuns : p.microRuns = (marksFrom 0 0 (items.map (expand ctx))).map Mark.kept
  runStart : p.pending ≠ [] → p.runStart = ((items.map (expand ctx)).flatMap Item.micros).length
  honest : ∀ q ∈ p.pending, q.Honest K ctx
  means : ∀ st, runPending ctx p.pending (performAt K ctx items st) = f st

variable {ctx : ℕ → KernelCtx U} {items : List (Item (BwdStep U V X) (PendingOp U V X))}
  {f : RevState V X → RevState V X} {p : ReversePlan U V X}

lemma Built.hole_expand (h : Built K ctx items f p) :
    p.bwd = (items.map (expand ctx)).map Item.hole := by
  rw [h.bwd, List.map_map]
  exact List.map_congr_left fun i _ => (expand_hole ctx i).symm

/-- Closing the run keeps what the plan does, and leaves nothing waiting. -/
lemma Built.closeRun (h : Built K ctx items f p) :
    ∃ items', Built K ctx items' f p.closeRun ∧ p.closeRun.pending = [] := by
  unfold ReversePlan.closeRun
  by_cases hp : p.pending = []
  · rw [if_pos (by simp [hp])]
    exact ⟨items, h, hp⟩
  · rw [if_neg (by simpa using hp)]
    have hstart := h.runStart hp
    split
    · refine ⟨items ++ [.batch p.pending], ⟨?_, ?_, ?_, ?_, fun hne => absurd rfl hne,
        fun q hq => by simp at hq, fun st => ?_⟩, rfl⟩
      · simp [h.bwd, Item.hole]
      · simp only [h.fused, List.flatMap_append, List.map_append, List.flatMap_singleton]
        rfl
      · simp only [h.micro, List.map_append, List.flatMap_append, List.map_singleton,
          List.flatMap_singleton, List.flatMap_nil, List.append_nil]
        rfl
      · have hlen : p.bwd.length = (items.map (expand ctx)).length := by
          rw [h.bwd, List.length_map, List.length_map]
        have hmicro : p.micro.length = ((items.map (expand ctx)).flatMap Item.micros).length +
            (p.pending.flatMap (PendingOp.micros ctx)).length := by
          rw [h.micro, List.length_append]
        dsimp only
        rw [List.map_append, marksFrom_append, List.map_append, ← h.microRuns, hstart, hmicro, hlen]
        simp [expand, marksFrom, Mark.kept]
      · rw [performAt_append, performAt_batch h.honest]
        exact h.means st
    · refine ⟨items ++ p.pending.map fun q => .step q.step, ⟨?_, ?_, ?_, ?_,
        fun hne => absurd rfl hne, fun q hq => by simp at hq, fun st => ?_⟩, rfl⟩
      · simp [h.bwd, Item.hole, PendingOp.step, Function.comp_def]
      · simp [h.fused, List.flatMap_map, Item.micros]
      · simp only [h.micro, hstart]
        rw [List.take_left' rfl]
        simp [List.flatMap_map, expand, Item.micros]
      · dsimp only
        rw [List.map_append, marksFrom_append, List.map_append, ← h.microRuns, List.map_map]
        have := marksFrom_steps (μ := BwdMicro V) (p.pending.map PendingOp.step)
          (0 + ((items.map (expand ctx)).flatMap Item.micros).length)
          (0 + (items.map (expand ctx)).length)
        rw [List.map_map] at this
        change p.microRuns = p.microRuns ++ List.map Mark.kept
          (marksFrom _ _ (p.pending.map ((Item.step (μ := BwdMicro V)) ∘ PendingOp.step)))
        rw [this, List.map_nil, List.append_nil]
      · rw [performAt_append, performAt_steps]
        exact h.means st

/-- A step of its own is performed after everything before it. -/
lemma Built.pushStep (h : Built K ctx items f p) (s : BwdStep U V X) :
    ∃ items', Built K ctx items' (fun st => stepAt ctx s (f st)) (p.pushStep s) ∧
      (p.pushStep s).pending = [] := by
  obtain ⟨items', hb, hpend⟩ := h.closeRun
  refine ⟨items' ++ [.step s], ⟨?_, ?_, ?_, ?_, fun hne => absurd hpend hne, fun q hq => ?_,
    fun st => ?_⟩, hpend⟩
  · simp [ReversePlan.pushStep, hb.bwd, Item.hole]
  · simp [ReversePlan.pushStep, hb.fused, Item.micros]
  · simp [ReversePlan.pushStep, hb.micro, expand, Item.micros]
  · change p.closeRun.microRuns = _
    rw [List.map_append, marksFrom_append, hb.microRuns]
    simp [expand, marksFrom]
  · rw [ReversePlan.pushStep, hpend] at hq
    simp at hq
  · have := hb.means st
    rw [hpend] at this
    rw [ReversePlan.pushStep, hpend, performAt_append]
    exact congrArg (stepAt ctx s) this

/-- Where nothing waits the start of the run is free. -/
lemma Built.withStart (h : Built K ctx items f p) {n : ℕ} (hn : p.pending = [] ∨ n = p.runStart) :
    Built K ctx items f { p with runStart := n } := by
  refine ⟨h.bwd, h.fused, h.micro, h.microRuns, fun hne => ?_, h.honest, h.means⟩
  exact (hn.resolve_left hne).trans (h.runStart hne)

omit [Add V] [Sub V] [Mul V] [Zero V] in
/-- What one round of the loop over the ops does. -/
lemma ReversePlan.addOp_cases (p : ReversePlan U V X) (ctx : ℕ → KernelCtx U) (op : Op U) (ci : ℕ) :
    (K.backward op.opcode = none ∧ p.addOp K L ctx op ci = p) ∨
    ∃ b, K.backward op.opcode = some b ∧
      ((∃ n, (p.pending = [] ∨ n = p.runStart) ∧ p.addOp K L ctx op ci =
          { p with runStart := n }.pushStep ⟨b, ci, adjointPtr (op.out2.bind L.adjointOffset)⟩) ∨
        ∃ f, op.cached = true ∧ op.out2 = none ∧ K.cachedMicro op.opcode = some f ∧
          (f (ctx ci)).1 = true ∧ p.addOp K L ctx op ci =
            { p with
              runStart := if p.pending.isEmpty then p.micro.length else p.runStart
              micro := p.micro ++ tagged op.opcode (f (ctx ci)).2
              pending := if (f (ctx ci)).2.isEmpty then p.pending
                else p.pending ++ [⟨ci, b, f, op.opcode⟩] }) := by
  unfold addOp
  cases hb : K.backward op.opcode with
  | none => exact Or.inl ⟨rfl, rfl⟩
  | some b =>
    refine Or.inr ⟨b, rfl, ?_⟩
    dsimp only
    cases hf : (if op.cached && op.out2.isNone then K.cachedMicro op.opcode else none) with
    | none => exact Or.inl ⟨p.runStart, Or.inr rfl, rfl⟩
    | some f =>
      dsimp only
      split at hf
      · rename_i hel
        simp only [Bool.and_eq_true, Option.isNone_iff_eq_none] at hel
        by_cases hr : (f (ctx ci)).1 = true
        · rw [if_pos hr]
          exact Or.inr ⟨f, hel.1, hel.2, hf, hr, rfl⟩
        · rw [if_neg hr]
          refine Or.inl ⟨_, ?_, rfl⟩
          by_cases hp : p.pending = []
          · exact Or.inl hp
          · exact Or.inr (by simp [hp])
      · cases hf

omit [Zero V] in
lemma foldl_tagged (oc : Opcode) (ms : List (BwdMicro V)) (st : RevState V X) :
    (tagged oc ms).foldl (fun st m => runBwdMicro K m st) st =
      ms.foldl (fun st m => runBwdMicro K m st) st := by
  rw [tagged, List.foldl_map]
  rfl

/-- A round of the loop adds the backward of its op. -/
lemma Built.addOp (h : Built K ctx items f p) (hK : g.MicroContract K B L) {buffer : ℕ}
    {t : (Op U × ℕ) × ℕ} (ht : t.1 ∈ g.ops.zip L.scratchOffsets)
    (hctx : ctx t.2 = L.kernelCtx B g buffer t.1.1 t.1.2) :
    ∃ items', Built K ctx items' (fun st => g.backwardCall K B L buffer (f st) t.1)
      (p.addOp K L ctx t.1.1 t.2) := by
  unfold Graph.backwardCall
  rcases p.addOp_cases (K := K) (L := L) ctx t.1.1 t.2 with
    ⟨hb, hp⟩ | ⟨b, hb, ⟨n, hn, hp⟩ | ⟨m, hc, hout, hm, hr, hp⟩⟩
  · rw [hp, hb]
    exact ⟨items, h⟩
  · rw [hp, hb]
    obtain ⟨items', hbuilt, -⟩ :=
      (h.withStart hn).pushStep ⟨b, t.2, adjointPtr (t.1.1.out2.bind L.adjointOffset)⟩
    refine ⟨items', ?_⟩
    simpa only [stepAt, hctx] using hbuilt
  · rw [hp, hb, hout]
    have hrep : ∀ st, (m (ctx t.2)).2.foldl (fun st m => runBwdMicro K m st) st =
        callBackward b (ctx t.2) .null st := by
      rw [hctx] at hr ⊢
      exact hK.reproduces t.1 ht hc hout b m hb hm buffer hr
    have hout2 : adjointPtr ((none : Option ℕ).bind L.adjointOffset) = .null := rfl
    rw [hout2, ← hctx]
    by_cases hms : (m (ctx t.2)).2.isEmpty = true
    · -- no micro-ops: the backward does nothing
      rw [if_pos hms]
      rw [List.isEmpty_iff] at hms
      rw [hms] at hrep
      refine ⟨items, h.bwd, h.fused, ?_, h.microRuns, fun hne => ?_, h.honest, fun st => ?_⟩
      · rw [hms, tagged, List.map_nil, List.append_nil, h.micro]
      · dsimp only at hne ⊢
        rw [if_neg (by simpa using hne)]
        exact h.runStart hne
      · exact (h.means st).trans (hrep (f st))
    · rw [if_neg hms]
      refine ⟨items, h.bwd, h.fused, ?_, h.microRuns, fun _ => ?_, fun q hq => ?_, fun st => ?_⟩
      · simp [h.micro, PendingOp.micros]
      · dsimp only
        by_cases hpend : p.pending = []
        · rw [if_pos (by simp [hpend]), h.micro, hpend]
          simp
        · rw [if_neg (by simpa using hpend)]
          exact h.runStart hpend
      · rcases List.mem_append.1 hq with hq | hq
        · exact h.honest q hq
        · rw [List.mem_singleton.1 hq]
          exact fun st => (foldl_tagged ..).trans (hrep st)
      · have := h.means st
        simp only [runPending] at this ⊢
        rw [List.foldl_append, this]
        rfl

end Meaning

/-! ## How large a plan gets -/

/-- A plan has at most `n` steps, waiting ones included, and `m` micro-ops. -/
def ReversePlan.Within (p : ReversePlan U V X) (n m : ℕ) : Prop :=
  p.bwd.length + p.pending.length ≤ n ∧ p.micro.length ≤ m

namespace ReversePlan.Within

variable {p : ReversePlan U V X} {n m : ℕ}

lemma closeRun (h : p.Within n m) : p.closeRun.Within n m := by
  obtain ⟨hn, hm⟩ := h
  unfold ReversePlan.closeRun
  split
  · exact ⟨hn, hm⟩
  · rename_i hp
    have hpos : 0 < p.pending.length := List.length_pos_iff.2 (by simpa using hp)
    split
    · exact ⟨by simp; omega, hm⟩
    · exact ⟨by simpa using hn, by simp; omega⟩

lemma pushStep (h : p.Within n m) (s : BwdStep U V X) : (p.pushStep s).Within (n + 1) m := by
  obtain ⟨hn, hm⟩ := h.closeRun
  refine ⟨?_, hm⟩
  simp only [ReversePlan.pushStep, List.length_append, List.length_singleton]
  omega

lemma addOp (h : p.Within n m) {ctx : ℕ → KernelCtx U} {buffer : ℕ} {t : (Op U × ℕ) × ℕ}
    (hctx : ctx t.2 = L.kernelCtx B g buffer t.1.1 t.1.2) :
    (p.addOp K L ctx t.1.1 t.2).Within (n + 1) (m + L.microsOf g K B buffer t.1) := by
  rcases p.addOp_cases (K := K) (L := L) ctx t.1.1 t.2 with
    ⟨-, hp⟩ | ⟨b, -, ⟨k, -, hp⟩ | ⟨f, hc, -, hf, -, hp⟩⟩
  · rw [hp]
    exact ⟨h.1.trans (Nat.le_succ _), h.2.trans (Nat.le_add_right ..)⟩
  · rw [hp]
    have hk : { p with runStart := k }.Within n m := h
    have := hk.pushStep ⟨b, t.2, adjointPtr (t.1.1.out2.bind L.adjointOffset)⟩
    exact ⟨this.1, this.2.trans (Nat.le_add_right ..)⟩
  · have hcount : L.microsOf g K B buffer t.1 = (f (ctx t.2)).2.length := by
      rw [Layout.microsOf, if_pos hc, hf, hctx]
      rfl
    obtain ⟨hn, hm⟩ := h
    rw [hp, hcount]
    refine ⟨?_, by simpa [tagged] using hm⟩
    dsimp only
    split
    · omega
    · rw [List.length_append, List.length_singleton]
      omega

end ReversePlan.Within

/-! ## The bound plan -/

/-- A property that every round of the loop over the ops keeps, for a prefix `l` of the ops in reverse
order, holds of the finished loop. -/
lemma Graph.reverse_induction (hlen : L.scratchOffsets.length = g.ops.length)
    (ctx : ℕ → KernelCtx U) {I : List ((Op U × ℕ) × ℕ) → ReversePlan U V X → Prop} (h0 : I [] {})
    (hstep : ∀ l t p, t ∈ g.bound L → I l p → I (l ++ [t]) (p.addOp K L ctx t.1.1 t.2)) :
    I (g.bound L).reverse ((g.ops.zip g.ctxPos).reverse.foldl
      (fun (p : ReversePlan U V X) q => p.addOp K L ctx q.1 q.2) {}) := by
  rw [bound_ops hlen, ← List.map_reverse, List.foldl_map]
  suffices key : ∀ l₁ l₂ : List ((Op U × ℕ) × ℕ), ∀ p, (∀ t ∈ l₂, t ∈ g.bound L) → I l₁ p →
      I (l₁ ++ l₂) (l₂.foldl (fun p t => p.addOp K L ctx t.1.1 t.2) p) from
    key [] _ _ (fun t ht => List.mem_reverse.1 ht) h0
  intro l₁ l₂
  induction l₂ generalizing l₁ with
  | nil => exact fun p _ hp => by simpa using hp
  | cons t l₂ ih =>
    intro p hmem hp
    have := ih (l₁ ++ [t]) (p.addOp K L ctx t.1.1 t.2)
      (fun t' ht' => hmem t' (List.mem_cons_of_mem _ ht')) (hstep l₁ t p (hmem t (by simp)) hp)
    simpa using this

section Sweep

variable [Add V] [Sub V] [Mul V] [Zero V] {buffer : ℕ}

/-- The bound plan stores items that do what the backwards do, called from the last op to the
first. -/
lemma Graph.reversePlan_built (buffer : ℕ) (hlen : L.scratchOffsets.length = g.ops.length)
    (hK : g.MicroContract K B L) : ∃ items, Built K (g.bindCtx B L buffer) items
      (g.reverseUnfused K B L buffer) (g.bindReverse K B L buffer).plan ∧
      (g.bindReverse K B L buffer).plan.pending = [] := by
  have hbuilt := g.reverse_induction (K := K) (L := L) hlen (g.bindCtx B L buffer)
    (I := fun l p => ∃ items, Built K (g.bindCtx B L buffer) items
      (fun st => (l.map Prod.fst).foldl (g.backwardCall K B L buffer) st) p)
    ⟨[], rfl, rfl, rfl, rfl, fun h => absurd rfl h, fun q hq => by simp at hq, fun _ => rfl⟩
    (fun l t p ht hp => ?_)
  · obtain ⟨items, hitems⟩ := hbuilt
    obtain ⟨items', hclosed, hpend⟩ := hitems.closeRun
    refine ⟨items', ?_, hpend⟩
    have hf : g.reverseUnfused K B L buffer = fun st =>
        ((g.bound L).reverse.map Prod.fst).foldl (g.backwardCall K B L buffer) st := by
      funext st
      rw [reverseUnfused, bound_scratch hlen, List.map_reverse]
    rw [hf]
    exact hclosed
  · obtain ⟨items, hitems⟩ := hp
    have hmem : t.1 ∈ g.ops.zip L.scratchOffsets := (List.of_mem_zip (a := t.1) (b := t.2) ht).1
    obtain ⟨items', h'⟩ := hitems.addOp hK hmem (bindCtx_at buffer ht)
    refine ⟨items', ?_⟩
    simpa only [List.map_append, List.map_singleton, List.foldl_append, List.foldl_cons,
      List.foldl_nil] using h'

omit [Add V] [Sub V] [Mul V] [Zero V] in
/-- The bound plan has no more steps than the graph has ops, and no more micro-ops than its cached ops
offer. -/
lemma Graph.reversePlan_within (buffer : ℕ) (hlen : L.scratchOffsets.length = g.ops.length) :
    (g.bindReverse K B L buffer).plan.Within g.ops.length (g.microCount K B L buffer) := by
  have hwithin := g.reverse_induction (K := K) (L := L) hlen (g.bindCtx B L buffer)
    (I := fun l p => p.Within l.length ((l.map fun t => L.microsOf g K B buffer t.1).sum))
    ⟨le_rfl, le_rfl⟩ (fun l t p ht hp => ?_)
  · have hcount : (((g.bound L).reverse.map fun t => L.microsOf g K B buffer t.1).sum) =
        g.microCount K B L buffer := by
      rw [microCount, bound_scratch hlen, List.map_map, List.map_reverse, List.sum_reverse]
      rfl
    have hn : (g.bound L).reverse.length = g.ops.length := by
      rw [List.length_reverse, bound, List.length_zip, List.length_zip, g.length_ctxPos, hlen]
      simp
    rw [hcount, hn] at hwithin
    exact hwithin.closeRun
  · have := hp.addOp (K := K) (B := B) (g := g) (L := L) (bindCtx_at buffer ht)
    simpa using this

omit [Add V] [Sub V] [Mul V] [Zero V] in
/-- Positions below the bound are kept. -/
lemma kept_marks {is : List (Item (BwdStep U V X) (BwdMicro V))}
    (hm : (is.flatMap Item.micros).length < 2 ^ 32) (ha : is.length ≤ 2 ^ 31) : (marksFrom 0 0 is).map Mark.kept = marksFrom 0 0 is := by
  refine (List.map_congr_left fun r hr => ?_).trans (List.map_id _)
  obtain ⟨h1, h2, h3⟩ := le_of_mem_marksFrom hr
  rw [Nat.zero_add] at h1 h2 h3
  simp only [Mark.kept, toUInt32, id]
  rw [Nat.mod_eq_of_lt (by omega), Nat.mod_eq_of_lt (by omega), Nat.mod_eq_of_lt (by omega)]

/-- Both walks over the bound plan, and the sweep itself with or without profiling, do what the
backwards do. -/
lemma Graph.bindReverse_sweeps (hlen : L.scratchOffsets.length = g.ops.length)
    (hops : g.ops.length ≤ 2 ^ 31) (hcount : g.microCount K B L buffer < 2 ^ 32)
    (hK : g.MicroContract K B L) (st : RevState V X) :
    (g.bindReverse K B L buffer).reverseDense K st = some (g.reverseUnfused K B L buffer st) ∧
    (g.bindReverse K B L buffer).reverseSparse K st = some (g.reverseUnfused K B L buffer st) ∧
    ∀ profile, (g.bindReverse K B L buffer).reverse K profile st =
      some (g.reverseUnfused K B L buffer st) := by
  obtain ⟨items, hb, hpend⟩ := g.reversePlan_built buffer hlen hK
  obtain ⟨hn, hm⟩ := g.reversePlan_within (K := K) (B := B) buffer hlen
  set E := g.bindReverse K B L buffer with hE
  set is := items.map (expand (g.bindCtx B L buffer)) with his
  have hmicro : E.plan.micro = [] ++ is.flatMap Item.micros := by
    rw [hb.micro, hpend, List.flatMap_nil, List.append_nil, List.nil_append]
  have hbwd : E.plan.bwd = [] ++ ([] : List (BwdStep U V X)).map some ++ is.map Item.hole :=
    hb.hole_expand
  have hruns : E.plan.microRuns = marksFrom 0 0 is := by
    have hsteps : E.plan.bwd.length = is.length := by rw [hbwd]; simp
    have hmicros : E.plan.micro.length = (is.flatMap Item.micros).length := by rw [hmicro]; simp
    have hkept : (marksFrom 0 0 is).map Mark.kept = marksFrom 0 0 is :=
      kept_marks (by omega) (by omega)
    exact hb.microRuns.trans hkept
  have hmeans : is.foldl (fun st i => i.perform E.runStep (runBwdMicro K) st) st =
      g.reverseUnfused K B L buffer st := by
    have := hb.means st
    rw [hpend] at this
    exact this
  have hdense : E.reverseDense K st = some (g.reverseUnfused K B L buffer st) := by
    rw [ReverseExecutor.reverseDense, hmicro, hbwd, hruns, ← hmeans]
    exact walkDense_items is [] 0 st
  have hsparse : E.reverseSparse K st = some (g.reverseUnfused K B L buffer st) := by
    rw [ReverseExecutor.reverseSparse, hmicro, hbwd, hruns, ← hmeans]
    exact walkSparse_items is [] [] [] st
  refine ⟨hdense, hsparse, fun profile => ?_⟩
  unfold ReverseExecutor.reverse
  split
  · exact hdense
  · split
    · split
      · exact hsparse
      · exact hdense
    · rename_i hno
      rw [not_not] at hno
      rw [← hsparse, ReverseExecutor.reverseSparse, hno]
      rfl

end Sweep

/-! ## The plan after detaching -/

/-- Two plans that differ in the micro-ops at most, of which they have the same number. -/
structure ReversePlan.Alike (p p' : ReversePlan U V X) : Prop where
  bwd : p.bwd = p'.bwd
  micro : p.micro.length = p'.micro.length
  microRuns : p.microRuns = p'.microRuns
  fused : p.fused = p'.fused
  pending : p.pending = p'.pending
  runStart : p.runStart = p'.runStart

namespace ReversePlan.Alike

variable {p p' : ReversePlan U V X}

lemma closeRun (h : p.Alike p') : p.closeRun.Alike p'.closeRun := by
  obtain ⟨hb, hm, hr, hf, hp, hs⟩ := h
  unfold ReversePlan.closeRun
  rw [hp, hm, hs]
  split
  · exact ⟨hb, hm, hr, hf, hp, hs⟩
  · split
    · exact ⟨by simp [hb], hm, by simp [hb, hr], by simp [hf], rfl, rfl⟩
    · exact ⟨by simp [hb], by simp [hm], hr, hf, rfl, rfl⟩

lemma pushStep (h : p.Alike p') (s : BwdStep U V X) : (p.pushStep s).Alike (p'.pushStep s) :=
  ⟨by simp [ReversePlan.pushStep, h.closeRun.bwd], h.closeRun.micro, h.closeRun.microRuns,
    h.closeRun.fused, h.closeRun.pending, h.closeRun.runStart⟩

/-- A round of the loop decides the same over contexts for which the op offers as many micro-ops. -/
lemma addOp (h : p.Alike p') {ctx ctx' : ℕ → KernelCtx U} {op : Op U} {ci : ℕ}
    (hstable : op.cached = true → ∀ f, K.cachedMicro op.opcode = some f →
      (f (ctx ci)).1 = (f (ctx' ci)).1 ∧ (f (ctx ci)).2.length = (f (ctx' ci)).2.length) :
    (p.addOp K L ctx op ci).Alike (p'.addOp K L ctx' op ci) := by
  unfold ReversePlan.addOp
  cases K.backward op.opcode with
  | none => exact h
  | some b =>
    dsimp only
    cases hf : (if op.cached && op.out2.isNone then K.cachedMicro op.opcode else none) with
    | none => exact h.pushStep _
    | some f =>
      dsimp only
      split at hf
      · rename_i hel
        simp only [Bool.and_eq_true] at hel
        obtain ⟨hok, hlen⟩ := hstable hel.1 f hf
        have hempty : (f (ctx ci)).2.isEmpty = (f (ctx' ci)).2.isEmpty := by
          rw [Bool.eq_iff_iff, List.isEmpty_iff_length_eq_zero, List.isEmpty_iff_length_eq_zero, hlen]
        rw [hok, hempty, h.pending, h.micro, h.runStart]
        split
        · exact ⟨h.bwd, by simp [tagged, h.micro, hlen], h.microRuns, h.fused, rfl, rfl⟩
        · refine ReversePlan.Alike.pushStep ?_ _
          exact ⟨h.bwd, h.micro, h.microRuns, h.fused, rfl, rfl⟩
      · cases hf

end ReversePlan.Alike

/-- The micro-ops of a plan are those of its fused ops and then those of the waiting ones. -/
def ReversePlan.Listed (ctx : ℕ → KernelCtx U) (p : ReversePlan U V X) : Prop :=
  p.micro = p.fused.flatMap (fun f => tagged f.opcode (f.fn (ctx f.ctx)).2) ++
    p.pending.flatMap (PendingOp.micros ctx)

section Detach

variable [Add V] [Sub V] [Mul V] [Zero V] {buffer : ℕ}

lemma Built.listed {ctx : ℕ → KernelCtx U} {items : List (Item (BwdStep U V X) (PendingOp U V X))}
    {f : RevState V X → RevState V X} {p : ReversePlan U V X} (h : Built K ctx items f p) :
    p.Listed ctx := by
  rw [ReversePlan.Listed, h.micro, h.fused, expand_micros, List.flatMap_map]
  rfl

/-- Detaching the data of a bound executor gives the executor bound over the new buffer. -/
theorem Graph.detach_bindReverse (ha : g.Accepted B L) (hK : g.MicroContract K B L)
    (buffer' : ℕ) : (g.bindReverse K B L buffer).detachData g B L buffer' =
      g.bindReverse K B L buffer' := by
  obtain ⟨source, hs⟩ := ha.scratch
  have hlen : L.scratchOffsets.length = g.ops.length := hs.length
  have hctx := ha.detach_ctx (g.bindReverse K B L buffer) rfl buffer'
  obtain ⟨items, hbuilt, hpend⟩ := g.reversePlan_built buffer' hlen hK
  have hlisted := hbuilt.listed
  have halike : (g.bindReverse K B L buffer).plan.Alike (g.bindReverse K B L buffer').plan := by
    refine ReversePlan.Alike.closeRun ?_
    rw [bound_ops hlen, ← List.map_reverse, List.foldl_map, List.foldl_map]
    have key : ∀ l : List ((Op U × ℕ) × ℕ), (∀ t ∈ l, t ∈ g.bound L) →
        ∀ p p' : ReversePlan U V X, p.Alike p' →
        (l.foldl (fun p t => p.addOp K L (g.bindCtx B L buffer) t.1.1 t.2) p).Alike
          (l.foldl (fun p t => p.addOp K L (g.bindCtx B L buffer') t.1.1 t.2) p') := by
      intro l
      induction l with
      | nil => exact fun _ p p' h => h
      | cons t l ih =>
        intro hmem p p' h
        refine ih (fun t' ht' => hmem t' (List.mem_cons_of_mem _ ht')) _ _
          (h.addOp fun hc f hf => ?_)
        have ht := hmem t (List.mem_cons_self ..)
        rw [bindCtx_at buffer ht, bindCtx_at buffer' ht]
        exact hK.stable t.1 (List.of_mem_zip (a := t.1) (b := t.2) ht).1 hc f hf buffer buffer'
    exact key _ (fun t ht => List.mem_reverse.1 ht) _ _ ⟨rfl, rfl, rfl, rfl, rfl, rfl⟩
  have hmicro : (g.bindReverse K B L buffer).plan.fused.flatMap
      (fun f => tagged f.opcode (f.fn (g.bindCtx B L buffer' f.ctx)).2) =
      (g.bindReverse K B L buffer').plan.micro := by
    rw [hlisted, hpend, List.flatMap_nil, List.append_nil, halike.fused]
  have hplan : ∀ E E' : ReverseExecutor U V X, E.ctx = E'.ctx → E.buffer = E'.buffer →
      E.plan = E'.plan → E = E' := by
    rintro ⟨c, b, p⟩ ⟨c', b', p'⟩ rfl rfl rfl
    rfl
  refine hplan _ _ hctx rfl ?_
  have hp : ∀ p p' : ReversePlan U V X, p.bwd = p'.bwd → p.micro = p'.micro →
      p.microRuns = p'.microRuns → p.fused = p'.fused → p.pending = p'.pending →
      p.runStart = p'.runStart → p = p' := by
    rintro ⟨b, m, r, f, q, s⟩ ⟨b', m', r', f', q', s'⟩ rfl rfl rfl rfl rfl rfl
    rfl
  refine hp _ _ halike.bwd ?_ halike.microRuns halike.fused halike.pending halike.runStart
  rw [← hmicro]
  change (g.bindReverse K B L buffer).plan.fused.flatMap (fun f => tagged f.opcode
    (f.fn (((g.bindReverse K B L buffer).detachData g B L buffer').ctx f.ctx)).2) = _
  rw [hctx]

/-- What the cached ops offer does not depend on the buffer. -/
lemma Graph.MicroContract.microCount_eq (hK : g.MicroContract K B L) (buffer buffer' : ℕ) :
    g.microCount K B L buffer' = g.microCount K B L buffer := by
  refine congrArg List.sum (List.map_congr_left fun p hp => ?_)
  unfold Layout.microsOf
  split
  · rename_i hc
    cases hf : K.cachedMicro p.1.opcode with
    | none => rfl
    | some f => exact (hK.stable p hp hc f hf buffer' buffer).2
  · rfl

/-- Of a bound graph with at most `2 ^ 31` ops, whose cached ops offer fewer than `2 ^ 32` micro-ops, the
fused plan makes the same accumulations as calling each op's backward from the last op to the first,
in both forms of the walk, and after any number of data detaches. -/
theorem Graph.reverse_fused (h : g.layout B stale = .ok L) (hops : g.ops.length ≤ 2 ^ 31)
    (hK : g.MicroContract K B L) (buffer : ℕ) (hcount : g.microCount K B L buffer < 2 ^ 32)
    (detached : List ℕ) (st : RevState V X) :
    let E := detached.foldl (fun E buffer' => E.detachData g B L buffer')
      (g.bindReverse K B L buffer)
    E.reverseDense K st = some (g.reverseUnfused K B L E.buffer st) ∧
    E.reverseSparse K st = some (g.reverseUnfused K B L E.buffer st) ∧
    ∀ profile, E.reverse K profile st = some (g.reverseUnfused K B L E.buffer st) := by
  have ha := accepted_of_layout h
  obtain ⟨source, hs⟩ := ha.scratch
  have hlen : L.scratchOffsets.length = g.ops.length := hs.length
  have hbound : ∀ l : List ℕ, ∀ b, ∃ b', l.foldl (fun E buffer' => E.detachData g B L buffer')
      (g.bindReverse K B L b) = g.bindReverse K B L b' := by
    intro l
    induction l with
    | nil => exact fun b => ⟨b, rfl⟩
    | cons b' l ih =>
      intro b
      rw [List.foldl_cons, detach_bindReverse ha hK]
      exact ih b'
  obtain ⟨b', hb'⟩ := hbound detached buffer
  rw [hb']
  have hcount' : g.microCount K B L b' < 2 ^ 32 := by
    rwa [hK.microCount_eq buffer b']
  exact bindReverse_sweeps hlen hops hcount' hK st

end Detach

end Stanli
