import Stanli.Passes.ElideStoresReverse

/-!
# Removing full copies is sound, and when

The two sweeps put together, for the graph that the pass leaves.
-/

namespace Stanli

variable {U V S W : Type*}

/-! ## The pass -/

/-- What the scan leaves: the copies that go, and the ops as they read now. -/
structure Elided (g : Graph U) (isRoot : ℕ → Bool) (E : Elision → Prop) (st : ElideScan U) :
    Prop where
  elisions : Elisions g isRoot E
  drop : ∀ k, st.drop k = true ↔ ∃ x, E x ∧ x.pos = k
  ops : ∀ (k : ℕ) (op : Op U), g.ops[k]? = some op → ∃ f, st.ops[k]? = some (op.mapIns f) ∧
    ∀ s ∈ op.ins, RenamedTo E k s (f s)

/-- The scan of a whole graph. -/
lemma ElideScan.elided (g : Graph U) (isRoot : ℕ → Bool) :
    Elided g isRoot (fun x => ElideScan.Elides g isRoot x ∧ x.pos < g.ops.length)
      (ElideScan.upTo g isRoot g.ops.length) where
  elisions := (ElideScan.inv_upTo g isRoot g.ops.length).elisions
  drop k := by
    rw [(ElideScan.inv_upTo g isRoot g.ops.length).drop k]
    constructor
    · rintro ⟨hk, x, hx, rfl⟩
      exact ⟨x, ⟨hx, hk⟩, rfl⟩
    · rintro ⟨x, hx, rfl⟩
      exact ⟨hx.2, x, hx.1, rfl⟩
  ops := (ElideScan.inv_upTo g isRoot g.ops.length).ops

/-- What op `k` of the graph without the copies that `mask` marks reads for slot `s`: the source of a
marked copy to `s`, when nothing has written `s` since and op `k` does not, and else the slot. -/
def Graph.ReadsThrough (g : Graph U) (mask : List Bool) (k s t : ℕ) : Prop :=
  (∃ i op, i < k ∧ mask[i]? = some false ∧ g.ops[i]? = some op ∧ op.out = s ∧ g.Copies op t ∧
    ∀ j, i < j → j ≤ k → ¬ Writes g.ops s j) ∨
  t = s ∧ ∀ i op, i < k → mask[i]? = some false → g.ops[i]? = some op → op.out = s →
    ∃ j, i < j ∧ j ≤ k ∧ Writes g.ops s j

/-- `g'` is `g` without the copies that `mask` marks, their sources read in place of their
destinations. -/
structure Graph.WithoutCopies (g g' : Graph U) (mask : List Bool) : Prop where
  copies : ∀ (k : ℕ) (op : Op U), g.ops[k]? = some op → mask[k]? = some false → ∃ v, g.Copies op v
  readers : List.Forall₂ (fun p o' => ∃ f, o' = Op.mapIns f p.1 ∧
    ∀ s ∈ p.1.ins, g.ReadsThrough mask p.2 s (f s)) (applyMask mask g.ops.zipIdx) g'.ops

section Pass

variable {g : Graph U} {isRoot : ℕ → Bool} {E : Elision → Prop} {st : ElideScan U}

lemma ElideScan.rewriter_final (st : ElideScan U) (k : ℕ) (ops : List (Op U)) :
    st.rewriter.final k ops = k + ops.length := by
  induction ops generalizing k with
  | nil => rfl
  | cons op ops ih =>
    refine (ih (k + 1)).trans ?_
    rw [List.length_cons]
    omega

/-- What the scan leaves of op `k`. -/
lemma ElideScan.rewriter_emit (st : ElideScan U) {k : ℕ} {ops : List (Op U)} (hk : k < ops.length)
    (op : Op U) : st.rewriter.emit (st.rewriter.final 0 (ops.take k)) op =
      if st.drop k then none else st.ops[k]? := by
  rw [st.rewriter_final, List.length_take_of_le hk.le, Nat.zero_add]
  rfl

/-- Which ops stay. -/
lemma Elided.mask (h : Elided g isRoot E st) {k : ℕ} {op : Op U} (hop : g.ops[k]? = some op) :
    (st.rewriter.mask 0 g.ops)[k]? = some (!st.drop k) := by
  have hk := (List.getElem?_eq_some_iff.1 hop).1
  obtain ⟨f, hf, -⟩ := h.ops k op hop
  rw [Rewriter.mask_getElem?, hop, Option.map_some, st.rewriter_emit hk, hf]
  cases st.drop k <;> rfl

/-- The ops that stay. -/
lemma ElideScan.mem_run (st : ElideScan U) {ops : List (Op U)} {o' : Op U} :
    o' ∈ st.rewriter.run 0 ops ↔
      ∃ k, k < ops.length ∧ st.drop k = false ∧ st.ops[k]? = some o' := by
  have hemit : ∀ {k : ℕ}, k < ops.length → ∀ op,
      (st.rewriter.emit (st.rewriter.final 0 (ops.take k)) op = some o' ↔
        st.drop k = false ∧ st.ops[k]? = some o') := by
    intro k hk op
    rw [st.rewriter_emit hk]
    by_cases hd : st.drop k = true <;> simp [hd]
  constructor
  · intro hmem
    obtain ⟨m, hm⟩ := List.getElem?_of_mem hmem
    obtain ⟨k, op, hop, he, -⟩ := st.rewriter.getElem?_run_iff.1 hm
    have hk := (List.getElem?_eq_some_iff.1 hop).1
    exact ⟨k, hk, (hemit hk op).1 he⟩
  · rintro ⟨k, hk, hd⟩
    exact List.mem_of_getElem? (st.rewriter.getElem?_run_iff.2
      ⟨k, _, List.getElem?_eq_getElem hk, (hemit hk _).2 hd, rfl⟩)

/-- Reading through the copies, in terms of the mask. -/
lemma Elided.readsThrough (h : Elided g isRoot E st) {k s t : ℕ} {op : Op U}
    (hop : g.ops[k]? = some op) (ht : RenamedTo E k s t) :
    g.ReadsThrough (st.rewriter.mask 0 g.ops) k s t := by
  rcases ht with ⟨x, hx, hsp, rfl, rfl⟩ | ⟨hself, hno⟩
  · obtain ⟨c, hc, hout, hcop⟩ := (h.elisions.sound x hx).copies
    refine .inl ⟨x.pos, c, hsp.1, ?_, hc, hout, hcop, fun j hj hjk hw => ?_⟩
    · rw [h.mask hc, (h.drop x.pos).2 ⟨x, hx, rfl⟩]
      rfl
    · have := (h.elisions.sound x hx).unwritten j hw hj
      have := hsp.2
      omega
  · refine .inr ⟨hself, fun i c hik hm hc hout => ?_⟩
    rw [h.mask hc, Option.some.injEq, Bool.not_eq_false'] at hm
    obtain ⟨x, hx, rfl⟩ := (h.drop i).1 hm
    obtain ⟨c', hc', hout', -⟩ := (h.elisions.sound x hx).copies
    obtain rfl := Option.some.inj (hc.symm.trans hc')
    have hd : x.dest = s := hout'.symm.trans hout
    have hk := (List.getElem?_eq_some_iff.1 hop).1
    have hle : x.next ≤ k := by
      by_contra hlt
      exact hno x hx ⟨hik, by omega⟩ hd
    exact ⟨x.next, (h.elisions.sound x hx).lt_next, hle,
      hd ▸ h.elisions.writes_next hx (List.getElem?_eq_getElem (by omega)) rfl⟩

/-- The structure of the rewritten graph. -/
lemma Elided.withoutCopies (h : Elided g isRoot E st) :
    g.WithoutCopies { g with ops := st.rewriter.run 0 g.ops } (st.rewriter.mask 0 g.ops) where
  copies k op hop hm := by
    rw [h.mask hop, Option.some.injEq, Bool.not_eq_false'] at hm
    obtain ⟨x, hx, rfl⟩ := (h.drop k).1 hm
    obtain ⟨c, hc, -, hcop⟩ := (h.elisions.sound x hx).copies
    obtain rfl := Option.some.inj (hop.symm.trans hc)
    exact ⟨x.val, hcop⟩
  readers := by
    have key : ∀ (ops : List (Op U)) (k : ℕ), g.ops.drop k = ops →
        List.Forall₂ (fun p o' => ∃ f, o' = Op.mapIns f p.1 ∧
          ∀ s ∈ p.1.ins, g.ReadsThrough (st.rewriter.mask 0 g.ops) p.2 s (f s))
          (applyMask (st.rewriter.mask k ops) (ops.zipIdx k)) (st.rewriter.run k ops) := by
      intro ops
      induction ops with
      | nil => exact fun k _ => .nil
      | cons op ops ih =>
        intro k hk
        obtain ⟨hop, hrest⟩ := drop_succ_eq hk
        obtain ⟨f, hf, hren⟩ := h.ops k op hop
        by_cases hd : st.drop k = true
        · have he : st.rewriter.emit k op = none := if_pos hd
          rw [Rewriter.run_cons_none he, Rewriter.mask_cons_none he, List.zipIdx_cons,
            applyMask_false_cons]
          exact ih (k + 1) hrest
        · have he : st.rewriter.emit k op = some (op.mapIns f) := (if_neg hd).trans hf
          rw [Rewriter.run_cons_some he, Rewriter.mask_cons_some he, List.zipIdx_cons,
            applyMask_true_cons]
          exact .cons ⟨f, rfl, fun s hs => h.readsThrough hop (hren s hs)⟩ (ih (k + 1) hrest)
    exact key g.ops 0 rfl

/-- A write has a last one before a given op. -/
lemma exists_last_writer {ops : List (Op U)} {n s j : ℕ} (hj : j < n) (hw : Writes ops s j) :
    ∃ k < n, Writes ops s k ∧ ∀ i < n, Writes ops s i → i ≤ k := by
  induction n with
  | zero => exact absurd hj (Nat.not_lt_zero _)
  | succ n ih =>
    by_cases hn : Writes ops s n
    · exact ⟨n, Nat.lt_succ_self n, hn, fun i hi _ => Nat.lt_succ_iff.1 hi⟩
    · have hjn : j < n := by
        rcases Nat.lt_succ_iff_lt_or_eq.1 hj with h | rfl
        · exact h
        · exact absurd hw hn
      obtain ⟨k, hk, hkw, hlast⟩ := ih hjn
      refine ⟨k, by omega, hkw, fun i hi hiw => ?_⟩
      rcases Nat.lt_succ_iff_lt_or_eq.1 hi with h | rfl
      · exact hlast i h hiw
      · exact absurd hiw hn

/-- The binding of the rewritten graph: a slot that is read and not stale has been written last by an
op that stays. -/
lemma Elided.binding (h : Elided g isRoot E st) (hg : StoreGraph g) :
    ElidedBinding g E (Graph.bind { g with ops := st.rewriter.run 0 g.ops }) where
  len := rfl
  home := Graph.bind_home fun o' ho' => by
    obtain ⟨k, hk, -, hok⟩ := st.mem_run.1 ho'
    obtain ⟨f, hf, -⟩ := h.ops k _ (List.getElem?_eq_getElem hk)
    obtain rfl := Option.some.inj (hok.symm.trans hf)
    exact hg.noPrimal g.ops[k] (List.getElem_mem hk)
  active n s op hop hs hst := by
    have hwr : Graph.written { g with ops := st.rewriter.run 0 g.ops } s = g.written s := by
      rw [Bool.eq_iff_iff]
      simp only [Graph.written, List.any_eq_true, decide_eq_true_eq]
      constructor
      · rintro ⟨o', ho', hso⟩
        obtain ⟨k, hk, -, hok⟩ := st.mem_run.1 ho'
        obtain ⟨f, hf, -⟩ := h.ops k _ (List.getElem?_eq_getElem hk)
        obtain rfl := Option.some.inj (hok.symm.trans hf)
        exact ⟨g.ops[k], List.getElem_mem hk, hso⟩
      · rintro ⟨o, ho, hso⟩
        obtain ⟨i, hi⟩ := List.getElem?_of_mem ho
        obtain ⟨j, hjn, hjw⟩ := hg.order.writes_lt hop hs ⟨o, hi, hso⟩
        obtain ⟨k, hkn, ⟨c, hc, hcs⟩, hlast⟩ := exists_last_writer hjn hjw
        have hd : st.drop k = false := by
          by_contra hd
          obtain ⟨x, hx, rfl⟩ := (h.drop k).1 (by simpa using hd)
          have hsound := h.elisions.sound x hx
          obtain ⟨c', hc', hout, hcop⟩ := hsound.copies
          obtain rfl := Option.some.inj (hc.symm.trans hc')
          rw [hg.copies_outs hc hcop, List.mem_singleton] at hcs
          refine hst ⟨x, hx, (hcs.trans hout).symm, hkn, ?_⟩
          by_contra hle
          have hn := (List.getElem?_eq_some_iff.1 hop).1
          have hw := h.elisions.writes_next hx (List.getElem?_eq_getElem
            (by omega : x.next < g.ops.length)) rfl
          have := hlast x.next (by omega) (by rw [hcs, hout]; exact hw)
          have := hsound.lt_next
          omega
        obtain ⟨f, hf, -⟩ := h.ops k c hc
        exact ⟨_, st.mem_run.2 ⟨k, (List.getElem?_eq_some_iff.1 hc).1, hd, hf⟩, hcs⟩
    change (Graph.isParam _ s || Graph.written _ s) = (g.isParam s || g.written s)
    rw [hwr]
    rfl

/-- The ops from `n` on are `rest`. -/
def RestAt (g : Graph U) (n : ℕ) (rest : List (Op U)) : Prop :=
  n ≤ g.ops.length ∧ g.ops.drop n = rest

lemma RestAt.cons {n : ℕ} {op : Op U} {rest : List (Op U)} (h : RestAt g n (op :: rest)) :
    g.ops[n]? = some op ∧ RestAt g (n + 1) rest := by
  obtain ⟨hop, hrest⟩ := drop_succ_eq h.2
  exact ⟨hop, (List.getElem?_eq_some_iff.1 hop).1, hrest⟩

lemma RestAt.nil {n : ℕ} (h : RestAt g n []) : n = g.ops.length :=
  Nat.le_antisymm h.1 (List.drop_eq_nil_iff.1 h.2)

/-- An op goes when it is a copy that goes, and else it stays with its inputs renamed. -/
lemma Elided.emit (h : Elided g isRoot E st) {n : ℕ} {op : Op U} (hop : g.ops[n]? = some op) :
    (∃ x, E x ∧ x.pos = n) ∧ st.rewriter.emit n op = none ∨
    (∀ x, E x → x.pos ≠ n) ∧ ∃ f, st.rewriter.emit n op = some (op.mapIns f) ∧
      ∀ s ∈ op.ins, RenamedTo E n s (f s) := by
  by_cases hd : st.drop n = true
  · exact .inl ⟨(h.drop n).1 hd, if_pos hd⟩
  · obtain ⟨f, hf, hren⟩ := h.ops n op hop
    exact .inr ⟨fun x hx hn => hd ((h.drop n).2 ⟨x, hx, hn⟩), f, (if_neg hd).trans hf, hren⟩

/-- The forward sweeps with and without the copies. -/
lemma Elided.forward [Zero V] (h : Elided g isRoot E st) (hg : StoreGraph g)
    {K : Kernels U V S W} (hK : K.Slices) (m : Arena V) (w : W) :
    Rewriter.Simulated (ElideRelated g E g.ops.length)
      (fun o o' => o'.inputs = o.inputs ∧ o'.scratch = o.scratch) (st.rewriter.mask 0 g.ops)
      (g.forward K m w) (Graph.forward K { g with ops := st.rewriter.run 0 g.ops } m w) := by
  have hE := h.elisions
  have hb' := h.binding hg
  refine Rewriter.run_simulates _
    (R := fun n rest σ τ => RestAt g n rest ∧ ElideRelated g E n σ τ) ?_ ?_ ?_ ?_
  · rintro n σ τ ⟨hrest, hrel⟩
    exact hrest.nil ▸ hrel
  · rintro n op k rest σ τ hk ⟨hrest, hrel⟩
    obtain ⟨hop, hrest'⟩ := hrest.cons
    rcases h.emit hop with ⟨-, he⟩ | ⟨hkeep, f, he, hren⟩
    · rw [he] at hk
      cases hk
    · obtain rfl := Option.some.inj (he.symm.trans hk)
      rcases hrel.step_keep (K := K) hE hg hop hkeep hren hb'.len hb'.home with
        herr | ⟨σ', o, τ', o', hσ, hτ, hlog, hrel'⟩
      · exact .inl herr
      · exact .inr ⟨σ', o, τ', o', hσ, hτ, hlog, hrest', hrel'⟩
  · rintro n op rest σ τ hk ⟨hrest, hrel⟩
    obtain ⟨hop, hrest'⟩ := hrest.cons
    rcases h.emit hop with ⟨⟨x, hx, hn⟩, -⟩ | ⟨-, f, he, -⟩
    · obtain ⟨σ', o, hσ, hrel'⟩ := hrel.step_drop hE hg hK hop hx hn
      exact ⟨σ', o, hσ, hrest', hrel'⟩
    · rw [he] at hk
      cases hk
  · refine ⟨⟨Nat.zero_le _, rfl⟩, rfl, fun _ _ _ _ => rfl, fun x _ hxo => ?_⟩
    exact absurd hxo.1 (Nat.not_lt_zero _)

/-- The reverse sweeps with and without the copies. -/
lemma Elided.reverse [AddCommMonoid V] (h : Elided g isRoot E st) (hg : CopyGraph g)
    {K : Kernels U V S W} (hK : K.Slices) (hblind : g.DataCopiesBlind K)
    (hres : ∀ s, g.resultSlot = some s → isRoot s = true)
    {r r' : Outcome (SweepState V S W) (LogEntry V S) String}
    (hsim : Rewriter.Simulated (ElideRelated g E g.ops.length)
      (fun o o' => o'.inputs = o.inputs ∧ o'.scratch = o.scratch) (st.rewriter.mask 0 g.ops) r r')
    (hok : r.error = none) (hlen : r.log.length = g.ops.length) (seed : V) :
    AdjElided g E 0 (g.reverse K r seed)
      (Graph.reverse K { g with ops := st.rewriter.run 0 g.ops } r' seed) := by
  have hE := h.elisions
  have hb' := h.binding hg.toStoreGraph
  have hfin := hsim.final hok
  have hseed : ∀ s e, isRoot s = false → (if g.resultSlot = some s ∧ e = 0 then seed else 0) = 0 :=
    fun s e hs => if_neg fun hr => by
      rw [hres s hr.1] at hs
      cases hs
  refine backRun_simulates _ (I := RestAt g) (R := fun n _ α β => AdjElided g E n α β)
    (fun n op rest hrest => hrest.cons.2) ?_ ?_ ⟨Nat.zero_le _, rfl⟩ hlen hsim.log ?_
  · intro n op k rest o o' α β hrest hk ho hrel
    obtain ⟨hop, -⟩ := hrest.cons
    rcases h.emit hop with ⟨-, he⟩ | ⟨hkeep, f, he, hren⟩
    · rw [he] at hk
      cases hk
    · obtain rfl := Option.some.inj (he.symm.trans hk)
      exact hrel.step_keep hE hg hb' hblind hop hkeep hren hfin.closed hfin.opened ho.2
  · intro n op rest o α β hrest hk hrel
    obtain ⟨hop, -⟩ := hrest.cons
    rcases h.emit hop with ⟨⟨x, hx, hn⟩, -⟩ | ⟨-, f, he, -⟩
    · exact hrel.step_drop hE hg hK hop hx hn
    · rw [he] at hk
      cases hk
  · -- the seed: the result is no source and no destination
    refine ⟨fun s _ _ _ e _ => rfl, fun x hx _ e _ => hseed _ _ (hE.sound x hx).roots.1,
      fun x hx _ _ e _ => ?_, fun x hx _ e _ => hseed _ _ (hE.sound x hx).roots.2⟩
    exact (hseed _ e (hE.sound x hx).roots.2).trans (hseed _ e (hE.sound x hx).roots.1).symm

end Pass

/-! ## Graphs that reuse their buffers without care -/

/-- `slice_fwd`, the elementwise square and the selection `fmax`, over the integers. -/
def selectionKernels : Kernels Unit ℤ Unit Unit where
  registered oc := decide (oc ∈ [Opcode.slice, .square, .fmax])
  makesState _ := false
  islandHasEffect _ := false
  forward c _ _ ins :=
    let x := ins.getD 0 []
    let y := ins.getD 1 []
    if c.opcode = .slice then
      .ok ⟨fun e => x.getD ((c.idata.getD 0 0).toNat + e) 0, fun _ => 0, ()⟩
    else if c.opcode = .square then .ok ⟨fun e => x.getD e 0 * x.getD e 0, fun _ => 0, ()⟩
    else if c.opcode = .fmax then .ok ⟨fun e => max (x.getD e 0) (y.getD e 0), fun _ => 0, ()⟩
    else .error "no kernel"
  effect _ _ _ _ _ := .error "no kernel"
  backward c _ ins _ _ act u _ j e :=
    let x := (ins.getD 0 []).getD e 0
    let y := (ins.getD 1 []).getD e 0
    if c.opcode = .slice then
      if (c.idata.getD 0 0).toNat ≤ e then u.getD (e - (c.idata.getD 0 0).toNat) 0 else 0
    else if c.opcode = .square then 2 * x * u.getD e 0
    else if c.opcode = .fmax then
      -- two variables give a tie to the second one, a variable and a number to the variable
      let first := if act.getD 1 false then decide (y < x) else decide (y ≤ x)
      if j = 0 then if first then u.getD e 0 else 0 else if first then 0 else u.getD e 0
    else 0
  backward_valueFree c hc _ ins ins' _ _ _ _ _ _ _ _ _ _ := by
    have hsq : c.opcode ≠ .square := fun h => by
      rw [h] at hc
      revert hc
      decide
    have hmax : c.opcode ≠ .fmax := fun h => by
      rw [h] at hc
      revert hc
      decide
    simp only [hsq, hmax, if_false]

lemma selectionKernels_slices : selectionKernels.Slices where
  forward _ _ _ _ _ := ⟨_, rfl, fun _ _ => rfl⟩
  backward _ _ _ _ _ _ _ _ _ := rfl

/-- A buffer filled by a full store, read, and filled again, and a slice of all of another one. -/
def refilledGraph : Graph Unit where
  slots := [⟨2, true⟩, ⟨2, false⟩, ⟨2, false⟩, ⟨2, false⟩, ⟨1, false⟩, ⟨2, false⟩, ⟨2, false⟩,
    ⟨2, false⟩, ⟨1, false⟩, ⟨1, false⟩]
  ops :=
    [{ opcode := .square, out := 2, ins := [0] },
     { opcode := .setSlice, out := 3, ins := [1, 2], idata := [0] },
     { opcode := .index, out := 4, ins := [3], idata := [1] },
     { opcode := .square, out := 5, ins := [0] },
     { opcode := .setSliceInplace, out := 3, ins := [3, 5], idata := [0] },
     { opcode := .square, out := 6, ins := [3] },
     { opcode := .slice, out := 7, ins := [6], idata := [0] },
     { opcode := .index, out := 8, ins := [7], idata := [0] },
     { opcode := .fmax, out := 9, ins := [4, 8] }]
  resultSlot := some 9

example : (elideFullExtentStores refilledGraph []).2 = 3 := by decide

/-- The reader of a buffer rereads it in reverse, after the buffer has been filled again. -/
def rereadGraph : Graph Unit where
  slots := [⟨1, true⟩, ⟨1, false⟩, ⟨1, false⟩, ⟨1, false⟩, ⟨1, false⟩, ⟨1, false⟩]
  ops :=
    [{ opcode := .square, out := 2, ins := [0] },
     { opcode := .setSlice, out := 3, ins := [1, 2], idata := [0] },
     { opcode := .square, out := 4, ins := [3] },
     { opcode := .square, out := 5, ins := [4] },
     { opcode := .setSliceInplace, out := 3, ins := [3, 5], idata := [0] }]
  resultSlot := some 4

/-- A copying store to a slot that has been written. -/
def rewrittenGraph : Graph Unit where
  slots := [⟨1, true⟩, ⟨1, false⟩, ⟨1, false⟩, ⟨1, false⟩, ⟨1, false⟩]
  ops :=
    [{ opcode := .square, out := 3, ins := [0] },
     { opcode := .square, out := 2, ins := [0] },
     { opcode := .setSlice, out := 3, ins := [1, 2], idata := [0] },
     { opcode := .slice, out := 4, ins := [3], idata := [0] }]
  resultSlot := some 4

/-- Two stores of different values, the second one a cached primal of the first. -/
def cachedStoreGraph : Graph Unit where
  slots := [⟨1, true⟩, ⟨1, false⟩, ⟨1, false⟩, ⟨1, false⟩, ⟨1, false⟩, ⟨1, false⟩, ⟨1, false⟩]
  ops :=
    [{ opcode := .square, out := 2, ins := [0] },
     { opcode := .slice, out := 4, ins := [0], idata := [0] },
     { opcode := .setSlice, out := 3, ins := [1, 2], idata := [0], primalSource := some 3 },
     { opcode := .setSlice, out := 5, ins := [1, 4], idata := [0], primalSource := some 3 },
     { opcode := .slice, out := 6, ins := [5], idata := [0] }]
  resultSlot := some 6

/-- A selection between a parameter and data that has been stored in a buffer. -/
def selectedDataGraph : Graph Unit where
  slots := [⟨1, true⟩, ⟨1, false⟩, ⟨1, false⟩, ⟨1, false⟩, ⟨1, false⟩]
  ops :=
    [{ opcode := .setSlice, out := 3, ins := [1, 2], idata := [0] },
     { opcode := .fmax, out := 4, ins := [0, 3] }]
  resultSlot := some 4

end Stanli
