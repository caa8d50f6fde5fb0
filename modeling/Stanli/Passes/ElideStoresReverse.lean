import Stanli.Passes.ElideStoresForward

/-!
# The reverse sweep without full copies

The source of a copy that has gone collects the adjoint of the destination.  Before the window
nothing has reached either: the store that ends it clears the destination, and nothing else reads the
source.
-/

namespace Stanli

variable {U V S W : Type*}

/-! ## What the backward of an op sees -/

/-- The binding of the graph without the copies, as far as its ops read it. -/
structure ElidedBinding (g : Graph U) (E : Elision → Prop) (b' : Binding) : Prop where
  len : b'.len = g.len
  home : b'.home = id
  active : ∀ (n s : ℕ) (op : Op U), g.ops[n]? = some op → s ∈ op.ins → ¬ Stale E n s →
    b'.active s = g.bind.active s

section Reread

variable {g : Graph U} {isRoot : ℕ → Bool} {E : Elision → Prop} {n : ℕ} {op : Op U} {b' : Binding}
  {fin fin' : Arena V}

/-- Nothing writes what a backward rereads, so in the end it stands as the op has left it. -/
lemma reread_eq (hE : Elisions g isRoot E) (hg : CopyGraph g) (hb' : ElidedBinding g E b')
    (hop : g.ops[n]? = some op) (hkeep : ∀ x, E x → x.pos ≠ n)
    (hclosed : ∀ s, ¬ Stale E g.ops.length s → ∀ e < g.len s, fin' s e = fin s e)
    (hopened : ∀ x, E x → x.OpenAt g.ops.length → ∀ e < g.len x.dest, fin' x.val e = fin x.dest e)
    (hvf : op.opcode.backwardIgnoresValues = false) {s t : ℕ} (hs : s ∈ op.ins ∨ s ∈ op.outs)
    (ht : RenamedTo E n s t) : b'.read fin' t = g.bind.read fin s := by
  have hlast : ∀ k, Writes g.ops s k → k ≤ n := fun k hk => hg.writes_le hop hvf hs hk
  have hlt := (List.getElem?_eq_some_iff.1 hop).1
  have htlen := ht.len_eq hE
  have hlen : b'.len t = g.bind.len s := by rw [hb'.len, htlen, Graph.bind_len]
  refine Binding.read_eq_read hlen fun e he => ?_
  rw [hb'.home, Graph.bind_home hg.noPrimal, id_eq, id_eq]
  rw [hlen, Graph.bind_len] at he
  by_cases hfin : Stale E g.ops.length s
  · -- the window is open to the end, so the source still holds the value
    obtain ⟨x, hx, rfl, hxo⟩ := hfin
    have hxn : x.pos < n := Nat.lt_of_le_of_ne (hlast _ (hE.sound x hx).writes) (hkeep x hx)
    rw [ht.eq_val hE hx rfl ⟨hxn, by have := hxo.2; omega⟩]
    exact hopened x hx hxo e he
  · have hts : t = s := by
      rcases ht with ⟨x, hx, hsp, rfl, -⟩ | ⟨hself, -⟩
      · have hxl : x.next < g.ops.length := by
          by_contra hle
          exact hfin ⟨x, hx, rfl, by have := hsp.1; omega, by omega⟩
        have := hlast _ (hE.writes_next hx (List.getElem?_eq_getElem hxl) rfl)
        have := hsp.2
        omega
      · exact hself
    rw [hts]
    exact hclosed s hfin e he

end Reread

/-- The two reverse sweeps before op `n`, that is with the ops from `n` on pulled back: the source of
an open copy has the adjoint of its destination, and nothing has reached the source otherwise. -/
structure AdjElided [AddCommMonoid V] (g : Graph U) (E : Elision → Prop) (n : ℕ) (α β : Arena V) :
    Prop where
  closed : ∀ s, ¬ Stale E n s → ¬ Lent E n s → (g.isParam s = true ∨ ∃ j < n, Writes g.ops s j) →
    ∀ e < g.len s, β s e = α s e
  dest : ∀ x, E x → x.OpenAt n → ∀ e < g.len x.dest, β x.dest e = 0
  val : ∀ x, E x → x.OpenAt n → g.bind.active x.val = true →
    ∀ e < g.len x.dest, β x.val e = α x.dest e
  source : ∀ x, E x → x.pos < n → ∀ e < g.len x.val, α x.val e = 0

section Copy

variable [AddCommMonoid V] {K : Kernels U V S W} {b : Binding} {fin : Arena V} {op : Op U}
  {entry : LogEntry V S} {adj : Arena V} {g : Graph U} {v : ℕ}

/-- The base of a store that covers its output receives nothing. -/
lemma Graph.covers_routedBack (hcov : g.coversDestination op = true) (hlen : b.len = g.len)
    (u : ℕ → V) (e : ℕ) : op.routedBack b u 0 e = 0 := by
  have hi := Opcode.ne_index_of_isStore (Graph.covers_isStore hcov)
  obtain ⟨-, -, -, hl⟩ := Graph.covers_facts hcov
  simp only [Op.routedBack, hi, if_false, if_true, Graph.covers_comb hcov, hlen, hl]
  refine if_neg fun h => ?_
  have := inComb_full h.2.1
  rw [h.2.2] at this
  cases this

/-- The right-hand side of a store that covers its output receives all of its adjoint. -/
lemma Graph.covers_routedBack_one (hcov : g.coversDestination op = true) (hlen : b.len = g.len)
    (u : ℕ → V) {e : ℕ} (he : e < g.len op.out) : op.routedBack b u 1 e = u e := by
  have hi := Opcode.ne_index_of_isStore (Graph.covers_isStore hcov)
  obtain ⟨-, -, -, hl⟩ := Graph.covers_facts hcov
  simp [Op.routedBack, hi, Graph.covers_comb hcov, hlen, hl, he]

/-- The pullback of a covering store in place clears its output. -/
lemma backwardOp_covering_out (hip : op.opcode.isInplaceStore = true)
    (hcov : g.coversDestination op = true) (hlen : b.len = g.len) {e : ℕ} (he : e < g.len op.out) :
    backwardOp K b fin op entry adj op.out e = 0 := by
  obtain ⟨-, -, -, hl⟩ := Graph.covers_facts hcov
  rw [backwardOp_inplace hip, Graph.covers_comb hcov, hlen, hl]
  exact if_pos ⟨rfl, inComb_full he⟩

/-- The pullback of a copy hands the adjoint of its output to its source; a copy in place clears it,
and no other slot gets anything. -/
lemma backwardOp_copy (hK : K.Slices) (hlen : b.len = g.len)
    (hcon : g.coversDestination op = true → op.StoreContract g.len) (hc : g.Copies op v)
    (hv : v ≠ op.out) :
    (b.active v = true → ∀ e < g.len op.out,
      backwardOp K b fin op entry adj v e = adj v e + adj op.out e) ∧
    (op.opcode.isInplaceStore = true → ∀ e < g.len op.out,
      backwardOp K b fin op entry adj op.out e = 0) ∧
    ∀ s, s ≠ v → s ≠ op.out → ∀ e, backwardOp K b fin op entry adj s e = adj s e := by
  rcases hc with ⟨hid, rfl⟩ | ⟨hcov, rfl⟩
  · obtain ⟨hoc, hins, hout2, hcall, hl, -⟩ := Graph.identitySlice_facts hid
    have hr : op.opcode.isRouted = false := by rw [hoc]; rfl
    have hip : op.opcode.isInplaceStore = false := by rw [hoc]; rfl
    refine ⟨fun ha e he => ?_, fun h => by simp [hip] at h, fun s hs _ e => ?_⟩
    · rw [backwardOp_kernel hr, hins, hcall, accumulate_apply]
      have hcell := hK.backward 0 entry.scratch ([op.input 0].map (b.read fin)) (b.read fin op.out)
        ((op.out2.map (b.read fin)).getD []) ([op.input 0].map b.active)
        ((List.range (b.len op.out)).map (adj op.out)) ((op.out2.map fun o => adj o 0).getD 0) e
      rw [if_pos (Nat.zero_le e), Nat.sub_zero] at hcell
      simp only [List.zipIdx_cons, List.zipIdx_nil, List.foldl_cons, List.foldl_nil, ha, and_self,
        if_true]
      refine congrArg _ (hcell.trans ?_)
      have he' : e < b.len op.out := by rwa [hlen]
      simp [he']
    · exact backwardOp_of_notMem (by simpa [hins] using hs) (by simp [hip]) e
  · have hcont := hcon hcov
    have hst := Graph.covers_isStore hcov
    have hacc : ∀ s e, accumulate b op.ins (op.routedBack b (adj op.out)) adj s e =
        adj s e + if b.active (op.input 1) = true ∧ op.input 1 = s then
          op.routedBack b (adj op.out) 1 e else 0 := by
      intro s e
      rw [hcont.ins_eq, accumulate_pair, Graph.covers_routedBack hcov hlen]
      simp only [ite_self, add_zero]
    have hback : ∀ s, s ≠ op.out → ∀ e, backwardOp K b fin op entry adj s e =
        adj s e + if b.active (op.input 1) = true ∧ op.input 1 = s then
          op.routedBack b (adj op.out) 1 e else 0 := by
      intro s hs e
      by_cases hip : op.opcode.isInplaceStore = true
      · rw [backwardOp_inplace hip, if_neg fun h => hs h.1, hacc]
      · have hcp : op.opcode.isCopyingStore = true := by
          rw [Opcode.isStore, Bool.or_eq_true] at hst
          exact hst.resolve_right hip
        rw [backwardOp_routed (.inr hcp), hacc]
    refine ⟨fun ha e he => ?_, fun hip e he => backwardOp_covering_out hip hcov hlen he,
      fun s hs hso e => ?_⟩
    · rw [hback _ hv, if_pos ⟨ha, rfl⟩, Graph.covers_routedBack_one hcov hlen _ he]
    · rw [hback s hso, if_neg fun h => hs h.2.symm, add_zero]

end Copy

namespace AdjElided

variable [AddCommMonoid V] {g : Graph U} {isRoot : ℕ → Bool} {E : Elision → Prop} {n : ℕ}
  {α β : Arena V} {op : Op U} {K : Kernels U V S W} {fin : Arena V} {o : LogEntry V S}

/-- Slots whose windows are open after op `n` only because of it. -/
lemma not_stale_succ {s : ℕ} (hs : ¬ Stale E n s) (hx : ∀ x, E x → x.pos = n → x.dest ≠ s) :
    ¬ Stale E (n + 1) s := by
  rintro ⟨x, hxE, hd, hxo⟩
  by_cases hn : x.pos = n
  · exact hx x hxE hn hd
  · exact hs ⟨x, hxE, hd, ((Elision.openAt_succ_iff hn).1 hxo).1⟩

lemma not_lent_succ {s : ℕ} (hs : ¬ Lent E n s) (hx : ∀ x, E x → x.pos = n → x.val ≠ s) :
    ¬ Lent E (n + 1) s := by
  rintro ⟨x, hxE, hd, hxo⟩
  by_cases hn : x.pos = n
  · exact hx x hxE hn hd
  · exact hs ⟨x, hxE, hd, ((Elision.openAt_succ_iff hn).1 hxo).1⟩

/-- A source that has an adjoint has been written before its copy. -/
lemma written_of_active (hE : Elisions g isRoot E) {x : Elision} (hx : E x)
    (ha : g.bind.active x.val = true) : ∃ j < x.pos, Writes g.ops x.val j := by
  have hor : g.isParam x.val = true ∨ g.written x.val = true := by
    simpa [Graph.bind] using ha
  rw [(hE.sound x hx).params.2] at hor
  obtain ⟨op, hop, hs⟩ := List.any_eq_true.1 (hor.resolve_left (by simp))
  obtain ⟨j, hj⟩ := List.getElem?_of_mem hop
  have hw : Writes g.ops x.val j := ⟨op, hj, of_decide_eq_true hs⟩
  exact ⟨j, (hE.sound x hx).writer j hw, hw⟩

/-- After the window nothing has reached the source, in either sweep. -/
lemma val_next (h : AdjElided g E (n + 1) α β) (hE : Elisions g isRoot E) {x : Elision}
    (hx : E x) (hn : n = x.next) (ha : g.bind.active x.val = true) :
    ∀ e < g.len x.val, β x.val e = 0 := by
  have hlt := (hE.sound x hx).lt_next
  have hsrc := h.source x hx (by omega)
  obtain ⟨j, hj, hw⟩ := written_of_active hE hx ha
  intro e he
  rw [h.closed x.val (hE.val_not_stale hx (by omega)) ?_ (.inr ⟨j, by omega, hw⟩) e he, hsrc e he]
  rintro ⟨y, hy, hv, hyo⟩
  obtain rfl := hE.val_unique hy hx hv
  have := hyo.2
  omega

/-- Before a copy that goes. -/
lemma step_drop (h : AdjElided g E (n + 1) α β) (hE : Elisions g isRoot E) (hg : CopyGraph g)
    (hK : K.Slices) (hop : g.ops[n]? = some op) {x : Elision} (hx : E x) (hn : x.pos = n) :
    AdjElided g E n (backwardOp K g.bind fin op o α) β := by
  have hsound := hE.sound x hx
  obtain ⟨op', hop', hout, hc⟩ := hsound.copies
  obtain rfl := Option.some.inj ((hn ▸ hop').symm.trans hop)
  have hv : x.val ≠ op'.out := hout ▸ hsound.ne
  obtain ⟨hval, hclear, hother⟩ := @backwardOp_copy U V S W _ K g.bind fin op' o α g x.val hK rfl
    (fun hcov => hg.contract hop (Graph.covers_isStore hcov)) hc hv
  have hxo : x.OpenAt (n + 1) := ⟨by omega, by have := hsound.lt_next; omega⟩
  have hpos : ∀ y, E y → y.pos = n → y = x := fun y hy hyn => hE.unique y x hy hx (hyn.trans hn.symm)
  have hw : Writes g.ops x.dest n := ⟨op', hop, by simp [hout]⟩
  have hlen := hsound.len_eq
  -- a window that op `n` ends is one of the same slot, and op `n` is a store in place
  have hend : ∀ y, E y → n = y.next → y.dest = x.dest ∧ op'.opcode.isInplaceStore = true := by
    intro y hy hyn
    obtain ⟨hoc, hyout, -⟩ := (hE.sound y hy).covered op' (hyn ▸ hop)
    exact ⟨hyout.symm.trans hout,
      Opcode.isInplaceStore_iff.2 (hoc.elim (fun h => .inr (.inl h)) fun h => .inr (.inr h))⟩
  refine ⟨fun s hs hl hrel e he => ?_, fun y hy hyo e he => ?_, fun y hy hyo ha e he => ?_,
    fun y hy hyn e he => ?_⟩
  · by_cases hsv : s = x.val
    · subst hsv
      have ha : g.bind.active x.val = true := by
        rcases hrel with hp | ⟨j, -, hj⟩
        · rw [hsound.params.2] at hp
          cases hp
        · exact hj.active
      rw [hval ha e (hout ▸ hlen ▸ he), h.source x hx (by omega) e he, zero_add, hout]
      exact h.val x hx hxo ha e (hlen ▸ he)
    by_cases hsd : s = x.dest
    · subst hsd
      have hip : op'.opcode.isInplaceStore = true := by
        -- a copy that is not in place is the only write of its destination so far
        rcases hrel with hp | ⟨j, hj, hjw⟩
        · rw [hsound.params.1] at hp
          cases hp
        rcases hc with ⟨hid, -⟩ | ⟨hcov, -⟩
        · obtain ⟨-, -, -, -, -, hone⟩ := Graph.identitySlice_facts hid
          obtain ⟨k, hk⟩ := List.length_eq_one_iff.1 hone
          rw [hout] at hk
          have h1 := List.mem_singleton.1 (hk ▸ Graph.mem_writers.2 hjw)
          have h2 := List.mem_singleton.1 (hk ▸ Graph.mem_writers.2 hw)
          omega
        · by_contra hip
          have hst := Graph.covers_isStore hcov
          rw [Opcode.isStore, Bool.or_eq_true] at hst
          have := hg.le_of_writes hop (hst.resolve_right hip) (hout ▸ hjw)
          omega
      rw [h.dest x hx hxo e he, ← hout, hclear hip e (hout ▸ he)]
    · rw [hother s hsv (hout ▸ hsd)]
      refine h.closed s (not_stale_succ hs fun y hy hyn => ?_)
        (not_lent_succ hl fun y hy hyn => ?_) ?_ e he
      · rw [hpos y hy hyn]
        exact Ne.symm hsd
      · rw [hpos y hy hyn]
        exact Ne.symm hsv
      · exact hrel.imp id (Exists.imp fun j hj => ⟨Nat.lt_succ_of_lt hj.1, hj.2⟩)
  · have hyn : y.pos ≠ n := by have := hyo.1; omega
    by_cases hnext : n = y.next
    · rw [(hend y hy hnext).1] at he ⊢
      exact h.dest x hx hxo e he
    · exact h.dest y hy ((Elision.openAt_succ_iff hyn).2 ⟨hyo, hnext⟩) e he
  · have hyn : y.pos ≠ n := by have := hyo.1; omega
    by_cases hnext : n = y.next
    · obtain ⟨hd, hip⟩ := hend y hy hnext
      rw [h.val_next hE hy hnext ha e ((hE.sound y hy).len_eq ▸ he), hd, ← hout,
        hclear hip e (by rw [hout, ← hd]; exact he)]
    · have hyd : y.dest ≠ op'.out := fun heq =>
        hnext (hE.next_of_writes hy hyo (by rw [heq, hout]; exact hw))
      have hyv : y.dest ≠ x.val := fun heq => hE.val_not_stale hx hn.le ⟨y, hy, heq, hyo⟩
      rw [hother _ hyv hyd]
      exact h.val y hy ((Elision.openAt_succ_iff hyn).2 ⟨hyo, hnext⟩) ha e he
  · have hyv : y.val ≠ x.val := fun heq => by
      have := hE.val_unique hy hx heq
      subst this
      omega
    have hyd : y.val ≠ op'.out := fun heq => by
      have := (hE.sound y hy).writer n (by rw [heq, hout]; exact hw)
      omega
    rw [hother _ hyv hyd]
    exact h.source y hy (by omega) e he

section Keep

variable {f : ℕ → ℕ} {b' : Binding} {fin' : Arena V} {o' : LogEntry V S}

/-- The adjoints op `n` pulls back are the same. -/
lemma out_eq (h : AdjElided g E (n + 1) α β) (hE : Elisions g isRoot E)
    (hop : g.ops[n]? = some op) (hkeep : ∀ x, E x → x.pos ≠ n) {s : ℕ} (hs : s ∈ op.outs) :
    ∀ e < g.len s, β s e = α s e := by
  have hw : Writes g.ops s n := ⟨op, hop, hs⟩
  refine h.closed s ?_ ?_ (.inr ⟨n, Nat.lt_succ_self n, hw⟩)
  · rintro ⟨x, hx, rfl, hxo⟩
    obtain ⟨hxo, hne⟩ := (Elision.openAt_succ_iff (hkeep x hx)).1 hxo
    exact hne (hE.next_of_writes hx hxo hw)
  · rintro ⟨x, hx, rfl, hxo⟩
    have := (hE.sound x hx).writer n hw
    have := hxo.1
    omega

/-- What a kernel adds to an input that has an adjoint in both graphs: it looks at the same values if
it looks at values, and if it looks at which inputs have an adjoint they are the same ones. -/
lemma kernel_eq (h : AdjElided g E (n + 1) α β) (hE : Elisions g isRoot E) (hg : CopyGraph g)
    (hb' : ElidedBinding g E b') (hblind : g.DataCopiesBlind K) (hop : g.ops[n]? = some op)
    (hkeep : ∀ x, E x → x.pos ≠ n) (hren : ∀ s ∈ op.ins, RenamedTo E n s (f s))
    (hr : op.opcode.isRouted = false)
    (hclosed : ∀ s, ¬ Stale E g.ops.length s → ∀ e < g.len s, fin' s e = fin s e)
    (hopened : ∀ x, E x → x.OpenAt g.ops.length → ∀ e < g.len x.dest, fin' x.val e = fin x.dest e)
    (hscratch : o'.scratch = o.scratch) {j s e : ℕ} (hj : op.ins[j]? = some s)
    (ha : g.bind.active s = true) (ha' : b'.active (f s) = true) :
    K.backward op.call o'.scratch ((op.ins.map f).map (b'.read fin')) (b'.read fin' op.out)
        ((op.out2.map (b'.read fin')).getD []) ((op.ins.map f).map b'.active)
        ((List.range (b'.len op.out)).map (β op.out)) ((op.out2.map fun t => β t 0).getD 0) j e =
      K.backward op.call o.scratch (op.ins.map (g.bind.read fin)) (g.bind.read fin op.out)
        ((op.out2.map (g.bind.read fin)).getD []) (op.ins.map g.bind.active)
        ((List.range (g.bind.len op.out)).map (α op.out)) ((op.out2.map fun t => α t 0).getD 0)
        j e := by
  have hmem := List.mem_of_getElem? hop
  have hhome := Graph.bind_home hg.noPrimal
  have hlen : b'.len = g.bind.len := hb'.len
  have hlenf : ∀ s ∈ op.ins, g.len (f s) = g.len s := fun s hs => (hren s hs).len_eq hE
  have hnend : ∀ x, E x → n ≠ x.next := by
    intro x hx hn
    obtain ⟨-, -, hcov⟩ := (hE.sound x hx).covered op (hn ▸ hop)
    have hst := Graph.covers_isStore hcov
    rw [Opcode.isStore_eq_false_of_isRouted_eq_false hr] at hst
    cases hst
  have hu : (List.range (b'.len op.out)).map (β op.out) =
      (List.range (g.bind.len op.out)).map (α op.out) := by
    rw [hlen]
    exact List.map_congr_left fun e he =>
      h.out_eq hE hop hkeep (by simp) e (List.mem_range.1 he)
  have hu2 : (op.out2.map fun t => β t 0).getD 0 = (op.out2.map fun t => α t 0).getD 0 := by
    cases h2 : op.out2 with
    | none => rfl
    | some t => exact h.out_eq hE hop hkeep (by simp [h2]) 0 (hg.out2_len op hmem t h2)
  -- the values
  have hvals : K.backward op.call o.scratch ((op.ins.map f).map (b'.read fin'))
        (b'.read fin' op.out) ((op.out2.map (b'.read fin')).getD []) ((op.ins.map f).map b'.active)
        ((List.range (g.bind.len op.out)).map (α op.out)) ((op.out2.map fun t => α t 0).getD 0) =
      K.backward op.call o.scratch (op.ins.map (g.bind.read fin)) (g.bind.read fin op.out)
        ((op.out2.map (g.bind.read fin)).getD []) ((op.ins.map f).map b'.active)
        ((List.range (g.bind.len op.out)).map (α op.out))
        ((op.out2.map fun t => α t 0).getD 0) := by
    by_cases hvf : op.opcode.backwardIgnoresValues = true
    · refine K.backward_valueFree op.call hvf _ _ _ _ _ _ _ _ _ _ ?_ ?_ ?_
      · rw [List.map_map, List.map_map, List.map_map]
        exact List.map_congr_left fun s hs => by simp [Binding.read, hlen, hlenf s hs]
      · simp [Binding.read, hlen]
      · cases h2 : op.out2 <;> simp [Binding.read, hlen]
    · rw [Bool.not_eq_true] at hvf
      have hself : ∀ s ∈ op.outs, RenamedTo E n s s := fun s hs => by
        refine .inr ⟨rfl, fun x hx hsp hd => ?_⟩
        have := (hE.sound x hx).unwritten n ⟨op, hop, hd ▸ hs⟩ hsp.1
        have := hsp.2
        omega
      have hout : ∀ s ∈ op.outs, b'.read fin' s = g.bind.read fin s := fun s hs =>
        reread_eq hE hg hb' hop hkeep hclosed hopened hvf (.inr hs) (hself s hs)
      have hins : (op.ins.map f).map (b'.read fin') = op.ins.map (g.bind.read fin) := by
        rw [List.map_map]
        exact List.map_congr_left fun s hs =>
          reread_eq hE hg hb' hop hkeep hclosed hopened hvf (.inl hs) (hren s hs)
      have hout2 : op.out2.map (b'.read fin') = op.out2.map (g.bind.read fin) := by
        cases h2 : op.out2 with
        | none => rfl
        | some t => rw [Option.map_some, Option.map_some, hout t (by simp [h2])]
      rw [hins, hout _ (by simp), hout2]
  rw [hu, hu2, hscratch, hvals]
  -- which inputs have an adjoint
  by_cases hacts : ∀ t ∈ op.ins, b'.active (f t) = g.bind.active t
  · have hmap : (op.ins.map f).map b'.active = op.ins.map g.bind.active := by
      rw [List.map_map]
      exact List.map_congr_left hacts
    rw [hmap]
  · obtain ⟨t, ht, hne⟩ : ∃ t ∈ op.ins, b'.active (f t) ≠ g.bind.active t := by
      by_contra hall
      exact hacts fun t ht => by
        by_contra hne
        exact hall ⟨t, ht, hne⟩
    have hst : Stale E n t := by
      by_contra hst
      rw [(hren t ht).eq_self hst] at hne
      exact hne (hb'.active n t op hop ht hst)
    obtain ⟨x, hx, rfl, hxo⟩ := hst
    have hsound := hE.sound x hx
    rw [(hren _ ht).eq_val hE hx rfl ⟨hxo.1, by have := hxo.2; have := hnend x hx; omega⟩] at hne
    obtain ⟨c, hc, hcout, hcop⟩ := hsound.copies
    have hval := hb'.active x.pos x.val c hc hcop.mem.1 (hE.val_not_stale hx le_rfl)
    have hdata : g.bind.active x.val = false := by
      rw [hval, hsound.writes.active] at hne
      simpa using hne
    refine hblind c (List.mem_of_getElem? hc) x.val hcop hdata op hmem (hcout ▸ ht) hr _ _ _ _ _ _
      _ _ _ _ (by simp) ?_ ?_
    · rw [List.map_map, List.getElem?_map, hj]
      exact congrArg some ha'
    · rw [List.getElem?_map, hj]
      exact congrArg some ha

/-- What one op that stays hands to one slot, under the name the slot has in the other graph. -/
lemma pair (h : AdjElided g E (n + 1) α β) (hE : Elisions g isRoot E) (hg : CopyGraph g)
    (hb' : ElidedBinding g E b') (hblind : g.DataCopiesBlind K) (hop : g.ops[n]? = some op)
    (hkeep : ∀ x, E x → x.pos ≠ n) (hren : ∀ s ∈ op.ins, RenamedTo E n s (f s))
    (hclosed : ∀ s, ¬ Stale E g.ops.length s → ∀ e < g.len s, fin' s e = fin s e)
    (hopened : ∀ x, E x → x.OpenAt g.ops.length → ∀ e < g.len x.dest, fin' x.val e = fin x.dest e)
    (hscratch : o'.scratch = o.scratch) {s s' e : ℕ} (hf : ∀ t ∈ op.ins, f t = s' ↔ t = s)
    (hout : op.opcode.isInplaceStore = true → (s' = op.out ↔ s = op.out))
    (hact : s ∈ op.ins → b'.active s' = g.bind.active s) (hs : β s' e = α s e) :
    backwardOp K b' fin' (op.mapIns f) o' β s' e = backwardOp K g.bind fin op o α s e := by
  have hmem := List.mem_of_getElem? hop
  have hcells : ∀ i, op.opcode.isStore = true →
      inComb (op.comb (g.bind.len (op.input 1))) i = true → i < g.bind.len op.out := by
    intro i hst hi
    have hc := hg.contract hop hst
    have hfit := hc.fits i hi
    by_cases hip : op.opcode.isInplaceStore = true
    · rw [(hc.inplace hip).1]
      exact hfit
    · rw [Bool.not_eq_true] at hip
      rw [Graph.bind_len, (hc.copying hip).2.2]
      exact hfit
  refine backwardOp_mapIns_pair (hg.inBounds hop) (fun t ht => ?_) (by rw [hb'.len]; rfl) hcells
    (fun hi => ?_) (fun c hc => h.out_eq hE hop hkeep (by simp) c hc) hf hout hact
    (fun hr hsin ha j hj => ?_) hs
  · rw [hb'.len]
    exact (hren t ht).len_eq hE
  · rw [Graph.bind_len, (hg.loads op hmem hi).2.2.1]
    exact Nat.one_pos
  · have hfs := (hf s hsin).2 rfl
    exact h.kernel_eq hE hg hb' hblind hop hkeep hren hr hclosed hopened hscratch hj ha
      (by rw [hfs, hact hsin, ha])

/-- Before an op that stays. -/
lemma step_keep (h : AdjElided g E (n + 1) α β) (hE : Elisions g isRoot E) (hg : CopyGraph g)
    (hb' : ElidedBinding g E b') (hblind : g.DataCopiesBlind K) (hop : g.ops[n]? = some op)
    (hkeep : ∀ x, E x → x.pos ≠ n) (hren : ∀ s ∈ op.ins, RenamedTo E n s (f s))
    (hclosed : ∀ s, ¬ Stale E g.ops.length s → ∀ e < g.len s, fin' s e = fin s e)
    (hopened : ∀ x, E x → x.OpenAt g.ops.length → ∀ e < g.len x.dest, fin' x.val e = fin x.dest e)
    (hscratch : o'.scratch = o.scratch) :
    AdjElided g E n (backwardOp K g.bind fin op o α)
      (backwardOp K b' fin' (op.mapIns f) o' β) := by
  have hpair := fun {s s' e : ℕ} => @pair U V S W _ g isRoot E n α β op K fin o f b' fin' o' h hE hg
    hb' hblind hop hkeep hren hclosed hopened hscratch s s' e
  -- no op but the copy reads a source, and none writes it from there on
  have hval : ∀ x, E x → x.pos < n → x.val ∉ op.ins ∧ x.val ∉ op.outs := by
    intro x hx hxn
    refine ⟨fun hs => hkeep x hx ((hE.sound x hx).reader n op hop hs).symm, fun hs => ?_⟩
    have := (hE.sound x hx).writer n ⟨op, hop, hs⟩
    omega
  have hvalNew : ∀ x, E x → x.pos < n → ∀ t ∈ op.ins, f t = x.val → x.Spans n ∧ x.dest = t := by
    intro x hx hxn t ht hft
    rcases hren t ht with ⟨y, hy, hsp, hd, hv⟩ | ⟨hself, -⟩
    · obtain rfl := hE.val_unique hy hx (hv.trans hft)
      exact ⟨hsp, hd⟩
    · have htx : t = x.val := hself.symm.trans hft
      exact absurd (htx ▸ ht) (hval x hx hxn).1
  -- the ops read no stale slot, unless it is the base of the store that ends its window
  have hdestNew : ∀ x, E x → x.OpenAt n → n ≠ x.next → x.dest ∉ (op.mapIns f).ins := by
    intro x hx hxo hne hmem
    obtain ⟨t, ht, hft⟩ := List.mem_map.1 hmem
    rcases hren t ht with ⟨y, hy, hsp, hd, hv⟩ | ⟨hself, hno⟩
    · exact hE.dest_not_lent hx hxo ⟨y, hy, hv.trans hft, hsp.1, hsp.2.le⟩
    · exact hno x hx ⟨hxo.1, by have := hxo.2; omega⟩ (hft.symm.trans hself)
  have hdestOut : ∀ x, E x → x.OpenAt n → n ≠ x.next → x.dest ∉ op.outs := fun x hx hxo hne hs =>
    hne (hE.next_of_writes hx hxo ⟨op, hop, hs⟩)
  have hcover : ∀ x, E x → n = x.next → op.opcode.isInplaceStore = true ∧ op.out = x.dest ∧
      g.coversDestination op = true := by
    intro x hx hn
    obtain ⟨hoc, hout, hcov⟩ := (hE.sound x hx).covered op (hn ▸ hop)
    exact ⟨Opcode.isInplaceStore_iff.2 (hoc.elim (fun h => .inr (.inl h)) fun h => .inr (.inr h)),
      hout, hcov⟩
  have hlenf : ∀ s ∈ op.ins, g.len (f s) = g.len s := fun s hs => (hren s hs).len_eq hE
  refine ⟨fun s hs hl hrel e he => ?_, fun x hx hxo e he => ?_, fun x hx hxo ha e he => ?_,
    fun x hx hxn e he => ?_⟩
  · have hs' := not_stale_succ hs fun x hx hxn => absurd hxn (hkeep x hx)
    have hl' := not_lent_succ hl fun x hx hxn => absurd hxn (hkeep x hx)
    refine hpair (fun t ht => ⟨fun hft => ?_, ?_⟩) (fun _ => Iff.rfl)
      (fun hmem => hb'.active n s op hop hmem hs)
      (h.closed s hs' hl' (hrel.imp id (Exists.imp fun j hj => ⟨Nat.lt_succ_of_lt hj.1, hj.2⟩)) e he)
    · rcases hren t ht with ⟨y, hy, hsp, -, hv⟩ | ⟨hself, -⟩
      · exact absurd ⟨y, hy, hv.trans hft, hsp.1, hsp.2.le⟩ hl
      · exact hself.symm.trans hft
    · rintro rfl
      exact (hren t ht).eq_self hs
  · by_cases hn : n = x.next
    · obtain ⟨hip, hout, hcov⟩ := hcover x hx hn
      rw [← hout] at he ⊢
      exact @backwardOp_covering_out U V S W _ K b' fin' (op.mapIns f) o' β g hip
        (by rw [Graph.coversDestination_mapIns hlenf, hcov]) hb'.len e he
    · rw [backwardOp_of_notMem (hdestNew x hx hxo hn) fun _ heq =>
        hdestOut x hx hxo hn (by simp [heq])]
      exact h.dest x hx ((Elision.openAt_succ_iff (hkeep x hx)).2 ⟨hxo, hn⟩) e he
  · by_cases hn : n = x.next
    · obtain ⟨hip, hout, hcov⟩ := hcover x hx hn
      have hnotin : x.val ∉ (op.mapIns f).ins := fun hmem => by
        obtain ⟨t, ht, hft⟩ := List.mem_map.1 hmem
        have := (hvalNew x hx hxo.1 t ht hft).1.2
        omega
      rw [backwardOp_of_notMem hnotin fun _ heq => (hval x hx hxo.1).2 (by simp [heq]),
        h.val_next hE hx hn ha e ((hE.sound x hx).len_eq ▸ he), ← hout,
        backwardOp_covering_out hip hcov rfl (hout ▸ he)]
    · have hxo' := (Elision.openAt_succ_iff (hkeep x hx)).2 ⟨hxo, hn⟩
      have hsp : x.Spans n := ⟨hxo.1, by have := hxo.2; omega⟩
      refine hpair (fun t ht => ⟨fun hft => ((hvalNew x hx hxo.1 t ht hft).2).symm, ?_⟩)
        (fun _ => ⟨fun heq => ?_, fun heq => ?_⟩) (fun hmem => ?_) (h.val x hx hxo' ha e he)
      · rintro rfl
        exact (hren _ ht).eq_val hE hx rfl hsp
      · exact absurd (by simp [heq]) (hval x hx hxo.1).2
      · exact absurd (by simp [heq]) (hdestOut x hx hxo hn)
      · obtain ⟨c, hc, -, hcop⟩ := (hE.sound x hx).copies
        rw [hb'.active x.pos x.val c hc hcop.mem.1 (hE.val_not_stale hx le_rfl), ha,
          (hE.sound x hx).writes.active]
  · rw [backwardOp_of_notMem (hval x hx hxn).1 fun _ heq => (hval x hx hxn).2 (by simp [heq])]
    exact h.source x hx (by omega) e he

end Keep

end AdjElided

end Stanli
