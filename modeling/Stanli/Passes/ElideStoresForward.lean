import Stanli.Graph.Adjoint
import Stanli.Passes.ElideStores

/-!
# The forward sweep without full copies

Between a copy that goes and the next write of its destination, the value is in the source's buffer
and not in the destination's.  Everywhere else the two sweeps agree, since the next write covers the
destination.
-/

namespace Stanli

variable {U V S W : Type*}

/-! ## Kernels -/

/-- The registry has `slice_fwd` and `slice_bwd` for `OP_SLICE`: the output is the part of the input
from `start` on, and its adjoint goes there. -/
structure Kernels.Slices [Zero V] (K : Kernels U V S W) : Prop where
  forward : ∀ (start n n2 : ℕ) (xs : List V), start + n ≤ xs.length →
    ∃ r, K.forward ⟨.slice, 0, [(start : ℤ)], none⟩ n n2 [xs] = .ok r ∧
      ∀ e < n, r.out e = xs.getD (start + e) 0
  backward : ∀ (start : ℕ) (s : Option S) (ins : List (List V)) (out out2 : List V)
    (act : List Bool) (u : List V) (u2 : V) (e : ℕ),
    K.backward ⟨.slice, 0, [(start : ℤ)], none⟩ s ins out out2 act u u2 0 e =
      if start ≤ e then u.getD (e - start) 0 else 0

/-- What the call adds to an input that has an adjoint does not depend on which others have one.
The selection functions (`fmax` and others) are not so: at a tie they prefer the argument that has
one. -/
def Kernels.ActivityBlind (K : Kernels U V S W) (c : KernelCall U) : Prop :=
  ∀ (s : Option S) (ins : List (List V)) (out out2 : List V) (act act' : List Bool) (u : List V)
    (u2 : V) (j e : ℕ), act.length = act'.length → act[j]? = some true → act'[j]? = some true →
    K.backward c s ins out out2 act u u2 j e = K.backward c s ins out out2 act' u u2 j e

/-! ## Graphs -/

/-- The graphs whose buffers are reused with care: a copying store writes a fresh slot, and an op
whose backward rereads its buffers has them left alone. -/
structure CopyGraph (g : Graph U) : Prop extends StoreGraph g where
  fresh : g.ops.Pairwise fun o o' => o'.opcode.isCopyingStore = true → o'.out ∉ o.outs
  stable : g.ops.Pairwise fun o o' => o.opcode.backwardIgnoresValues = false →
    ∀ s ∈ o.ins ++ o.outs, s ∉ o'.outs
  out2_len : ∀ op ∈ g.ops, ∀ o ∈ op.out2, 0 < g.len o

/-- Where a copy's source has no adjoint, the ops that read its destination do not look at which
inputs have one. -/
def Graph.DataCopiesBlind (g : Graph U) (K : Kernels U V S W) : Prop :=
  ∀ op ∈ g.ops, ∀ v, g.Copies op v → g.bind.active v = false →
    ∀ o ∈ g.ops, op.out ∈ o.ins → o.opcode.isRouted = false → K.ActivityBlind o.call

section Graphs

variable {g : Graph U} {i k s : ℕ} {op : Op U}

/-- A copying store is the first to write its output. -/
lemma CopyGraph.le_of_writes (hg : CopyGraph g) (hop : g.ops[i]? = some op)
    (hc : op.opcode.isCopyingStore = true) (hk : Writes g.ops op.out k) : i ≤ k := by
  by_contra hlt
  obtain ⟨o, ho, hs⟩ := hk
  obtain ⟨h1, rfl⟩ := List.getElem?_eq_some_iff.1 ho
  obtain ⟨h2, rfl⟩ := List.getElem?_eq_some_iff.1 hop
  exact List.pairwise_iff_getElem.1 hg.fresh k i h1 h2 (by omega) hc hs

/-- What a backward rereads is not written afterwards. -/
lemma CopyGraph.writes_le (hg : CopyGraph g) (hop : g.ops[i]? = some op)
    (hv : op.opcode.backwardIgnoresValues = false) (hs : s ∈ op.ins ∨ s ∈ op.outs)
    (hk : Writes g.ops s k) : k ≤ i := by
  by_contra hlt
  obtain ⟨o, ho, hso⟩ := hk
  obtain ⟨h1, rfl⟩ := List.getElem?_eq_some_iff.1 ho
  obtain ⟨h2, rfl⟩ := List.getElem?_eq_some_iff.1 hop
  exact List.pairwise_iff_getElem.1 hg.stable i k h2 h1 (by omega) hv s (List.mem_append.2 hs) hso

/-- Ops stay inside their buffers. -/
lemma StoreGraph.inBounds (hg : StoreGraph g) (hop : g.ops[i]? = some op) :
    op.InBounds g.bind.len := by
  by_cases hst : op.opcode.isStore = true
  · exact (hg.contract hop hst).inBounds hst
  by_cases hi : op.opcode = .index
  · obtain ⟨hins, h2, -, h0, hlt⟩ := hg.loads op (List.mem_of_getElem? hop) hi
    refine Op.inBounds_of_load hi ⟨h2, Op.input_mem (by rw [hins]; simp), ?_⟩
    rw [Graph.bind_len]
    omega
  · refine Op.inBounds_of_kernel ?_
    rw [Bool.not_eq_true, Opcode.isStore, Bool.or_eq_false_iff] at hst
    simp [Opcode.isRouted, hi, hst.1, hst.2]

/-- A copy writes one slot. -/
lemma StoreGraph.copies_outs (hg : StoreGraph g) (hop : g.ops[i]? = some op) {v : ℕ}
    (hc : g.Copies op v) : op.outs = [op.out] := by
  have h2 : op.out2 = none := by
    rcases hc with ⟨h, -⟩ | ⟨h, -⟩
    · exact (Graph.identitySlice_facts h).2.2.1
    · exact (hg.contract hop (Graph.covers_isStore h)).out2_eq
  rw [Op.outs, h2]
  rfl

end Graphs

/-! ## Windows -/

section Windows

variable {g : Graph U} {isRoot : ℕ → Bool} {E : Elision → Prop} {n s : ℕ} {x y : Elision}

/-- Before op `n`, the copy has gone and its destination has not been written since. -/
def Elision.OpenAt (x : Elision) (n : ℕ) : Prop := x.pos < n ∧ n ≤ x.next

/-- The value of slot `s` is in the source of a copy. -/
def Stale (E : Elision → Prop) (n s : ℕ) : Prop := ∃ x, E x ∧ x.dest = s ∧ x.OpenAt n

/-- Slot `s` is the source of a copy that is read in place of the destination. -/
def Lent (E : Elision → Prop) (n s : ℕ) : Prop := ∃ x, E x ∧ x.val = s ∧ x.OpenAt n

/-- Two windows of one slot do not meet. -/
lemma Elisions.open_unique (hE : Elisions g isRoot E) (hx : E x) (hy : E y) (hd : x.dest = y.dest)
    (hxo : x.OpenAt n) (hyo : y.OpenAt n) : x = y := by
  have hlt : ∀ {x y : Elision}, E x → E y → x.dest = y.dest → x.OpenAt n → y.OpenAt n →
      ¬ x.pos < y.pos := by
    intro x y hx hy hd hxo hyo hlt
    have := (hE.sound x hx).unwritten y.pos (hd ▸ (hE.sound y hy).writes) hlt
    have := hyo.1
    have := hxo.2
    omega
  have := hlt hx hy hd hxo hyo
  have := hlt hy hx hd.symm hyo hxo
  exact hE.unique x y hx hy (by omega)

/-- A slot is the source of one copy. -/
lemma Elisions.val_unique (hE : Elisions g isRoot E) (hx : E x) (hy : E y) (hv : x.val = y.val) :
    x = y := by
  obtain ⟨op, hop, hmem⟩ := (hE.sound y hy).reads
  exact hE.unique x y hx hy ((hE.sound x hx).reader y.pos op hop (hv ▸ hmem)).symm

/-- From the copy on, its source is not the destination of another one that has gone. -/
lemma Elisions.val_not_stale (hE : Elisions g isRoot E) (hx : E x) (hn : x.pos ≤ n) :
    ¬ Stale E n x.val := by
  rintro ⟨y, hy, hd, hyo⟩
  have hpos := (hE.sound x hx).writer y.pos (hd ▸ (hE.sound y hy).writes)
  rcases Nat.lt_or_ge x.pos y.next with hlt | hge
  · exact hE.unrenamed x y hx hy ⟨hpos, hlt⟩ hd
  · -- then the copy is what writes its own source
    have hpn : x.pos = y.next := by
      have := hyo.2
      omega
    obtain ⟨op, hop, -⟩ := (hE.sound x hx).copies
    obtain ⟨-, hout, -⟩ := (hE.sound y hy).covered op (hpn ▸ hop)
    have := (hE.sound x hx).writer x.pos ⟨op, hop, by simp [hout, hd]⟩
    omega

/-- A stale slot is no source. -/
lemma Elisions.dest_not_lent (hE : Elisions g isRoot E) (hx : E x) (hxo : x.OpenAt n) :
    ¬ Lent E n x.dest := by
  rintro ⟨y, hy, hv, hyo⟩
  exact hE.val_not_stale hy hyo.1.le ⟨x, hx, hv.symm, hxo⟩

/-- Roots are not stale. -/
lemma Elisions.root_not_stale (hE : Elisions g isRoot E) (hs : isRoot s = true) : ¬ Stale E n s := by
  rintro ⟨x, hx, rfl, -⟩
  rw [(hE.sound x hx).roots.1] at hs
  cases hs

/-- At the op that stays, a window is open on one side when it is on the other, unless the op ends
it. -/
lemma Elision.openAt_succ_iff (hn : x.pos ≠ n) : x.OpenAt (n + 1) ↔ x.OpenAt n ∧ n ≠ x.next := by
  unfold Elision.OpenAt
  omega

/-- An op that writes the destination ends the window. -/
lemma Elisions.next_of_writes (hE : Elisions g isRoot E) (hx : E x) (hxo : x.OpenAt n)
    (hw : Writes g.ops x.dest n) : n = x.next :=
  Nat.le_antisymm hxo.2 ((hE.sound x hx).unwritten n hw hxo.1)

/-- The op that ends a window writes the destination. -/
lemma Elisions.writes_next (hE : Elisions g isRoot E) (hx : E x) {op : Op U}
    (hop : g.ops[n]? = some op) (hn : n = x.next) : Writes g.ops x.dest n := by
  obtain ⟨-, hout, -⟩ := (hE.sound x hx).covered op (hn ▸ hop)
  exact ⟨op, hop, by simp [hout]⟩

/-- Inside a window the destination goes by the name of the source. -/
lemma RenamedTo.eq_val (hE : Elisions g isRoot E) {t : ℕ} (h : RenamedTo E n s t) (hx : E x)
    (hd : x.dest = s) (hsp : x.Spans n) : t = x.val := by
  rcases h with ⟨y, hy, hysp, hyd, rfl⟩ | ⟨-, hno⟩
  · rw [hE.open_unique hy hx (hyd.trans hd.symm) ⟨hysp.1, hysp.2.le⟩ ⟨hsp.1, hsp.2.le⟩]
  · exact absurd hd (hno x hx hsp)

/-- A slot that is not stale keeps its name. -/
lemma RenamedTo.eq_self {t : ℕ} (h : RenamedTo E n s t) (hs : ¬ Stale E n s) : t = s := by
  rcases h with ⟨y, hy, hysp, hyd, -⟩ | ⟨hself, -⟩
  · exact absurd ⟨y, hy, hyd, hysp.1, hysp.2.le⟩ hs
  · exact hself

/-- At the end of its window the destination has its name back. -/
lemma RenamedTo.eq_self_next (hE : Elisions g isRoot E) {t : ℕ} (h : RenamedTo E n x.dest t)
    (hx : E x) (hn : n = x.next) : t = x.dest := by
  rcases h with ⟨y, hy, hysp, hyd, -⟩ | ⟨hself, -⟩
  · have hxo : x.OpenAt n := ⟨hn ▸ (hE.sound x hx).lt_next, hn.le⟩
    have := hE.open_unique hy hx hyd ⟨hysp.1, hysp.2.le⟩ hxo
    have := hysp.2
    subst y
    omega
  · exact hself

/-- Renaming keeps lengths. -/
lemma RenamedTo.len_eq (hE : Elisions g isRoot E) {t : ℕ} (h : RenamedTo E n s t) :
    g.len t = g.len s := by
  rcases h with ⟨y, hy, -, rfl, rfl⟩ | ⟨rfl, -⟩
  · exact (hE.sound y hy).len_eq
  · rfl

end Windows

/-! ## Forward -/

/-- A comb over a whole buffer covers it. -/
lemma inComb_full {n e : ℕ} (h : e < n) : inComb (0, 1, n) e = true :=
  inComb_iff.2 ⟨e, h, by simp⟩

/-- A comb over a whole buffer leaves the right-hand side. -/
lemma writeComb_full (rhs buf : ℕ → V) {n e : ℕ} (h : e < n) : writeComb 0 1 n rhs buf e = rhs e := by
  have := @writeComb_congr V (0, 1, n) rhs rhs buf rhs e (fun _ _ => rfl) (by simp [inComb_full h])
  refine this.trans ?_
  clear this h
  induction n with
  | zero => rfl
  | succ n ih =>
    rw [writeComb_succ]
    by_cases he : e = 0 + n * 1
    · rw [he, Function.update_self]
      congr 1
      omega
    · rw [Function.update_of_ne he]
      exact ih

section Forward

variable {K : Kernels U V S W} {b b' : Binding} {op : Op U} {f : ℕ → ℕ} {σ τ : SweepState V S W}

/-- What a covering store leaves in its output. -/
lemma Graph.covers_routed {g : Graph U} (h : g.coversDestination op = true) (hlen : b.len = g.len)
    (hhome : b.home = id) (m : Arena V) :
    ∃ buf, op.routed b m = some buf ∧ ∀ e < g.len op.out, buf e = m (op.input 1) e := by
  obtain ⟨-, -, -, hl⟩ := Graph.covers_facts h
  have hst := Graph.covers_isStore h
  by_cases hip : op.opcode.isInplaceStore = true
  · refine ⟨_, Op.routed_inplace hip b m, fun e he => ?_⟩
    rw [Graph.covers_comb h, hhome, hlen]
    exact writeComb_full _ _ (hl ▸ he)
  · have hcp : op.opcode.isCopyingStore = true := by
      rw [Opcode.isStore, Bool.or_eq_true] at hst
      exact hst.resolve_right hip
    refine ⟨_, Op.routed_copying hcp b m, fun e he => ?_⟩
    rw [Graph.covers_comb h, hhome, hlen]
    exact writeComb_full _ _ (hl ▸ he)

/-- A copy leaves its source in its output, and nothing else. -/
lemma forwardOp_copy [Zero V] (hK : K.Slices) {g : Graph U} (hlen : b.len = g.len)
    (hhome : b.home = id) (hp : op.primalSource = none) (hout2 : op.out2 = none) {v : ℕ}
    (hc : g.Copies op v) : ∃ σ' o, forwardOp K b op σ = .ok (σ', o) ∧ σ'.world = σ.world ∧
      (∀ s, s ≠ op.out → σ'.mem s = σ.mem s) ∧
      ∀ e < g.len op.out, σ'.mem op.out e = σ.mem v e := by
  have hhomeOut : b.home op.out = op.out := congrFun hhome _
  rcases hc with ⟨hid, rfl⟩ | ⟨hcov, rfl⟩
  · obtain ⟨hoc, hins, -, hcall, hl, -⟩ := Graph.identitySlice_facts hid
    have hr : op.opcode.isRouted = false := by rw [hoc]; rfl
    have heff : K.hasEffect ⟨.slice, 0, [0], none⟩ = false := by
      simp [Kernels.hasEffect, Opcode.isEffectful]
    obtain ⟨r, hr', hcells⟩ := hK.forward 0 (b.len op.out) ((op.out2.map b.len).getD 0)
      (b.read σ.mem (op.input 0)) (by simp [Binding.read, hlen, hl])
    have hkcall : K.call b op (op.ins.map (b.read σ.mem)) σ.world = .ok (r, σ.world) := by
      rw [hins, List.map_singleton, Kernels.call, hcall, heff]
      simp only [Bool.false_eq_true, if_false]
      exact congrArg _ hr'
    rw [forwardOp_kernel hp hr, hkcall]
    refine ⟨_, _, rfl, rfl, fun s hs => ?_, fun e he => ?_⟩
    · simp [Op.store, hout2, hhomeOut, Function.update_of_ne hs]
    · have hcell := hcells e (by rwa [hlen])
      rw [Nat.zero_add] at hcell
      simp only [Op.store, hout2, hhomeOut, Function.update_self, hcell]
      have he' : e < b.len (op.input 0) := by rwa [hlen, hl]
      simp [Binding.read, he', hhome]
  · obtain ⟨buf, hbuf, hcells⟩ := Graph.covers_routed hcov hlen hhome σ.mem
    refine ⟨_, _, forwardOp_routed hp hbuf, rfl, fun s hs => ?_, fun e he => ?_⟩
    · rw [hhomeOut]
      exact Function.update_of_ne hs _ _
    · rw [hhomeOut]
      simp only [Function.update_self]
      exact hcells e he

/-- A store in place that covers its base reads nothing of it: it is the same step whatever the base
holds. -/
lemma forwardOp_covering_pair {g : Graph U} (hlen : b.len = g.len) (hhome : b.home = id)
    (hlen' : b'.len = g.len) (hhome' : b'.home = id) (hp : op.primalSource = none)
    (hc : op.StoreContract g.len) (hip : op.opcode.isInplaceStore = true)
    (hcov : g.coversDestination op = true) (hf : ∀ s ∈ op.ins, g.len (f s) = g.len s)
    (hbase : f (op.input 0) = op.input 0)
    (hread : ∀ e < g.len (op.input 1), τ.mem (f (op.input 1)) e = σ.mem (op.input 1) e)
    (hworld : τ.world = σ.world) :
    ∃ σ' o τ' o', forwardOp K b op σ = .ok (σ', o) ∧
      forwardOp K b' (op.mapIns f) τ = .ok (τ', o') ∧ StepPair op g.len σ τ σ' τ' o o' := by
  have hl : 1 < op.ins.length := by simp [hc.ins_eq]
  obtain ⟨-, -, -, hlv⟩ := Graph.covers_facts hcov
  have hcov' : g.coversDestination (op.mapIns f) = true := by
    rw [Graph.coversDestination_mapIns hf]
    exact hcov
  obtain ⟨buf, hbuf, hcell⟩ := Graph.covers_routed hcov hlen hhome σ.mem
  obtain ⟨buf', hbuf', hcell'⟩ := Graph.covers_routed hcov' hlen' hhome' τ.mem
  refine ⟨_, _, _, _, forwardOp_routed hp hbuf, forwardOp_routed (by exact hp) hbuf', ?_, rfl,
    hworld, fun s hs => ?_, fun s hs e he => ?_⟩
  · -- the comb covers the base, so none of it is read
    have hnone : ∀ k, g.len k = g.len op.out → ∀ m : ℕ → V,
        ((List.range (g.len (op.input 0))).filter fun i => !inComb (0, 1, g.len k) i).map m =
          [] := by
      intro k hk m
      rw [List.map_eq_nil_iff, List.filter_eq_nil_iff]
      intro i hi
      have hlt : i < g.len k := by
        rw [hk, (hc.inplace hip).1]
        exact List.mem_range.1 hi
      simp [inComb_full hlt]
    have hin0 : (op.mapIns f).input 0 = op.input 0 := by
      rw [Op.mapIns_input (by omega), hbase]
    have hin1 : (op.mapIns f).input 1 = f (op.input 1) := Op.mapIns_input hl
    rw [Op.shown_inplace hip, Op.shown_inplace (by exact hip), Graph.covers_comb hcov,
      Graph.covers_comb hcov', hin0, hin1, hlen, hlen', hnone _ hlv, hnone _ (by
        rw [hf _ (Op.input_mem hl), hlv]), Op.mapIns_ins, hc.ins_eq]
    congr 1
    simp only [List.map_cons, List.tail_cons, List.map_nil]
    congr 1
    have hlenv : b'.len (f (op.input 1)) = b.len (op.input 1) := by
      rw [hlen, hlen', hf _ (Op.input_mem hl)]
    rw [Binding.read_eq_read hlenv fun e he => ?_]
    rw [hhome, hhome']
    exact hread e (by rwa [hlenv, hlen] at he)
  · rw [hhome, hhome']
    have hne : s ≠ op.out := fun h => hs (by simp [h])
    exact ⟨Function.update_of_ne hne _ _, Function.update_of_ne hne _ _⟩
  · obtain rfl : s = op.out := by simpa [hc.out2_eq] using hs
    rw [hhome, hhome']
    simp only [id_eq, Op.mapIns_out, Function.update_self]
    rw [hcell e he, hcell' e he, Op.mapIns_input hl]
    exact hread e (by rwa [hlv])

end Forward

/-- The two sweeps before op `n`: a stale slot has its value in the source of its copy. -/
structure ElideRelated (g : Graph U) (E : Elision → Prop) (n : ℕ) (σ τ : SweepState V S W) :
    Prop where
  world : τ.world = σ.world
  closed : ∀ s, ¬ Stale E n s → ∀ e < g.len s, τ.mem s e = σ.mem s e
  opened : ∀ x, E x → x.OpenAt n → ∀ e < g.len x.dest, τ.mem x.val e = σ.mem x.dest e

namespace ElideRelated

variable {g : Graph U} {isRoot : ℕ → Bool} {E : Elision → Prop} {n : ℕ}
  {σ τ σ' τ' : SweepState V S W} {op : Op U} {f : ℕ → ℕ} {K : Kernels U V S W} {b' : Binding}

/-- What op `n` reads, unless it is the base of the store that ends a window. -/
lemma read (h : ElideRelated g E n σ τ) (hE : Elisions g isRoot E) {s t : ℕ}
    (ht : RenamedTo E n s t) (hs : ∀ x, E x → x.dest = s → n ≠ x.next) {e : ℕ} (he : e < g.len s) :
    τ.mem t e = σ.mem s e := by
  by_cases hst : Stale E n s
  · obtain ⟨x, hx, rfl, hxo⟩ := hst
    have := hs x hx rfl
    have hsp : x.Spans n := ⟨hxo.1, by have := hxo.2; omega⟩
    rw [ht.eq_val hE hx rfl hsp]
    exact h.opened x hx hxo e he
  · rw [ht.eq_self hst]
    exact h.closed s hst e he

/-- Past an op that stays. -/
lemma next_keep (h : ElideRelated g E n σ τ) (hE : Elisions g isRoot E)
    (hop : g.ops[n]? = some op) (hkeep : ∀ x, E x → x.pos ≠ n) {o o' : LogEntry V S}
    (hpair : StepPair op g.len σ τ σ' τ' o o') : ElideRelated g E (n + 1) σ' τ' := by
  have hw : ∀ {s}, s ∈ op.outs → Writes g.ops s n := fun hs => ⟨op, hop, hs⟩
  refine ⟨hpair.world, fun s hs e he => ?_, fun x hx hxo e he => ?_⟩
  · by_cases hso : s ∈ op.outs
    · exact hpair.outs s hso e he
    · rw [(hpair.frame s hso).1, (hpair.frame s hso).2]
      refine h.closed s (fun hst => ?_) e he
      obtain ⟨x, hx, rfl, hxo⟩ := hst
      by_cases hn : n = x.next
      · obtain ⟨o, ho, hmem⟩ := hE.writes_next hx hop hn
        obtain rfl := Option.some.inj (hop.symm.trans ho)
        exact hso hmem
      · exact hs ⟨x, hx, rfl, (Elision.openAt_succ_iff (hkeep x hx)).2 ⟨hxo, hn⟩⟩
  · obtain ⟨hxo, hn⟩ := (Elision.openAt_succ_iff (hkeep x hx)).1 hxo
    have hd : x.dest ∉ op.outs := fun hs => hn (hE.next_of_writes hx hxo (hw hs))
    have hv : x.val ∉ op.outs := fun hs => by
      have := (hE.sound x hx).writer n (hw hs)
      have := hxo.1
      omega
    rw [(hpair.frame _ hd).1, (hpair.frame _ hv).2]
    exact h.opened x hx hxo e he

/-- An op that stays does the same in both sweeps. -/
lemma step_keep (h : ElideRelated g E n σ τ) (hE : Elisions g isRoot E) (hg : StoreGraph g)
    (hop : g.ops[n]? = some op) (hkeep : ∀ x, E x → x.pos ≠ n)
    (hren : ∀ s ∈ op.ins, RenamedTo E n s (f s)) (hlen' : b'.len = g.len) (hhome' : b'.home = id) :
    (∃ e, forwardOp K g.bind op σ = .error e ∧ forwardOp K b' (op.mapIns f) τ = .error e) ∨
    ∃ σ' o τ' o', forwardOp K g.bind op σ = .ok (σ', o) ∧
      forwardOp K b' (op.mapIns f) τ = .ok (τ', o') ∧
      (o'.inputs = o.inputs ∧ o'.scratch = o.scratch) ∧ ElideRelated g E (n + 1) σ' τ' := by
  have hmem := List.mem_of_getElem? hop
  have hp := hg.noPrimal op hmem
  have hhome := Graph.bind_home hg.noPrimal
  have hlenf : ∀ s ∈ op.ins, g.len (f s) = g.len s := fun s hs => (hren s hs).len_eq hE
  by_cases hend : ∃ x, E x ∧ n = x.next
  · -- the store that ends a window: its base is stale, and is not read
    obtain ⟨x, hx, hn⟩ := hend
    obtain ⟨hoc, hout, hcov⟩ := (hE.sound x hx).covered op (hn ▸ hop)
    have hip : op.opcode.isInplaceStore = true :=
      Opcode.isInplaceStore_iff.2 (hoc.elim (fun h => .inr (.inl h)) fun h => .inr (.inr h))
    have hc := hg.contract hop (Graph.covers_isStore hcov)
    obtain ⟨hbase, hrhs⟩ := hc.inplace hip
    have h0 : op.input 0 ∈ op.ins := Op.input_mem (by simp [hc.ins_eq])
    have h1 : op.input 1 ∈ op.ins := Op.input_mem (by simp [hc.ins_eq])
    have hx0 : x.dest = op.input 0 := hout.symm.trans hbase
    have hread : ∀ e < g.len (op.input 1), τ.mem (f (op.input 1)) e = σ.mem (op.input 1) e := by
      refine fun e he => h.read hE (hren _ h1) (fun y hy hyd hyn => ?_) he
      obtain ⟨-, houty, -⟩ := (hE.sound y hy).covered op (hyn ▸ hop)
      exact hrhs (hyd.symm.trans (houty.symm.trans hbase))
    obtain ⟨σ', o, τ', o', hσ, hτ, hpair⟩ := forwardOp_covering_pair (K := K) (b := g.bind) rfl
      hhome hlen' hhome' hp hc hip hcov hlenf
      (hx0 ▸ RenamedTo.eq_self_next hE (hx0 ▸ hren _ h0) hx hn) hread h.world
    exact .inr ⟨σ', o, τ', o', hσ, hτ, ⟨hpair.inputs, hpair.scratch⟩,
      h.next_keep hE hop hkeep hpair⟩
  · have hread : ∀ s ∈ op.ins, ∀ e < g.bind.len s, τ.mem (b'.home (f s)) e = σ.mem s e := by
      intro s hs e he
      rw [hhome']
      exact h.read hE (hren s hs) (fun x hx _ hn => hend ⟨x, hx, hn⟩) he
    have hclosed : ¬ Stale E n op.out := by
      rintro ⟨x, hx, hd, hxo⟩
      exact hend ⟨x, hx, hE.next_of_writes hx hxo ⟨op, hop, by simp [hd]⟩⟩
    rcases forwardOp_mapIns_pair (K := K) hp (hg.inBounds hop) hhome (fun s _ => congrFun hhome' s : ∀ s ∈ op.outs, b'.home s = s)
      (fun s hs => by rw [hlen', hlenf s hs]; rfl) (fun s _ => by rw [hlen']; rfl) hread
      (fun _ e he _ => h.closed _ hclosed e he) h.world with herr | ⟨σ', o, τ', o', hσ, hτ, hpair⟩
    · exact .inl herr
    · exact .inr ⟨σ', o, τ', o', hσ, hτ, ⟨hpair.inputs, hpair.scratch⟩,
        h.next_keep hE hop hkeep hpair⟩

/-- A copy that goes leaves its source where its destination would be. -/
lemma step_drop [Zero V] (h : ElideRelated g E n σ τ) (hE : Elisions g isRoot E)
    (hg : StoreGraph g) (hK : K.Slices) (hop : g.ops[n]? = some op) {x : Elision} (hx : E x)
    (hn : x.pos = n) :
    ∃ σ' o, forwardOp K g.bind op σ = .ok (σ', o) ∧ ElideRelated g E (n + 1) σ' τ := by
  obtain ⟨o, ho, hout, hc⟩ := (hE.sound x hx).copies
  obtain rfl := Option.some.inj ((hn ▸ ho).symm.trans hop)
  have houts := hg.copies_outs hop hc
  have hout2 : o.out2 = none := by
    cases h2 : o.out2 with
    | none => rfl
    | some t => simp [Op.outs, h2] at houts
  obtain ⟨σ', l, hσ, hworld, hframe, hcell⟩ := forwardOp_copy (σ := σ) hK rfl
    (Graph.bind_home hg.noPrimal) (hg.noPrimal o (List.mem_of_getElem? hop)) hout2 hc
  have hval : ∀ e < g.len x.val, τ.mem x.val e = σ.mem x.val e :=
    h.closed x.val (hE.val_not_stale hx hn.le)
  have hxo : x.OpenAt (n + 1) := ⟨by omega, by have := (hE.sound x hx).lt_next; omega⟩
  refine ⟨σ', l, hσ, h.world.trans hworld.symm, fun s hs e he => ?_, fun y hy hyo e he => ?_⟩
  · have hso : s ≠ o.out := fun heq => hs ⟨x, hx, hout.symm.trans heq.symm, hxo⟩
    rw [hframe s hso]
    refine h.closed s (fun hst => ?_) e he
    obtain ⟨y, hy, rfl, hyo⟩ := hst
    have hyn : y.pos ≠ n := by
      have := hyo.1
      omega
    by_cases hend : n = y.next
    · obtain ⟨-, hyout, -⟩ := (hE.sound y hy).covered o (hend ▸ hop)
      exact hso hyout.symm
    · exact hs ⟨y, hy, rfl, (Elision.openAt_succ_iff hyn).2 ⟨hyo, hend⟩⟩
  · by_cases hyn : y.pos = n
    · obtain rfl := hE.unique y x hy hx (hyn.trans hn.symm)
      rw [hval e ((hE.sound y hy).len_eq ▸ he), ← hout, hcell e (hout ▸ he)]
    · obtain ⟨hyo, hend⟩ := (Elision.openAt_succ_iff hyn).1 hyo
      have hyd : y.dest ≠ o.out := fun heq =>
        hend (hE.next_of_writes hy hyo ⟨o, hop, by simp [heq]⟩)
      rw [hframe _ hyd]
      exact h.opened y hy hyo e he

end ElideRelated

end Stanli
