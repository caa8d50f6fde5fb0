import Stanli.Passes.Inplace
import Stanli.Passes.StoreForwarding

/-!
# Copies that cover their destination

`elide_full_extent_stores` of `inplace.cpp`.  A slice store that overwrites its whole destination, or
a slice that reads its whole source, is a copy.  Where the source has no other reader, the ops that
read the destination before its next write may read the source instead, and the copy goes.

The lists of readers and writers are computed once, from the graph the pass is given, while the
inputs of the ops change as copies go.  `Elisions` says what the copies that go have in common in
terms of the given graph only; the scan keeps it although its lists are stale.
-/

namespace Stanli

variable {U : Type*}

/-! ## The pass -/

namespace Graph

/-- `readers[s]`: the positions of the ops that read a slot, once for each operand. -/
def readers (g : Graph U) (s : ℕ) : List ℕ := occurrences (fun op => op.ins.count s) g.ops

/-- `writers[s]`. -/
def writers (g : Graph U) (s : ℕ) : List ℕ := occurrences (fun op => op.outs.count s) g.ops

/-- `covers_destination`: a slice store that writes every element of its output. -/
def coversDestination (g : Graph U) (op : Op U) : Bool :=
  let strided := op.opcode = .setSliceStrided ∨ op.opcode = .setSliceStridedInplace
  decide (op.opcode = .setSlice ∨ op.opcode = .setSliceInplace ∨ strided) &&
    decide (op.ins.length = 2 ∧ 1 ≤ op.idata.length ∧ op.imm 0 = 0 ∧ (strided → op.imm 1 = 1) ∧
      g.len (op.input 1) = g.len op.out)

/-- `identity_slice`: a slice that reads every element of its input into a slot of its own. -/
def identitySlice (g : Graph U) (op : Op U) : Bool :=
  decide (op.opcode = .slice ∧ op.ins.length = 1 ∧ op.out2 = none ∧ op.variant = 0 ∧
    op.dynLengths = 0 ∧ op.idata.length = 1 ∧ op.imm 0 = 0 ∧ g.len (op.input 0) = g.len op.out ∧
      (g.writers op.out).length = 1) &&
    op.udata.isNone && op.primalSource.isNone

/-- The first write of a slot after op `i`, or the end. -/
def nextWrite (g : Graph U) (s i : ℕ) : ℕ :=
  ((g.writers s).find? fun w => decide (i < w)).getD g.ops.length

end Graph

/-- A copy: its position, the slots it copies between, and where its destination is written next. -/
structure Elision where
  pos : ℕ
  dest : ℕ
  val : ℕ
  next : ℕ
deriving DecidableEq, Repr

namespace Elision

/-- Read the source for the destination. -/
def rename (x : Elision) (s : ℕ) : ℕ := if s = x.dest then x.val else s

@[simp] lemma rename_dest (x : Elision) : x.rename x.dest = x.val := if_pos rfl

lemma rename_of_ne {x : Elision} {s : ℕ} (h : s ≠ x.dest) : x.rename s = s := if_neg h

/-- Op `k` comes after the copy and before the next write. -/
def Spans (x : Elision) (k : ℕ) : Prop := x.pos < k ∧ k < x.next

instance (x : Elision) (k : ℕ) : Decidable (x.Spans k) := inferInstanceAs (Decidable (_ ∧ _))

/-- `window`: the ops that read the destination before its next write. -/
def window (g : Graph U) (x : Elision) : List ℕ := (g.readers x.dest).filter fun k => x.Spans k

end Elision

/-- The opcodes whose payload names slots of the graph. -/
def Opcode.namesSlots (oc : Opcode) : Bool := decide (oc ∈ [island, loop, regionMap, reduceSum])

/-- The copy that op `i` makes, if it is one. -/
def Graph.copyAt (g : Graph U) (op : Op U) (i : ℕ) : Elision where
  pos := i
  dest := op.out
  val := op.input (if g.identitySlice op then 0 else 1)
  next := g.nextWrite op.out i

/-- The state of the scan: the ops as renamed so far, and the ones that go. -/
structure ElideScan (U : Type*) where
  ops : List (Op U)
  drop : ℕ → Bool
  removed : ℕ

namespace ElideScan

/-- The destination's next write neither reads what the copy left there nor leaves its adjoints: it
is a slice store in place that covers it. -/
def endsWindow (g : Graph U) (st : ElideScan U) (x : Elision) : Bool :=
  (st.ops[x.next]?).all fun o =>
    decide (o.opcode = .setSliceInplace ∨ o.opcode = .setSliceStridedInplace) &&
      decide (o.out = x.dest) && g.coversDestination o

/-- The copy may go. -/
def admits (g : Graph U) (isRoot : ℕ → Bool) (st : ElideScan U) (op : Op U) (x : Elision) : Bool :=
  (g.identitySlice op || g.coversDestination op) && decide (x.dest ≠ x.val) &&
    !isRoot x.dest && !isRoot x.val && !g.isParam x.dest && !g.isParam x.val &&
    decide (g.readers x.val = [x.pos]) &&
    (g.writers x.val).getLast?.all (fun w => decide (w < x.pos)) && st.endsWindow g x &&
    (x.window g).all fun r => (st.ops[r]?).all fun o => !o.opcode.namesSlots

/-- Visit op `i`. -/
def step (g : Graph U) (isRoot : ℕ → Bool) (st : ElideScan U) (i : ℕ) : ElideScan U :=
  match st.ops[i]? with
  | none => st
  | some op =>
    let x := g.copyAt op i
    if st.admits g isRoot op x then
      { ops := (x.window g).foldl (fun ops r => ops.modify r (Op.mapIns x.rename)) st.ops
        drop := Function.update st.drop i true
        removed := st.removed + 1 }
    else st

/-- The state before op `n`. -/
def upTo (g : Graph U) (isRoot : ℕ → Bool) (n : ℕ) : ElideScan U :=
  (List.range n).foldl (step g isRoot) ⟨g.ops, fun _ => false, 0⟩

end ElideScan

/-- `elide_full_extent_stores`: the rewritten graph and the number of copies removed. -/
def elideFullExtentStores (g : Graph U) (roots : List ℕ) : Graph U × ℕ :=
  let st := ElideScan.upTo g (g.isRoot roots) g.ops.length
  (if 0 < st.removed then { g with ops := eraseDropped st.drop 0 st.ops } else g, st.removed)

/-! ## Readers, writers and copies -/

section Lists

variable {g : Graph U} {op : Op U} {f : ℕ → ℕ} {s i k v : ℕ}

lemma Graph.mem_readers : k ∈ g.readers s ↔ ∃ op, g.ops[k]? = some op ∧ s ∈ op.ins := by
  simp only [Graph.readers, mem_occurrences, List.count_pos_iff]

lemma Graph.mem_writers : k ∈ g.writers s ↔ Writes g.ops s k := by
  simp only [Graph.writers, mem_occurrences, List.count_pos_iff, Writes]

lemma Writes.lt_length {ops : List (Op U)} (h : Writes ops s k) : k < ops.length := by
  obtain ⟨op, hop, -⟩ := h
  exact (List.getElem?_eq_some_iff.1 hop).1

/-- The next write comes after the op. -/
lemma Graph.lt_nextWrite (hi : i < g.ops.length) : i < g.nextWrite s i := by
  unfold Graph.nextWrite
  cases h : (g.writers s).find? fun w => decide (i < w) with
  | none => exact hi
  | some w => simpa using List.find?_some h

lemma Graph.nextWrite_le : g.nextWrite s i ≤ g.ops.length := by
  unfold Graph.nextWrite
  cases h : (g.writers s).find? fun w => decide (i < w) with
  | none => exact le_rfl
  | some w => exact (Graph.mem_writers.1 (List.mem_of_find?_eq_some h)).lt_length.le

/-- No write comes between. -/
lemma Graph.nextWrite_le_of_writes (h : Writes g.ops s k) (hik : i < k) : g.nextWrite s i ≤ k := by
  have hk : k ∈ g.writers s := Graph.mem_writers.2 h
  unfold Graph.nextWrite
  cases hf : (g.writers s).find? fun w => decide (i < w) with
  | none =>
    have := List.find?_eq_none.1 hf k hk
    simp [hik] at this
  | some w =>
    obtain ⟨-, as, bs, hl, has⟩ := List.find?_eq_some_iff_append.1 hf
    have hpair := occurrences_pairwise (fun op : Op U => op.outs.count s) g.ops
    change (g.writers s).Pairwise (· ≤ ·) at hpair
    rw [hl, List.pairwise_append] at hpair
    rw [hl, List.mem_append] at hk
    rcases hk with hk | hk
    · have := has k hk
      simp [hik] at this
    · rcases List.mem_cons.1 hk with rfl | hk
      · exact le_rfl
      · exact (List.pairwise_cons.1 hpair.2.1).1 k hk

/-- The last writer in the list is the last one. -/
lemma Graph.lt_of_getLast (h : ((g.writers s).getLast?.all fun w => decide (w < i)) = true)
    (hk : Writes g.ops s k) : k < i := by
  have hmem : k ∈ g.writers s := Graph.mem_writers.2 hk
  have hne : g.writers s ≠ [] := List.ne_nil_of_mem hmem
  rw [List.getLast?_eq_some_getLast hne] at h
  have hlast : (g.writers s).getLast hne < i := by simpa using h
  have hpair := occurrences_pairwise (fun op : Op U => op.outs.count s) g.ops
  change (g.writers s).Pairwise (· ≤ ·) at hpair
  rw [← List.dropLast_append_getLast hne, List.pairwise_append] at hpair
  rw [← List.dropLast_append_getLast hne, List.mem_append] at hmem
  rcases hmem with hmem | hmem
  · exact (hpair.2.2 k hmem _ (by simp)).trans_lt hlast
  · rwa [List.mem_singleton.1 hmem]

/-- The op copies slot `v` to its output. -/
def Graph.Copies (g : Graph U) (op : Op U) (v : ℕ) : Prop :=
  (g.identitySlice op = true ∧ op.input 0 = v) ∨ (g.coversDestination op = true ∧ op.input 1 = v)

/-- A slice store that covers its output. -/
lemma Graph.covers_facts (h : g.coversDestination op = true) :
    ((op.opcode = .setSlice ∨ op.opcode = .setSliceInplace) ∨
      op.opcode = .setSliceStrided ∨ op.opcode = .setSliceStridedInplace) ∧ op.ins.length = 2 ∧
    op.imm 0 = 0 ∧ g.len (op.input 1) = g.len op.out := by
  simp only [Graph.coversDestination, Bool.and_eq_true, decide_eq_true_eq] at h
  obtain ⟨hoc, h2, -, h0, -, hlen⟩ := h
  exact ⟨by tauto, h2, h0, hlen⟩

/-- The comb of a covering store is its whole output. -/
lemma Graph.covers_comb (h : g.coversDestination op = true) (n : ℕ) : op.comb n = (0, 1, n) := by
  obtain ⟨hoc, -, h0, -⟩ := Graph.covers_facts h
  simp only [Graph.coversDestination, Bool.and_eq_true, decide_eq_true_eq] at h
  unfold Op.comb
  rcases hoc with hoc | hoc
  · rw [if_neg (by rcases hoc with h | h <;> rw [h] <;> decide), if_pos hoc, h0]
    rfl
  · rw [if_neg (by rcases hoc with h | h <;> rw [h] <;> decide),
      if_neg (by rcases hoc with h | h <;> rw [h] <;> decide), h0, h.2.2.2.2.1 hoc]
    rfl

lemma Graph.covers_isStore (h : g.coversDestination op = true) : op.opcode.isStore = true := by
  obtain ⟨hoc, -⟩ := Graph.covers_facts h
  exact Opcode.isStore_iff.2 (by tauto)

/-- A slice of its whole input. -/
lemma Graph.identitySlice_facts (h : g.identitySlice op = true) : op.opcode = .slice ∧
    op.ins = [op.input 0] ∧ op.out2 = none ∧ op.call = ⟨.slice, 0, [0], none⟩ ∧
    g.len (op.input 0) = g.len op.out ∧ (g.writers op.out).length = 1 := by
  simp only [Graph.identitySlice, Bool.and_eq_true, decide_eq_true_eq,
    Option.isNone_iff_eq_none] at h
  obtain ⟨⟨⟨hoc, hins, hout2, hvar, -, hid, h0, hlen, hw⟩, hu⟩, -⟩ := h
  obtain ⟨a, ha⟩ := List.length_eq_one_iff.1 hins
  obtain ⟨c, hc⟩ := List.length_eq_one_iff.1 hid
  refine ⟨hoc, by simp [Op.input, ha], hout2, ?_, hlen, hw⟩
  have hc0 : c = 0 := by simpa [Op.imm, hc] using h0
  rw [Op.call, hoc, hvar, hu, hc, hc0]

/-- An identity slice is not a store. -/
lemma Graph.identitySlice_covers (h : g.identitySlice op = true) :
    g.coversDestination op = false := by
  by_contra hc
  rw [Bool.not_eq_false] at hc
  obtain ⟨hoc, -⟩ := Graph.identitySlice_facts h
  have := Graph.covers_isStore hc
  rw [hoc] at this
  revert this
  decide

/-- A copy reads its source, which is as long as its output. -/
lemma Graph.Copies.mem (h : g.Copies op v) : v ∈ op.ins ∧ g.len v = g.len op.out := by
  rcases h with ⟨h, rfl⟩ | ⟨h, rfl⟩
  · obtain ⟨-, hins, -, -, hlen, -⟩ := Graph.identitySlice_facts h
    exact ⟨Op.input_mem (by simp [hins]), hlen⟩
  · obtain ⟨-, hins, -, hlen⟩ := Graph.covers_facts h
    exact ⟨Op.input_mem (by omega), hlen⟩

/-- Renaming the inputs by slots as long does not change what covers. -/
lemma Graph.coversDestination_mapIns (hf : ∀ s ∈ op.ins, g.len (f s) = g.len s) :
    g.coversDestination (op.mapIns f) = g.coversDestination op := by
  by_cases hl : op.ins.length = 2
  · have hlen : g.len ((op.mapIns f).input 1) = g.len (op.input 1) := by
      rw [Op.mapIns_input (by omega)]
      exact hf _ (Op.input_mem (by omega))
    rw [Bool.eq_iff_iff]
    simp only [Graph.coversDestination, Bool.and_eq_true, decide_eq_true_eq]
    simp only [hlen, Op.mapIns_ins, List.length_map, Op.mapIns_opcode, Op.mapIns_imm,
      Op.mapIns_out, Op.mapIns_idata]
  · simp [Graph.coversDestination, hl]

lemma Graph.identitySlice_mapIns (hf : ∀ s ∈ op.ins, g.len (f s) = g.len s) :
    g.identitySlice (op.mapIns f) = g.identitySlice op := by
  by_cases hl : op.ins.length = 1
  · have hlen : g.len ((op.mapIns f).input 0) = g.len (op.input 0) := by
      rw [Op.mapIns_input (by omega)]
      exact hf _ (Op.input_mem (by omega))
    rw [Bool.eq_iff_iff]
    simp only [Graph.identitySlice, Bool.and_eq_true, decide_eq_true_eq]
    simp only [hlen, Op.mapIns_ins, List.length_map, Op.mapIns_opcode, Op.mapIns_imm,
      Op.mapIns_out, Op.mapIns_idata, Op.mapIns_out2, Op.mapIns_primalSource]
    rfl
  · simp [Graph.identitySlice, hl]

end Lists

/-! ## What goes -/

/-- What makes a copy removable, in terms of the graph: nothing else reads its source and nothing
writes it any more, neither slot is a root or a parameter, and the next write of the destination is a
slice store in place that covers it. -/
structure Elision.Sound (g : Graph U) (isRoot : ℕ → Bool) (x : Elision) : Prop where
  copies : ∃ op, g.ops[x.pos]? = some op ∧ op.out = x.dest ∧ g.Copies op x.val
  ne : x.val ≠ x.dest
  roots : isRoot x.dest = false ∧ isRoot x.val = false
  params : g.isParam x.dest = false ∧ g.isParam x.val = false
  reader : ∀ (k : ℕ) (op : Op U), g.ops[k]? = some op → x.val ∈ op.ins → k = x.pos
  writer : ∀ k, Writes g.ops x.val k → k < x.pos
  lt_next : x.pos < x.next
  next_le : x.next ≤ g.ops.length
  unwritten : ∀ k, Writes g.ops x.dest k → x.pos < k → x.next ≤ k
  covered : ∀ o : Op U, g.ops[x.next]? = some o →
    (o.opcode = .setSliceInplace ∨ o.opcode = .setSliceStridedInplace) ∧ o.out = x.dest ∧
      g.coversDestination o = true

/-- The copies that go, `E`: each is removable, there is one at a position, and the source of a copy
does not go by another name there. -/
structure Elisions (g : Graph U) (isRoot : ℕ → Bool) (E : Elision → Prop) : Prop where
  sound : ∀ x, E x → x.Sound g isRoot
  unique : ∀ x y, E x → E y → x.pos = y.pos → x = y
  unrenamed : ∀ x y, E x → E y → y.Spans x.pos → y.dest ≠ x.val

/-- What op `k` reads for slot `s`: the source of the copy whose window it is in. -/
def RenamedTo (E : Elision → Prop) (k s t : ℕ) : Prop :=
  (∃ x, E x ∧ x.Spans k ∧ x.dest = s ∧ x.val = t) ∨
    t = s ∧ ∀ x, E x → x.Spans k → x.dest ≠ s

namespace Elision.Sound

variable {g : Graph U} {isRoot : ℕ → Bool} {x : Elision}

lemma reads (h : x.Sound g isRoot) : ∃ op, g.ops[x.pos]? = some op ∧ x.val ∈ op.ins := by
  obtain ⟨op, hop, -, hc⟩ := h.copies
  exact ⟨op, hop, hc.mem.1⟩

lemma writes (h : x.Sound g isRoot) : Writes g.ops x.dest x.pos := by
  obtain ⟨op, hop, hout, -⟩ := h.copies
  exact ⟨op, hop, by simp [hout]⟩

lemma len_eq (h : x.Sound g isRoot) : g.len x.val = g.len x.dest := by
  obtain ⟨op, -, hout, hc⟩ := h.copies
  rw [hc.mem.2, hout]

end Elision.Sound

namespace ElideScan

variable {g : Graph U} {isRoot : ℕ → Bool} {n : ℕ} {st : ElideScan U}

/-- The copy at its position goes. -/
def Elides (g : Graph U) (isRoot : ℕ → Bool) (x : Elision) : Prop :=
  ∃ op, (upTo g isRoot x.pos).ops[x.pos]? = some op ∧ g.copyAt op x.pos = x ∧
    (upTo g isRoot x.pos).admits g isRoot op x = true

/-- The scan before op `n`. -/
structure Inv (g : Graph U) (isRoot : ℕ → Bool) (n : ℕ) (st : ElideScan U) : Prop where
  length : st.ops.length = g.ops.length
  ops : ∀ (k : ℕ) (op : Op U), g.ops[k]? = some op → ∃ f, st.ops[k]? = some (op.mapIns f) ∧
    ∀ s ∈ op.ins, RenamedTo (fun x => Elides g isRoot x ∧ x.pos < n) k s (f s)
  drop : ∀ k, st.drop k = true ↔ k < n ∧ ∃ x, Elides g isRoot x ∧ x.pos = k
  removed : 0 < st.removed ↔ ∃ k, st.drop k = true
  elisions : Elisions g isRoot fun x => Elides g isRoot x ∧ x.pos < n

lemma elides_unique {x y : Elision} (hx : Elides g isRoot x) (hy : Elides g isRoot y)
    (h : x.pos = y.pos) : x = y := by
  obtain ⟨op, hop, hx, -⟩ := hx
  obtain ⟨o, ho, hy, -⟩ := hy
  rw [h] at hop hx
  obtain rfl := Option.some.inj (hop.symm.trans ho)
  exact hx.symm.trans hy

/-- Nothing has gone yet. -/
lemma Inv.zero : Inv g isRoot 0 (upTo g isRoot 0) where
  length := rfl
  ops k op hop := ⟨id, by simpa [upTo, Op.mapIns] using hop, fun s _ =>
    .inr ⟨rfl, fun x hx => absurd hx.2 (Nat.not_lt_zero _)⟩⟩
  drop k := ⟨fun h => by simp [upTo] at h, fun h => absurd h.1 (Nat.not_lt_zero _)⟩
  removed := by simp [upTo]
  elisions :=
    { sound := fun x hx => absurd hx.2 (Nat.not_lt_zero _)
      unique := fun x y hx => absurd hx.2 (Nat.not_lt_zero _)
      unrenamed := fun x y hx => absurd hx.2 (Nat.not_lt_zero _) }

/-- Renaming keeps lengths. -/
lemma Inv.len_eq (h : Inv g isRoot n st) {k s t : ℕ}
    (ht : RenamedTo (fun x => Elides g isRoot x ∧ x.pos < n) k s t) : g.len t = g.len s := by
  rcases ht with ⟨x, hx, -, rfl, rfl⟩ | ⟨rfl, -⟩
  · exact (h.elisions.sound x hx).len_eq
  · rfl

lemma admits_facts {op : Op U} {x : Elision} (h : st.admits g isRoot op x = true) :
    (g.identitySlice op = true ∨ g.coversDestination op = true) ∧ x.dest ≠ x.val ∧
    (isRoot x.dest = false ∧ isRoot x.val = false) ∧
    (g.isParam x.dest = false ∧ g.isParam x.val = false) ∧ g.readers x.val = [x.pos] ∧
    ((g.writers x.val).getLast?.all fun w => decide (w < x.pos)) = true ∧
    st.endsWindow g x = true := by
  simp only [admits, Bool.and_eq_true, Bool.or_eq_true, Bool.not_eq_true', decide_eq_true_eq] at h
  obtain ⟨⟨⟨⟨⟨⟨⟨⟨⟨hc, hne⟩, hr⟩, hr'⟩, hp⟩, hp'⟩, hrd⟩, hw⟩, he⟩, -⟩ := h
  exact ⟨hc, hne, ⟨hr, hr'⟩, ⟨hp, hp'⟩, hrd, hw, he⟩

/-- A copy that the scan lets go is removable although the lists are stale: its source cannot have
been renamed, since then the copy would not be the only reader of the slot it reads now. -/
lemma Inv.sound (h : Inv g isRoot n (upTo g isRoot n)) {x : Elision} (hx : Elides g isRoot x)
    (hn : x.pos = n) : x.Sound g isRoot ∧
      ∀ y, Elides g isRoot y → y.pos < n → y.Spans n → y.dest ≠ x.val := by
  obtain ⟨op', hop', hcopy, hadm⟩ := hx
  rw [hn] at hop' hcopy hadm
  obtain ⟨hcov, hne, hroot, hparam, hrd, hlast, hend⟩ := admits_facts hadm
  have hlt : n < g.ops.length := by
    rw [← h.length]
    exact (List.getElem?_eq_some_iff.1 hop').1
  obtain ⟨f, hf, hren⟩ := h.ops n _ (List.getElem?_eq_getElem hlt)
  generalize hop : g.ops[n] = op at hf hren
  have hopn : g.ops[n]? = some op := by rw [List.getElem?_eq_getElem hlt, hop]
  obtain rfl := Option.some.inj (hop'.symm.trans hf)
  have hlen : ∀ s ∈ op.ins, g.len (f s) = g.len s := fun s hs => h.len_eq (hren s hs)
  have hreader : ∀ (k : ℕ) (o : Op U), g.ops[k]? = some o → x.val ∈ o.ins → k = n := by
    intro k o ho hmem
    have hk : k ∈ g.readers x.val := Graph.mem_readers.2 ⟨o, ho, hmem⟩
    rw [hrd, List.mem_singleton] at hk
    exact hk.trans hn
  -- the source has kept its name
  have hkept : ∀ s ∈ op.ins, f s = x.val → s = x.val ∧
      ∀ y, Elides g isRoot y → y.pos < n → y.Spans n → y.dest ≠ x.val := by
    intro s hs hfs
    rcases hren s hs with ⟨y, hy, -, -, hval⟩ | ⟨hself, hno⟩
    · obtain ⟨o, ho, hmem⟩ := (h.elisions.sound y hy).reads
      have := hreader y.pos o ho (by rwa [← hfs, ← hval])
      have := hy.2
      omega
    · have hsx : s = x.val := hself.symm.trans hfs
      exact ⟨hsx, fun y hy hyn hsp => hsx ▸ hno y ⟨hy, hyn⟩ hsp⟩
  have hcop : g.Copies op x.val ∧
      ∀ y, Elides g isRoot y → y.pos < n → y.Spans n → y.dest ≠ x.val := by
    rw [Graph.identitySlice_mapIns hlen, Graph.coversDestination_mapIns hlen] at hcov
    have hval : x.val = (op.mapIns f).input (if g.identitySlice op then 0 else 1) := by
      rw [← hcopy, Graph.copyAt, Graph.identitySlice_mapIns hlen]
    rcases hcov with hid | hcov
    · rw [if_pos hid] at hval
      obtain ⟨-, hins, -⟩ := Graph.identitySlice_facts hid
      have h0 : 0 < op.ins.length := by simp [hins]
      rw [Op.mapIns_input h0] at hval
      obtain ⟨h1, h2⟩ := hkept _ (Op.input_mem h0) hval.symm
      exact ⟨.inl ⟨hid, h1⟩, h2⟩
    · have hid : ¬ g.identitySlice op = true := fun hid => by
        rw [Graph.identitySlice_covers hid] at hcov
        cases hcov
      rw [if_neg hid] at hval
      obtain ⟨-, hins, -⟩ := Graph.covers_facts hcov
      have h1 : 1 < op.ins.length := by omega
      rw [Op.mapIns_input h1] at hval
      obtain ⟨h2, h3⟩ := hkept _ (Op.input_mem h1) hval.symm
      exact ⟨.inr ⟨hcov, h2⟩, h3⟩
  have hdest : x.dest = op.out := by rw [← hcopy]; rfl
  have hnext : x.next = g.nextWrite op.out n := by rw [← hcopy]; rfl
  refine ⟨⟨⟨op, hn ▸ hopn, hdest.symm, hcop.1⟩, hne.symm, hroot, hparam,
    fun k o ho hmem => hn ▸ hreader k o ho hmem, fun k hk => Graph.lt_of_getLast hlast hk, ?_, ?_,
    fun k hk hxk => ?_, fun o ho => ?_⟩, hcop.2⟩
  · rw [hn, hnext]
    exact Graph.lt_nextWrite hlt
  · rw [hnext]
    exact Graph.nextWrite_le
  · rw [hnext]
    exact Graph.nextWrite_le_of_writes (hdest ▸ hk) (hn ▸ hxk)
  · -- the next write may read other names by now, but of the same lengths
    obtain ⟨f', hf', hren'⟩ := h.ops x.next o ho
    rw [endsWindow, hf'] at hend
    simp only [Option.all_some, Bool.and_eq_true, decide_eq_true_eq] at hend
    rw [Graph.coversDestination_mapIns fun s hs => h.len_eq (hren' s hs)] at hend
    exact ⟨hend.1.1, hend.1.2, hend.2⟩

lemma upTo_succ : upTo g isRoot (n + 1) = step g isRoot (upTo g isRoot n) n := by
  rw [upTo, List.range_succ, List.foldl_append]
  rfl

/-- The copies among the first ops, one op further. -/
lemma elides_succ {x y : Elision} (hx : Elides g isRoot x) (hn : x.pos = n) :
    Elides g isRoot y ∧ y.pos < n + 1 ↔ (Elides g isRoot y ∧ y.pos < n) ∨ y = x := by
  constructor
  · rintro ⟨hy, hlt⟩
    rcases Nat.lt_succ_iff_lt_or_eq.1 hlt with hlt | heq
    · exact .inl ⟨hy, hlt⟩
    · exact .inr (elides_unique hy hx (heq.trans hn.symm))
  · rintro (⟨hy, hlt⟩ | rfl)
    · exact ⟨hy, Nat.lt_succ_of_lt hlt⟩
    · exact ⟨hx, by omega⟩

/-- The scan lets a copy go. -/
lemma Inv.step_copy (h : Inv g isRoot n (upTo g isRoot n)) {x : Elision}
    (hx : Elides g isRoot x) (hn : x.pos = n) : Inv g isRoot (n + 1) (upTo g isRoot (n + 1)) := by
  obtain ⟨hsound, hkept⟩ := h.sound hx hn
  have hiff : ∀ y, Elides g isRoot y ∧ y.pos < n + 1 ↔ (Elides g isRoot y ∧ y.pos < n) ∨ y = x :=
    fun y => elides_succ hx hn
  have hstep : upTo g isRoot (n + 1) =
      { ops := (x.window g).foldl (fun ops r => ops.modify r (Op.mapIns x.rename))
          (upTo g isRoot n).ops
        drop := Function.update (upTo g isRoot n).drop n true
        removed := (upTo g isRoot n).removed + 1 } := by
    obtain ⟨op, hop, hcopy, hadm⟩ := hx
    rw [hn] at hop hcopy hadm
    rw [upTo_succ, step, hop]
    simp only [hcopy, hadm, if_true]
  have hidem : ∀ o : Op U, (o.mapIns x.rename).mapIns x.rename = o.mapIns x.rename := by
    intro o
    have hcomp : x.rename ∘ x.rename = x.rename := by
      funext s
      rw [Function.comp_apply]
      by_cases hs : s = x.dest
      · rw [hs, Elision.rename_dest, Elision.rename_of_ne hsound.ne]
      · rw [Elision.rename_of_ne hs, Elision.rename_of_ne hs]
    simp only [Op.mapIns, List.map_map, hcomp]
  -- a slot renamed before is not the destination, which is written only now
  have hval : ∀ y, Elides g isRoot y ∧ y.pos < n → y.val ≠ x.dest := by
    intro y hy heq
    have := (h.elisions.sound y hy).writer x.pos (heq ▸ hsound.writes)
    have := hy.2
    omega
  rw [hstep]
  refine ⟨?_, fun k op hop => ?_, fun k => ?_, ?_, ?_, fun y z hy hz => elides_unique hy.1 hz.1,
    fun y z hy hz hsp => ?_⟩
  · have hlen : ∀ (w : List ℕ) (l : List (Op U)),
        (w.foldl (fun ops r => ops.modify r (Op.mapIns x.rename)) l).length = l.length := by
      intro w
      induction w with
      | nil => exact fun l => rfl
      | cons r w ih => exact fun l => (ih _).trans (List.length_modify _ _ _)
    exact (hlen _ _).trans h.length
  · obtain ⟨f, hf, hren⟩ := h.ops k op hop
    have hget := getElem?_foldl_modify hidem (x.window g) (upTo g isRoot n).ops k
    rw [hf, Option.map_some] at hget
    have hmap : (op.mapIns f).mapIns x.rename = op.mapIns (x.rename ∘ f) := by
      simp only [Op.mapIns, List.map_map]
    by_cases hk : k ∈ x.window g
    · have hspan : x.Spans k := by
        rw [Elision.window, List.mem_filter, decide_eq_true_eq] at hk
        exact hk.2
      rw [if_pos hk, hmap] at hget
      refine ⟨x.rename ∘ f, hget, fun s hs => ?_⟩
      rcases hren s hs with ⟨y, hy, hsp, hd, hv⟩ | ⟨hself, hno⟩
      · refine .inl ⟨y, (hiff y).2 (.inl hy), hsp, hd, ?_⟩
        rw [Function.comp_apply, ← hv, Elision.rename_of_ne (hval y hy)]
      · by_cases hsx : s = x.dest
        · refine .inl ⟨x, (hiff x).2 (.inr rfl), hspan, hsx.symm, ?_⟩
          rw [Function.comp_apply, hself, hsx, Elision.rename_dest]
        · refine .inr ⟨?_, fun y hy hsp => ?_⟩
          · rw [Function.comp_apply, hself, Elision.rename_of_ne hsx]
          · rcases (hiff y).1 hy with hy | rfl
            · exact hno y hy hsp
            · exact Ne.symm hsx
    · rw [if_neg hk] at hget
      refine ⟨f, hget, fun s hs => ?_⟩
      rcases hren s hs with ⟨y, hy, hsp, hd, hv⟩ | ⟨hself, hno⟩
      · exact .inl ⟨y, (hiff y).2 (.inl hy), hsp, hd, hv⟩
      · refine .inr ⟨hself, fun y hy hsp => ?_⟩
        rcases (hiff y).1 hy with hy | rfl
        · exact hno y hy hsp
        · rintro rfl
          exact hk (List.mem_filter.2
            ⟨Graph.mem_readers.2 ⟨op, hop, hs⟩, decide_eq_true hsp⟩)
  · by_cases hk : k = n
    · subst hk
      simp only [Function.update_self, true_iff]
      exact ⟨Nat.lt_succ_self k, x, hx, hn⟩
    · simp only [Function.update_of_ne hk, h.drop k]
      exact ⟨fun hd => ⟨Nat.lt_succ_of_lt hd.1, hd.2⟩, fun hd => ⟨by omega, hd.2⟩⟩
  · exact ⟨fun _ => ⟨n, Function.update_self _ _ _⟩, fun _ => Nat.succ_pos _⟩
  · intro y hy
    rcases (hiff y).1 hy with hy | rfl
    · exact h.elisions.sound y hy
    · exact hsound
  · rcases (hiff y).1 hy with hy' | rfl
    · rcases (hiff z).1 hz with hz | rfl
      · exact h.elisions.unrenamed y z hy' hz hsp
      · have := hsp.1
        have := hy'.2
        omega
    · rcases (hiff z).1 hz with hz | rfl
      · exact hkept z hz.1 hz.2 (hn ▸ hsp)
      · exact absurd hsp.1 (lt_irrefl _)

/-- The scan keeps an op. -/
lemma Inv.step_keep (h : Inv g isRoot n (upTo g isRoot n))
    (hno : ∀ x, Elides g isRoot x → x.pos ≠ n) : Inv g isRoot (n + 1) (upTo g isRoot (n + 1)) := by
  have hstep : upTo g isRoot (n + 1) = upTo g isRoot n := by
    rw [upTo_succ, step]
    cases hop : (upTo g isRoot n).ops[n]? with
    | none => rfl
    | some op =>
      have hadm : ¬ (upTo g isRoot n).admits g isRoot op (g.copyAt op n) = true := fun hadm =>
        hno (g.copyAt op n) ⟨op, hop, rfl, hadm⟩ rfl
      simp only [hadm]
      rfl
  have hiff : (fun y => Elides g isRoot y ∧ y.pos < n + 1) =
      fun y => Elides g isRoot y ∧ y.pos < n := by
    funext y
    refine propext ⟨fun hy => ⟨hy.1, ?_⟩, fun hy => ⟨hy.1, Nat.lt_succ_of_lt hy.2⟩⟩
    have := hno y hy.1
    omega
  rw [hstep]
  refine ⟨h.length, ?_, fun k => ?_, h.removed, ?_⟩
  · rw [hiff]
    exact h.ops
  · rw [h.drop k]
    refine and_congr_left fun hx => ?_
    obtain ⟨x, hx, rfl⟩ := hx
    have := hno x hx
    omega
  · rw [hiff]
    exact h.elisions

/-- The invariant holds throughout the scan. -/
theorem inv_upTo (g : Graph U) (isRoot : ℕ → Bool) (n : ℕ) :
    Inv g isRoot n (upTo g isRoot n) := by
  induction n with
  | zero => exact Inv.zero
  | succ n ih =>
    by_cases hx : ∃ x, Elides g isRoot x ∧ x.pos = n
    · obtain ⟨x, hx, hn⟩ := hx
      exact ih.step_copy hx hn
    · exact ih.step_keep fun x hxe hn => hx ⟨x, hxe, hn⟩

/-- The ops that stay, as the scan leaves them; the state is the position of the next one. -/
def rewriter (st : ElideScan U) : Rewriter ℕ (Op U) (Op U) where
  emit k _ := if st.drop k then none else st.ops[k]?
  next k _ := k + 1

lemma rewriter_run (st : ElideScan U) {k : ℕ} {ops : List (Op U)}
    (hlen : st.ops.length = k + ops.length) :
    st.rewriter.run k ops = eraseDropped st.drop k (st.ops.drop k) := by
  induction ops generalizing k with
  | nil =>
    rw [List.drop_eq_nil_of_le (by simpa using hlen.le)]
    rfl
  | cons op ops ih =>
    rw [List.length_cons] at hlen
    have hlt : k < st.ops.length := by omega
    have htail : st.rewriter.run (k + 1) ops = eraseDropped st.drop (k + 1) (st.ops.drop (k + 1)) :=
      ih (by omega)
    rw [List.drop_eq_getElem_cons hlt, eraseDropped]
    by_cases hd : st.drop k = true
    · rw [if_pos hd, ← htail]
      exact Rewriter.run_cons_none (if_pos hd) ops
    · rw [if_neg hd, ← htail]
      refine Rewriter.run_cons_some ?_ ops
      exact (if_neg hd).trans (List.getElem?_eq_getElem hlt)

end ElideScan

/-- The pass leaves the ops the scan keeps, with their inputs renamed. -/
lemma elideFullExtentStores_eq (g : Graph U) (roots : List ℕ) :
    (elideFullExtentStores g roots).1 =
      { g with
        ops := (ElideScan.upTo g (g.isRoot roots) g.ops.length).rewriter.run 0 g.ops } := by
  have hinv := ElideScan.inv_upTo g (g.isRoot roots) g.ops.length
  set st := ElideScan.upTo g (g.isRoot roots) g.ops.length with hst
  have hrun : st.rewriter.run 0 g.ops = eraseDropped st.drop 0 st.ops :=
    st.rewriter_run (by rw [hinv.length, Nat.zero_add])
  rw [elideFullExtentStores, ← hst, hrun]
  by_cases hr : 0 < st.removed
  · simp only [hr, if_true]
  · -- nothing went, so nothing was renamed
    have hdrop : ∀ k, st.drop k = false := fun k => by
      by_contra hk
      exact hr (hinv.removed.2 ⟨k, by simpa using hk⟩)
    have hops : st.ops = g.ops := by
      refine List.ext_getElem? fun k => ?_
      cases hop : g.ops[k]? with
      | none =>
        rw [List.getElem?_eq_none_iff] at hop ⊢
        rwa [hinv.length]
      | some op =>
        obtain ⟨f, hf, hren⟩ := hinv.ops k op hop
        have hid : op.mapIns f = op := by
          have : op.ins.map f = op.ins := by
            refine (List.map_congr_left fun s hs => ?_).trans (List.map_id _)
            rcases hren s hs with ⟨x, hx, -⟩ | ⟨hself, -⟩
            · have := (hinv.drop x.pos).2 ⟨hx.2, x, hx.1, rfl⟩
              rw [hdrop] at this
              cases this
            · exact hself
          rw [Op.mapIns, this]
        rw [hf, hid]
    have herase : ∀ (as : List (Op U)) (k : ℕ), eraseDropped st.drop k as = as := by
      intro as
      induction as with
      | nil => exact fun _ => rfl
      | cons a as ih =>
        intro k
        rw [eraseDropped, hdrop, ih]
        rfl
    simp only [hr, if_false, hops, herase]

end Stanli
