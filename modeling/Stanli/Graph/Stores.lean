import Stanli.Graph.Sweep

/-!
# The element and slice stores

Every pass over the op graph treats the six stores specially.  This file has the contract a store
must meet (`valid_store_contract` of `inplace.cpp`), what it gives, and how the buffer a store
leaves depends on its base and its right-hand side.
-/

namespace Stanli

variable {U V S W : Type*}

namespace Opcode

/-- One of the six stores. -/
def isStore (oc : Opcode) : Bool := oc.isCopyingStore || oc.isInplaceStore

/-- `OP_SET_INDEX` or `OP_SET_INDEX_INPLACE`. -/
def isElementStore (oc : Opcode) : Bool := decide (oc = .setIndex) || decide (oc = .setIndexInplace)

lemma isElementStore_iff {oc : Opcode} :
    oc.isElementStore = true ↔ oc = .setIndex ∨ oc = .setIndexInplace := by
  simp [isElementStore]

lemma isStore_iff {oc : Opcode} : oc.isStore = true ↔ (oc = .setIndex ∨ oc = .setIndexInplace) ∨
    oc = .setSlice ∨ oc = .setSliceInplace ∨ oc = .setSliceStrided ∨
      oc = .setSliceStridedInplace := by
  simp only [isStore, isCopyingStore, isInplaceStore, List.mem_cons, List.not_mem_nil, or_false,
    Bool.or_eq_true, decide_eq_true_eq]
  tauto

lemma isStore_of_isElementStore {oc : Opcode} (h : oc.isElementStore = true) :
    oc.isStore = true := by
  rcases isElementStore_iff.1 h with rfl | rfl <;> decide

lemma isStore_of_isInplaceStore {oc : Opcode} (h : oc.isInplaceStore = true) :
    oc.isStore = true := by
  simp [isStore, h]

lemma isInplaceStore_iff {oc : Opcode} : oc.isInplaceStore = true ↔
    oc = .setIndexInplace ∨ oc = .setSliceInplace ∨ oc = .setSliceStridedInplace := by
  simp [isInplaceStore]

lemma isRouted_iff {oc : Opcode} :
    oc.isRouted = true ↔ oc = .index ∨ oc.isCopyingStore = true ∨ oc.isInplaceStore = true := by
  simp [isRouted, or_assoc]

lemma isInplaceStore_eq_false_of_isCopyingStore {oc : Opcode} (h : oc.isCopyingStore = true) :
    oc.isInplaceStore = false := by
  simp only [isCopyingStore, List.mem_cons, List.not_mem_nil, or_false, decide_eq_true_eq] at h
  rcases h with rfl | rfl | rfl <;> decide

lemma ne_index_of_isStore {oc : Opcode} (h : oc.isStore = true) : oc ≠ .index := by
  rintro rfl
  simp [isStore, isCopyingStore, isInplaceStore] at h

lemma isStore_eq_false_of_isRouted_eq_false {oc : Opcode} (h : oc.isRouted = false) :
    oc.isStore = false := by
  simp only [isRouted, Bool.or_eq_false_iff] at h
  simp [isStore, h.1.2, h.2]

end Opcode

/-! ## The contract -/

/-- `valid_store_contract`. -/
def Graph.validStoreContract (g : Graph U) (op : Op U) : Bool :=
  let base := op.input 0
  let rhs := op.input 1
  let n : ℤ := g.len base
  let k : ℤ := g.len rhs
  decide (op.ins.length = 2) && op.out2.isNone && decide (op.variant = 0) && op.udata.isNone &&
  decide (base < g.slots.length ∧ rhs < g.slots.length ∧ op.out < g.slots.length) &&
  (if op.opcode.isInplaceStore then
    decide (op.out = base ∧ rhs ≠ base) && !g.isParam op.out
  else
    decide (op.out ≠ base ∧ op.out ≠ rhs ∧ g.len op.out = g.len base) && !g.isParam op.out) &&
  (if op.opcode = .setIndex ∨ op.opcode = .setIndexInplace then
    decide (op.idata.length = 1 ∧ k = 1 ∧ 0 ≤ op.imm 0 ∧ op.imm 0 < n)
  else if op.opcode = .setSlice ∨ op.opcode = .setSliceInplace then
    decide (op.idata.length = 1 ∧ 0 ≤ op.imm 0 ∧ op.imm 0 ≤ n ∧ k ≤ n - op.imm 0)
  else if op.opcode = .setSliceStrided ∨ op.opcode = .setSliceStridedInplace then
    decide (op.idata.length = 2 ∧ 0 ≤ op.imm 0 ∧ 0 < op.imm 1 ∧
      if k = 0 then op.imm 0 ≤ n
      else op.imm 0 < n ∧ k - 1 ≤ (n - 1 - op.imm 0) / op.imm 1)
  else false)

/-- What the contract promises the kernels: two inputs, one output, and a comb that stays inside the
base.  In place, the output is the base; otherwise it is a third slot as long as the base. -/
structure Op.StoreContract (len : ℕ → ℕ) (op : Op U) : Prop where
  ins_eq : op.ins = [op.input 0, op.input 1]
  out2_eq : op.out2 = none
  fits : ∀ i, inComb (op.comb (len (op.input 1))) i = true → i < len (op.input 0)
  inplace : op.opcode.isInplaceStore = true → op.out = op.input 0 ∧ op.input 1 ≠ op.input 0
  copying : op.opcode.isInplaceStore = false →
    op.out ≠ op.input 0 ∧ op.out ≠ op.input 1 ∧ len op.out = len (op.input 0)
  element : op.opcode.isElementStore = true →
    len (op.input 1) = 1 ∧ 0 ≤ op.imm 0 ∧ op.imm 0 < len (op.input 0)
  rhsLen : (op.comb (len (op.input 1))).2.2 = len (op.input 1)

lemma inComb_iff {comb : ℕ × ℕ × ℕ} {i : ℕ} :
    inComb comb i = true ↔ ∃ k < comb.2.2, comb.1 + k * comb.2.1 = i := by
  simp [inComb]

lemma Op.comb_of_isElementStore {op : Op U} (h : op.opcode.isElementStore = true) (n : ℕ) :
    op.comb n = ((op.imm 0).toNat, 1, 1) := by
  simp [Op.comb, Opcode.isElementStore_iff.1 h]

/-- The contract check gives the contract. -/
lemma Graph.storeContract_of_valid {g : Graph U} {op : Op U} (h : g.validStoreContract op = true) :
    op.StoreContract g.len := by
  simp only [Graph.validStoreContract, Bool.and_eq_true, decide_eq_true_eq,
    Option.isNone_iff_eq_none] at h
  obtain ⟨⟨⟨⟨⟨⟨hlen, hout2⟩, -⟩, -⟩, -⟩, halias⟩, hshape⟩ := h
  have hins : op.ins = [op.input 0, op.input 1] := by
    obtain ⟨a, b, hab⟩ := List.length_eq_two.1 hlen
    simp [Op.input, hab]
  have hcases : (op.comb (g.len (op.input 1))).2.2 = g.len (op.input 1) ∧
      ∀ k < g.len (op.input 1),
        (op.comb (g.len (op.input 1))).1 + k * (op.comb (g.len (op.input 1))).2.1 <
          g.len (op.input 0) := by
    unfold Op.comb
    by_cases h1 : op.opcode = .setIndex ∨ op.opcode = .setIndexInplace
    · rw [if_pos h1] at hshape ⊢
      simp only [decide_eq_true_eq] at hshape
      have hlen1 : g.len (op.input 1) = 1 := by omega
      refine ⟨hlen1.symm, fun k hk => ?_⟩
      have hk0 : k = 0 := by omega
      rw [hk0]
      change (op.imm 0).toNat + 0 * 1 < g.len (op.input 0)
      omega
    rw [if_neg h1] at hshape ⊢
    by_cases h2 : op.opcode = .setSlice ∨ op.opcode = .setSliceInplace
    · rw [if_pos h2] at hshape ⊢
      simp only [decide_eq_true_eq] at hshape
      refine ⟨rfl, fun k hk => ?_⟩
      simp only [Nat.mul_one]
      omega
    rw [if_neg h2] at hshape ⊢
    by_cases h3 : op.opcode = .setSliceStrided ∨ op.opcode = .setSliceStridedInplace
    · rw [if_pos h3] at hshape
      simp only [decide_eq_true_eq] at hshape
      obtain ⟨-, h0, hs, hle⟩ := hshape
      refine ⟨rfl, fun k hk => ?_⟩
      rw [if_neg (by omega)] at hle
      have hk' : (k : ℤ) ≤ ((g.len (op.input 0) : ℤ) - 1 - op.imm 0) / op.imm 1 := by omega
      have hmul : (k : ℤ) * op.imm 1 ≤ (g.len (op.input 0) : ℤ) - 1 - op.imm 0 :=
        (Int.le_ediv_iff_mul_le hs).1 hk'
      have hcast : (((op.imm 0).toNat + k * (op.imm 1).toNat : ℕ) : ℤ) =
          op.imm 0 + k * op.imm 1 := by
        push_cast
        rw [Int.toNat_of_nonneg h0, Int.toNat_of_nonneg (by omega)]
      have hlt : (((op.imm 0).toNat + k * (op.imm 1).toNat : ℕ) : ℤ) < g.len (op.input 0) := by
        rw [hcast]
        omega
      exact_mod_cast hlt
    · simp [h3] at hshape
  refine ⟨hins, hout2, fun i hi => ?_, fun hin => ?_, fun hcp => ?_, fun he => ?_, hcases.1⟩
  · obtain ⟨k, hk, rfl⟩ := inComb_iff.1 hi
    exact hcases.2 k (hcases.1 ▸ hk)
  · rw [if_pos hin] at halias
    simp only [Bool.and_eq_true, decide_eq_true_eq] at halias
    exact halias.1
  · rw [if_neg (by simp [hcp])] at halias
    simp only [Bool.and_eq_true, decide_eq_true_eq] at halias
    exact halias.1
  · rw [if_pos (Opcode.isElementStore_iff.1 he)] at hshape
    simp only [decide_eq_true_eq] at hshape
    omega

/-- The contract keeps stores off the parameters. -/
lemma Graph.isParam_out_of_valid {g : Graph U} {op : Op U} (h : g.validStoreContract op = true) :
    g.isParam op.out = false := by
  simp only [Graph.validStoreContract, Bool.and_eq_true] at h
  obtain ⟨⟨-, halias⟩, -⟩ := h
  split at halias <;> simp only [Bool.and_eq_true, Bool.not_eq_true'] at halias <;> exact halias.2

/-- The op stays inside its buffers, as far as its kernel is written out here. -/
structure Op.InBounds (len : ℕ → ℕ) (op : Op U) : Prop where
  single : op.opcode.isRouted = true → op.out2 = none
  load : op.opcode = .index → op.input 0 ∈ op.ins ∧ (op.imm 0).toNat < len (op.input 0)
  base : op.opcode.isCopyingStore = true → len op.out ≤ len (op.input 0)
  rhs : op.opcode.isStore = true → 1 < op.ins.length ∧
    (op.comb (len (op.input 1))).2.2 ≤ len (op.input 1)

/-- Stores that meet the contract stay inside their buffers. -/
lemma Op.StoreContract.inBounds {len : ℕ → ℕ} {op : Op U} (h : op.StoreContract len)
    (hst : op.opcode.isStore = true) : op.InBounds len where
  single _ := h.out2_eq
  load hi := absurd hi (Opcode.ne_index_of_isStore hst)
  base hcp := Nat.le_of_eq (h.copying (Opcode.isInplaceStore_eq_false_of_isCopyingStore hcp)).2.2
  rhs _ := ⟨by simp [h.ins_eq], Nat.le_of_eq h.rhsLen⟩

/-- An element read inside its vector. -/
lemma Op.inBounds_of_load {len : ℕ → ℕ} {op : Op U} (hi : op.opcode = .index)
    (h : op.out2 = none ∧ op.input 0 ∈ op.ins ∧ (op.imm 0).toNat < len (op.input 0)) :
    op.InBounds len where
  single _ := h.1
  load _ := h.2
  base hcp := absurd hcp (by simp [hi, Opcode.isCopyingStore])
  rhs hst := absurd hi (Opcode.ne_index_of_isStore hst)

/-- Other kernels are handed their buffers with their lengths. -/
lemma Op.inBounds_of_kernel {len : ℕ → ℕ} {op : Op U} (h : op.opcode.isRouted = false) :
    op.InBounds len where
  single hr := absurd hr (by simp [h])
  load hi := absurd h (by simp [hi, Opcode.isRouted])
  base hcp := absurd h (by simp [hcp, Opcode.isRouted])
  rhs hst := absurd (Opcode.isStore_eq_false_of_isRouted_eq_false h) (by simp [hst])

/-- The op stays inside its buffers under other names as long. -/
lemma Op.InBounds.mapIns {len len' : ℕ → ℕ} {op : Op U} (h : op.InBounds len) {f : ℕ → ℕ}
    (hins : ∀ s ∈ op.ins, len' (f s) = len s) (hout : len' op.out = len op.out) :
    (op.mapIns f).InBounds len' where
  single hr := h.single hr
  load hi := by
    obtain ⟨hmem, hlt⟩ := h.load hi
    rw [Op.mapIns_input (List.length_pos_of_mem hmem), hins _ hmem]
    exact ⟨List.mem_map_of_mem hmem, hlt⟩
  base hcp := by
    obtain ⟨hl, -⟩ := h.rhs (by
      have : op.opcode.isCopyingStore = true := hcp
      simp [Opcode.isStore, this])
    rw [Op.mapIns_out, hout, Op.mapIns_input (by omega), hins _ (Op.input_mem (by omega))]
    exact h.base hcp
  rhs hst := by
    obtain ⟨hl, hn⟩ := h.rhs hst
    rw [Op.mapIns_input hl, hins _ (Op.input_mem hl)]
    exact ⟨by simpa using hl, hn⟩

/-! ## Reading and writing -/

@[simp] lemma Graph.bind_len (g : Graph U) : g.bind.len = g.len := rfl

/-- Without cached primals every slot uses its own buffer. -/
lemma Graph.bind_home {g : Graph U} (h : ∀ op ∈ g.ops, op.primalSource = none) :
    g.bind.home = id := by
  funext s
  have hnil : (g.ops.filter fun op => op.cached && op.out == s) = [] := by
    rw [List.filter_eq_nil_iff]
    intro op hop
    simp [Op.cached_eq_false (h op hop)]
  simp [Graph.bind, Graph.home, hnil]

/-- A slot no cached op writes uses its own buffer. -/
lemma Graph.home_of_forall {g : Graph U} {s : ℕ}
    (h : ∀ op ∈ g.ops, op.cached = true → op.out ≠ s) : g.home s = s := by
  have hnil : (g.ops.filter fun op => op.cached && op.out == s) = [] := by
    rw [List.filter_eq_nil_iff]
    intro op hop hcond
    simp only [Bool.and_eq_true, beq_iff_eq] at hcond
    exact h op hop hcond.1 hcond.2
  simp [Graph.home, hnil]

/-- The output of a cached op uses the buffer of its source. -/
lemma Graph.home_of_cached {g : Graph U} {s y : ℕ} (hex : ∃ op ∈ g.ops, op.cached = true ∧ op.out = s)
    (h : ∀ op ∈ g.ops, op.cached = true → op.out = s → op.primalSource = some y) :
    g.home s = y := by
  have hne : (g.ops.filter fun op => op.cached && op.out == s) ≠ [] := by
    obtain ⟨op, hop, hc, rfl⟩ := hex
    exact List.ne_nil_of_mem (List.mem_filter.2 ⟨hop, by simp [hc]⟩)
  obtain ⟨hmem, hcond⟩ := List.mem_filter.1 (List.getLast_mem hne)
  simp only [Bool.and_eq_true, beq_iff_eq] at hcond
  rw [Graph.home, List.getLast?_eq_some_getLast hne, Option.bind_some, h _ hmem hcond.1 hcond.2,
    Option.getD_some]

/-- The forward sweep does not look at which slots have an adjoint. -/
lemma forwardOp_binding_congr {K : Kernels U V S W} {b b' : Binding} (hlen : b.len = b'.len)
    (hhome : b.home = b'.home) : forwardOp K b = forwardOp K b' := by
  cases b
  cases b'
  subst hlen hhome
  rfl

/-- Two slots read the same when they are as long as each other and agree on their cells. -/
lemma Binding.read_eq_read {b b' : Binding} {m m' : Arena V} {s s' : ℕ}
    (hlen : b.len s = b'.len s')
    (h : ∀ e < b.len s, m (b.home s) e = m' (b'.home s') e) : b.read m s = b'.read m' s' := by
  unfold Binding.read
  rw [← hlen]
  exact List.map_congr_left fun e he => h e (List.mem_range.1 he)

/-- One more element. -/
lemma writeComb_succ (start stride n : ℕ) (rhs buf : ℕ → V) :
    writeComb start stride (n + 1) rhs buf =
      Function.update (writeComb start stride n rhs buf) (start + n * stride) (rhs n) := by
  simp [writeComb, List.range_succ]

/-- The cells a comb does not cover keep what they held. -/
lemma writeComb_of_not_inComb {comb : ℕ × ℕ × ℕ} (rhs buf : ℕ → V) {i : ℕ}
    (h : inComb comb i = false) : writeComb comb.1 comb.2.1 comb.2.2 rhs buf i = buf i := by
  obtain ⟨start, stride, n⟩ := comb
  have h' : ∀ k < n, start + k * stride ≠ i := by
    intro k hk heq
    have hc : inComb (start, stride, n) i = true := inComb_iff.2 ⟨k, hk, heq⟩
    simp [h] at hc
  clear h
  induction n with
  | zero => rfl
  | succ n ih =>
    rw [writeComb_succ, Function.update_of_ne (h' n (by omega)).symm]
    exact ih fun k hk => h' k (by omega)

/-- What a store leaves in a cell depends on the right-hand side, and on what the cell held only
where the comb does not cover it. -/
lemma writeComb_congr {comb : ℕ × ℕ × ℕ} {rhs rhs' buf buf' : ℕ → V} {i : ℕ}
    (hrhs : ∀ k < comb.2.2, rhs k = rhs' k) (hbuf : inComb comb i = false → buf i = buf' i) :
    writeComb comb.1 comb.2.1 comb.2.2 rhs buf i =
      writeComb comb.1 comb.2.1 comb.2.2 rhs' buf' i := by
  by_cases hc : inComb comb i = true
  · obtain ⟨start, stride, n⟩ := comb
    obtain ⟨k, hk, hki⟩ := inComb_iff.1 hc
    clear hbuf hc
    induction n with
    | zero => simp at hk
    | succ n ih =>
      rw [writeComb_succ, writeComb_succ]
      by_cases hi : start + n * stride = i
      · subst hi
        simp [hrhs n (Nat.lt_succ_self n)]
      · have hkn : k < n := by
          rcases Nat.lt_succ_iff_lt_or_eq.1 hk with h | h
          · exact h
          · exact absurd (h ▸ hki) hi
        rw [Function.update_of_ne (Ne.symm hi), Function.update_of_ne (Ne.symm hi)]
        exact ih (fun k hk => hrhs k (Nat.lt_succ_of_lt hk)) hkn hki
  · rw [Bool.not_eq_true] at hc
    rw [writeComb_of_not_inComb _ _ hc, writeComb_of_not_inComb _ _ hc]
    exact hbuf hc

/-- An element store changes one cell. -/
lemma writeComb_one (start stride : ℕ) (rhs buf : ℕ → V) :
    writeComb start stride 1 rhs buf = Function.update buf start (rhs 0) := by
  simp [writeComb]

/-- What an in-place store reads of its inputs. -/
lemma Op.shown_inplace {op : Op U} (h : op.opcode.isInplaceStore = true) (b : Binding)
    (m : Arena V) : op.shown b m =
      (((List.range (b.len (op.input 0))).filter fun i =>
        !inComb (op.comb (b.len (op.input 1))) i).map (m (b.home (op.input 0)))) ::
        op.ins.tail.map (b.read m) := by
  rw [Op.shown, if_pos h]

/-- Any other op reads all its inputs. -/
lemma Op.shown_of_not_inplace {op : Op U} (h : op.opcode.isInplaceStore = false) (b : Binding)
    (m : Arena V) : op.shown b m = op.ins.map (b.read m) := by
  rw [Op.shown, if_neg (by simp [h])]

lemma Op.routed_index {op : Op U} (h : op.opcode = .index) (b : Binding) (m : Arena V) :
    op.routed b m =
      some (Function.update (m (b.home op.out)) 0 (m (b.home (op.input 0)) (op.imm 0).toNat)) := by
  simp [Op.routed, h]

lemma Op.routed_copying {op : Op U} (h : op.opcode.isCopyingStore = true) (b : Binding)
    (m : Arena V) : op.routed b m =
      some (writeComb (op.comb (b.len (op.input 1))).1 (op.comb (b.len (op.input 1))).2.1
        (op.comb (b.len (op.input 1))).2.2 (m (b.home (op.input 1)))
        (m (b.home (op.input 0)))) := by
  have hne : op.opcode ≠ .index := by
    intro hi
    rw [hi] at h
    simp [Opcode.isCopyingStore] at h
  simp [Op.routed, h, hne]

lemma Op.routed_inplace {op : Op U} (h : op.opcode.isInplaceStore = true) (b : Binding)
    (m : Arena V) : op.routed b m =
      some (writeComb (op.comb (b.len (op.input 1))).1 (op.comb (b.len (op.input 1))).2.1
        (op.comb (b.len (op.input 1))).2.2 (m (b.home (op.input 1))) (m (b.home op.out))) := by
  have hcases := Opcode.isInplaceStore_iff.1 h
  have hne : op.opcode ≠ .index := by
    rintro hi
    simp [hi] at hcases
  have hcp : op.opcode.isCopyingStore = false := by
    rcases hcases with hc | hc | hc <;> rw [hc] <;> decide
  simp [Op.routed, h, hne, hcp]

end Stanli
