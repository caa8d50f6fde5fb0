import Stanli.Graph.Preserve

/-!
# Forwarding stores to loads

`forward_stores_to_loads` of `inplace.cpp`.  A first scan answers each `INDEX` that reads back the
element the last write to its vector stored, by renaming the load's output to the stored value, and
drops an in-place element store that the next one to the same element overwrites unobserved.  A
second scan, from the last op to the first, drops the element stores that nothing reads afterwards.

The second half of the file says in terms of the op list alone what the first scan works out
(`Reads`, `Superseded`, `Observes`) and proves that it does (`ScanInv`).
-/

namespace Stanli

variable {U V S W : Type*}

/-! ## The pass -/

/-- The most recent write to a vector (`Store`): the op, the element, the value slot, and whether
anything but a forwarded read-back has read the vector since. -/
structure LastStore where
  op : ℕ := 0
  elem : ℤ := 0
  value : ℕ := 0
  live : Bool := false
  observed : Bool := false
deriving DecidableEq, Repr

/-- The state of the first scan.  `ops` holds the ops scanned so far, with their inputs renamed. -/
structure LoadScan (U : Type*) where
  ops : List (Op U) := []
  lastStore : ℕ → LastStore := fun _ => {}
  /-- Load output to stored value slot. -/
  rename : ℕ → Option ℕ := fun _ => none
  drop : ℕ → Bool := fun _ => false
  removed : ℕ := 0

namespace LoadScan

/-- The slot that now stands for `s`. -/
def resolve (st : LoadScan U) (s : ℕ) : ℕ := (st.rename s).getD s

/-- An in-place store overwrites the element the last write stored, which nothing observed. -/
def supersedes (st : LoadScan U) (op : Op U) : Bool :=
  let prev := st.lastStore op.out
  prev.live && !prev.observed && decide (prev.elem = op.imm 0) &&
    decide (op.opcode = .setIndexInplace) &&
    ((st.ops[prev.op]?).any fun o => decide (o.opcode = .setIndexInplace))

/-- A load reads back exactly what the last write to its vector stored. -/
def hits (isRoot : ℕ → Bool) (st : LoadScan U) (op : Op U) : Bool :=
  let hit := st.lastStore (op.input 0)
  decide (op.opcode = .index) && decide (op.idata.length = 1) && hit.live &&
    decide (hit.elem = op.imm 0) && !isRoot op.out

/-- One op of the first scan, its inputs already renamed. -/
def visit (isRoot : ℕ → Bool) (st : LoadScan U) (op : Op U) : LoadScan U :=
  let i := st.ops.length
  let st := { st with ops := st.ops ++ [op] }
  if op.opcode = .setIndex ∨ op.opcode = .setIndexInplace then
    let prev := st.lastStore op.out
    { st with
      drop := if st.supersedes op then Function.update st.drop prev.op true else st.drop
      removed := if st.supersedes op then st.removed + 1 else st.removed
      lastStore := Function.update st.lastStore op.out
        { op := i, elem := op.imm 0, value := op.input 1, live := true, observed := false } }
  else if op.opcode = .setSlice ∨ op.opcode = .setSliceInplace ∨ op.opcode = .setSliceStrided ∨
      op.opcode = .setSliceStridedInplace then
    { st with lastStore := Function.update st.lastStore op.out {} }
  else if st.hits isRoot op then
    { st with
      rename := Function.update st.rename op.out (some (st.lastStore (op.input 0)).value)
      drop := Function.update st.drop i true
      removed := st.removed + 1 }
  else
    { st with
      lastStore := fun s =>
        if s ∈ op.ins then { st.lastStore s with observed := true } else st.lastStore s }

/-- One op of the first scan. -/
def step (isRoot : ℕ → Bool) (st : LoadScan U) (op : Op U) : LoadScan U :=
  st.visit isRoot (op.mapIns st.resolve)

end LoadScan

/-- What the second scan knows after the ops from some position on. -/
structure DeadSweep where
  readAfter : ℕ → Bool
  drop : ℕ → Bool
  removed : ℕ

/-- A store that nothing reads afterwards, and which is not a root. -/
def deadStore (isRoot readAfter : ℕ → Bool) (op : Op U) : Bool :=
  op.opcode.isElementStore && !readAfter op.out && !isRoot op.out

/-- The second scan: the state after visiting the ops backwards down to position `k`. -/
def sweepStores (isRoot : ℕ → Bool) (scan : LoadScan U) : ℕ → List (Op U) → DeadSweep
  | _, [] => ⟨fun _ => false, scan.drop, scan.removed⟩
  | k, op :: ops =>
    let r := sweepStores isRoot scan (k + 1) ops
    if r.drop k then r
    else if deadStore isRoot r.readAfter op then
      { r with drop := Function.update r.drop k true, removed := r.removed + 1 }
    else { r with readAfter := fun s => r.readAfter s || decide (s ∈ op.ins) }

/-- `for k: if (!drop[k]) kept.push_back(ops[k])`. -/
def eraseDropped {α : Type*} (drop : ℕ → Bool) : ℕ → List α → List α
  | _, [] => []
  | k, a :: as => if drop k then eraseDropped drop (k + 1) as else a :: eraseDropped drop (k + 1) as

/-- `forward_stores_to_loads`: the rewritten graph and the number of ops removed. -/
def forwardStoresToLoads (g : Graph U) (roots : List ℕ) : Graph U × ℕ :=
  let scan := g.ops.foldl (LoadScan.step (g.isRoot roots)) {}
  let sweep := sweepStores (g.isRoot roots) scan 0 scan.ops
  if sweep.removed = 0 then ({ g with ops := scan.ops }, 0)
  else ({ g with ops := eraseDropped sweep.drop 0 scan.ops }, sweep.removed)

/-! ## What the first scan works out -/

/-- Op `k` is a store into vector `v`. -/
def StoresTo (ops : List (Op U)) (v k : ℕ) : Prop :=
  ∃ op, ops[k]? = some op ∧ op.opcode.isStore = true ∧ op.out = v

/-- Op `i` is the element store that a load of `v[e]` before position `n` reads back: the last store
into `v`, to that element. -/
structure Answers (ops : List (Op U)) (n v : ℕ) (e : ℤ) (i : ℕ) (op : Op U) : Prop where
  lt : i < n
  get : ops[i]? = some op
  element : op.opcode.isElementStore = true
  out_eq : op.out = v
  elem_eq : op.imm 0 = e
  last : ∀ j, i < j → j < n → ¬ StoresTo ops v j

/-- A load that may be answered by a store: its output is not a root. -/
structure Op.IsLoad (isRoot : ℕ → Bool) (op : Op U) : Prop where
  opcode_eq : op.opcode = .index
  idata_length : op.idata.length = 1
  notRoot : isRoot op.out = false

/-- `Reads n s w o`: a read of slot `s` by op `n` is a read of slot `w`.  Either `s` itself, or `s`
is the output of a load `k` that reads back what store `i` put there, `w` is what that store's value
slot stood for, and `o` is `some (k, i)`. -/
inductive Reads (ops : List (Op U)) (isRoot : ℕ → Bool) : ℕ → ℕ → ℕ → Option (ℕ × ℕ) → Prop
  | self {n s : ℕ} (h : ∀ k op, k < n → ops[k]? = some op → op.IsLoad isRoot → op.out ≠ s) :
    Reads ops isRoot n s s none
  | unanswered {n s k v : ℕ} {op : Op U} {o : Option (ℕ × ℕ)} (hk : k < n)
    (hop : ops[k]? = some op) (hload : op.IsLoad isRoot) (hout : op.out = s)
    (hbase : Reads ops isRoot k (op.input 0) v o)
    (h : ∀ i st, ¬ Answers ops k v (op.imm 0) i st) : Reads ops isRoot n s s none
  | answered {n s k v i w : ℕ} {op st : Op U} {o p : Option (ℕ × ℕ)} (hk : k < n)
    (hop : ops[k]? = some op) (hload : op.IsLoad isRoot) (hout : op.out = s)
    (hbase : Reads ops isRoot k (op.input 0) v o) (h : Answers ops k v (op.imm 0) i st)
    (hvalue : Reads ops isRoot i (st.input 1) w p) : Reads ops isRoot n s w (some (k, i))

/-- Op `k` is the next store after op `i` into `v`, and both store in place to one element. -/
structure Superseded (ops : List (Op U)) (i k v : ℕ) : Prop where
  lt : i < k
  ops_eq : ∃ oi ok, ops[i]? = some oi ∧ ops[k]? = some ok ∧ oi.opcode = .setIndexInplace ∧
    ok.opcode = .setIndexInplace ∧ oi.out = v ∧ ok.out = v ∧ oi.imm 0 = ok.imm 0
  between : ∀ j, i < j → j < k → ¬ StoresTo ops v j

/-- Op `q` is no store and no answered load, and reads `v`, by its own name or through a load. -/
def Observes (ops : List (Op U)) (isRoot : ℕ → Bool) (v q : ℕ) : Prop :=
  ∃ op, ops[q]? = some op ∧ op.opcode.isStore = false ∧
    ¬ (op.IsLoad isRoot ∧ ∃ i st, Answers ops q v (op.imm 0) i st) ∧
    ∃ s ∈ op.ins, ∃ o, Reads ops isRoot q s v o

section Analysis

variable {ops : List (Op U)} {isRoot : ℕ → Bool}

lemma storesTo_iff {v k : ℕ} {op : Op U} (h : ops[k]? = some op) :
    StoresTo ops v k ↔ op.opcode.isStore = true ∧ op.out = v := by
  simp [StoresTo, h]

lemma StoresTo.writes {v k : ℕ} (h : StoresTo ops v k) : Writes ops v k := by
  obtain ⟨op, hop, -, rfl⟩ := h
  exact ⟨op, hop, by simp⟩

/-- At most one store answers. -/
lemma Answers.unique {n v i i' : ℕ} {e e' : ℤ} {op op' : Op U} (h : Answers ops n v e i op)
    (h' : Answers ops n v e' i' op') : i = i' ∧ op = op' := by
  have hst : StoresTo ops v i := ⟨op, h.get, Opcode.isStore_of_isElementStore h.element, h.out_eq⟩
  have hst' : StoresTo ops v i' :=
    ⟨op', h'.get, Opcode.isStore_of_isElementStore h'.element, h'.out_eq⟩
  have hi : i = i' := by
    rcases Nat.lt_trichotomy i i' with hlt | heq | hgt
    · exact absurd hst' (h.last i' hlt h'.lt)
    · exact heq
    · exact absurd hst (h'.last i hgt h.lt)
  subst hi
  exact ⟨rfl, Option.some.inj (h.get.symm.trans h'.get)⟩

/-- Loads have different outputs. -/
def LoadsDistinct (ops : List (Op U)) : Prop :=
  ∀ (k k' : ℕ) (op op' : Op U), ops[k]? = some op → ops[k']? = some op' → op.opcode = .index →
    op'.opcode = .index → op.out = op'.out → k = k'

lemma LoadsDistinct.eq (hd : LoadsDistinct ops) {k k' s : ℕ} {op op' : Op U}
    (hop : ops[k]? = some op) (hop' : ops[k']? = some op') (hl : op.IsLoad isRoot)
    (hl' : op'.IsLoad isRoot) (hs : op.out = s) (hs' : op'.out = s) : k = k' ∧ op = op' := by
  have hk := hd k k' op op' hop hop' hl.opcode_eq hl'.opcode_eq (hs.trans hs'.symm)
  subst hk
  exact ⟨rfl, Option.some.inj (hop.symm.trans hop')⟩

/-- A slot stands for one slot. -/
lemma Reads.unique (hd : LoadsDistinct ops) {n s w w' : ℕ} {o o' : Option (ℕ × ℕ)}
    (h : Reads ops isRoot n s w o) (h' : Reads ops isRoot n s w' o') : w = w' ∧ o = o' := by
  induction h generalizing w' o' with
  | self h =>
    cases h' with
    | self => exact ⟨rfl, rfl⟩
    | unanswered hk hop hl hout => exact absurd hout (h _ _ hk hop hl)
    | answered hk hop hl hout => exact absurd hout (h _ _ hk hop hl)
  | unanswered hk hop hl hout hbase h ih =>
    cases h' with
    | self h' => exact absurd hout (h' _ _ hk hop hl)
    | unanswered => exact ⟨rfl, rfl⟩
    | answered hk' hop' hl' hout' hbase' ha hvalue =>
      obtain ⟨rfl, rfl⟩ := hd.eq hop hop' hl hl' hout hout'
      obtain ⟨rfl, -⟩ := ih hbase'
      exact absurd ha (h _ _)
  | answered hk hop hl hout hbase ha hvalue ih ih' =>
    cases h' with
    | self h' => exact absurd hout (h' _ _ hk hop hl)
    | unanswered hk' hop' hl' hout' hbase' h =>
      obtain ⟨rfl, rfl⟩ := hd.eq hop hop' hl hl' hout hout'
      obtain ⟨rfl, -⟩ := ih hbase'
      exact absurd ha (h _ _)
    | answered hk' hop' hl' hout' hbase' ha' hvalue' =>
      obtain ⟨rfl, rfl⟩ := hd.eq hop hop' hl hl' hout hout'
      obtain ⟨rfl, -⟩ := ih hbase'
      obtain ⟨rfl, rfl⟩ := ha.unique ha'
      obtain ⟨rfl, -⟩ := ih' hvalue'
      exact ⟨rfl, rfl⟩

lemma Reads.succ {n s w : ℕ} {o : Option (ℕ × ℕ)} {op : Op U} (hop : ops[n]? = some op)
    (hn : op.IsLoad isRoot → op.out ≠ s) (h : Reads ops isRoot n s w o) :
    Reads ops isRoot (n + 1) s w o := by
  cases h with
  | self h =>
    refine .self fun k op' hk hop' hl => ?_
    rcases Nat.lt_succ_iff_lt_or_eq.1 hk with hk | rfl
    · exact h k op' hk hop' hl
    · obtain rfl := Option.some.inj (hop.symm.trans hop')
      exact hn hl
  | unanswered hk hop' hl hout hbase h =>
    exact .unanswered (by omega) hop' hl hout hbase h
  | answered hk hop' hl hout hbase ha hvalue =>
    exact .answered (by omega) hop' hl hout hbase ha hvalue

/-- What a load was answered stays the answer. -/
lemma Reads.succ_of_some {n s w : ℕ} {o : ℕ × ℕ} (h : Reads ops isRoot n s w (some o)) :
    Reads ops isRoot (n + 1) s w (some o) := by
  cases h with
  | answered hk hop' hl hout hbase ha hvalue =>
    exact .answered (by omega) hop' hl hout hbase ha hvalue

lemma Answers.succ {n v i : ℕ} {e : ℤ} {st : Op U} (h : Answers ops n v e i st)
    (hn : ¬ StoresTo ops v n) : Answers ops (n + 1) v e i st := by
  refine ⟨by have := h.lt; omega, h.get, h.element, h.out_eq, h.elem_eq, fun j hij hj => ?_⟩
  rcases Nat.lt_succ_iff_lt_or_eq.1 hj with hj | rfl
  · exact h.last j hij hj
  · exact hn

lemma Answers.of_succ {n v i : ℕ} {e : ℤ} {st : Op U} (h : Answers ops (n + 1) v e i st)
    (hi : i ≠ n) : Answers ops n v e i st :=
  ⟨by have := h.lt; omega, h.get, h.element, h.out_eq, h.elem_eq,
    fun j hij hj => h.last j hij (by omega)⟩

lemma Answers.storesTo {n v i : ℕ} {e : ℤ} {st : Op U} (h : Answers ops n v e i st) :
    StoresTo ops v i :=
  ⟨st, h.get, Opcode.isStore_of_isElementStore h.element, h.out_eq⟩

end Analysis

/-! ## The scan is right -/

namespace LoadScan

variable {isRoot : ℕ → Bool} {st : LoadScan U} {op : Op U}

/-- The scan visiting an element store. -/
lemma step_element (h : op.opcode.isElementStore = true) :
    st.step isRoot op =
      { ops := st.ops ++ [op.mapIns st.resolve]
        lastStore := Function.update st.lastStore op.out
          { op := st.ops.length, elem := op.imm 0, value := (op.mapIns st.resolve).input 1
            live := true, observed := false }
        rename := st.rename
        drop := if { st with ops := st.ops ++ [op.mapIns st.resolve] }.supersedes
            (op.mapIns st.resolve) then
          Function.update st.drop (st.lastStore op.out).op true else st.drop
        removed := if { st with ops := st.ops ++ [op.mapIns st.resolve] }.supersedes
            (op.mapIns st.resolve) then st.removed + 1 else st.removed } := by
  simp only [step, visit, Op.mapIns_opcode, if_pos (Opcode.isElementStore_iff.1 h), Op.mapIns_out,
    Op.mapIns_imm]

/-- The scan visiting a slice store. -/
lemma step_slice (h : op.opcode.isStore = true) (he : op.opcode.isElementStore = false) :
    st.step isRoot op =
      { st with
        ops := st.ops ++ [op.mapIns st.resolve]
        lastStore := Function.update st.lastStore op.out {} } := by
  have h1 : ¬ (op.opcode = .setIndex ∨ op.opcode = .setIndexInplace) := by
    rw [← Opcode.isElementStore_iff, he]
    simp
  have h2 : op.opcode = .setSlice ∨ op.opcode = .setSliceInplace ∨ op.opcode = .setSliceStrided ∨
      op.opcode = .setSliceStridedInplace := by
    rw [Opcode.isStore_iff] at h
    tauto
  simp only [step, visit, Op.mapIns_opcode, if_neg h1, if_pos h2, Op.mapIns_out]

/-- The scan visiting a load that reads back the last store to its vector. -/
lemma step_hit (hs : op.opcode.isStore = false)
    (hit : st.hits isRoot (op.mapIns st.resolve) = true) :
    st.step isRoot op =
      { st with
        ops := st.ops ++ [op.mapIns st.resolve]
        rename := Function.update st.rename op.out
          (some (st.lastStore ((op.mapIns st.resolve).input 0)).value)
        drop := Function.update st.drop st.ops.length true
        removed := st.removed + 1 } := by
  have h : ¬ (op.opcode.isStore = true) := by simp [hs]
  rw [Opcode.isStore_iff] at h
  have hit' : { st with ops := st.ops ++ [op.mapIns st.resolve] }.hits isRoot
      (op.mapIns st.resolve) = true := hit
  simp only [step, visit, Op.mapIns_opcode, if_neg fun h' => h (.inl h'),
    if_neg fun h' => h (.inr h'), hit', if_true, Op.mapIns_out]

/-- The scan visiting any other op. -/
lemma step_other (hs : op.opcode.isStore = false)
    (hit : st.hits isRoot (op.mapIns st.resolve) = false) :
    st.step isRoot op =
      { st with
        ops := st.ops ++ [op.mapIns st.resolve]
        lastStore := fun s =>
          if s ∈ op.ins.map st.resolve then { st.lastStore s with observed := true }
          else st.lastStore s } := by
  have h : ¬ (op.opcode.isStore = true) := by simp [hs]
  rw [Opcode.isStore_iff] at h
  have hit' : ¬ { st with ops := st.ops ++ [op.mapIns st.resolve] }.hits isRoot
      (op.mapIns st.resolve) = true := by
    rw [Bool.not_eq_true]
    exact hit
  simp only [step, visit, Op.mapIns_opcode, if_neg fun h' => h (.inl h'),
    if_neg fun h' => h (.inr h'), if_neg hit', Op.mapIns_ins]
  rfl

end LoadScan

/-- Loads have one input and stores two (the part of their contracts that the scan relies on). -/
structure OperandCounts (ops : List (Op U)) : Prop where
  load : ∀ op ∈ ops, op.opcode = .index → op.ins = [op.input 0]
  store : ∀ op ∈ ops, op.opcode.isStore = true → op.ins = [op.input 0, op.input 1]

/-- The state of the first scan after `n` ops. -/
structure ScanInv (ops : List (Op U)) (isRoot : ℕ → Bool) (n : ℕ) (st : LoadScan U) : Prop where
  length_eq : st.ops.length = n
  opcode : ∀ j op, ops[j]? = some op → j < n → (st.ops[j]?).map Op.opcode = some op.opcode
  renamed : ∀ s w, st.rename s = some w → ∃ k i, Reads ops isRoot n s w (some (k, i))
  unrenamed : ∀ s, st.rename s = none → Reads ops isRoot n s s none
  live : ∀ v, (st.lastStore v).live = true → ∃ op,
    Answers ops n v (st.lastStore v).elem (st.lastStore v).op op ∧
      ∃ o, Reads ops isRoot (st.lastStore v).op (op.input 1) (st.lastStore v).value o
  dead : ∀ v, (st.lastStore v).live = false → ∀ e i op, ¬ Answers ops n v e i op
  unobserved : ∀ v, (st.lastStore v).live = true → (st.lastStore v).observed = false →
    ∀ q, (st.lastStore v).op < q → q < n → ¬ Observes ops isRoot v q
  drop : ∀ j, st.drop j = true → j < n ∧ ∃ op, ops[j]? = some op ∧ (op.IsLoad isRoot ∨
    ∃ k < n, Superseded ops j k op.out ∧ ∀ q, j < q → q < k → ¬ Observes ops isRoot op.out q)

namespace ScanInv

variable {ops : List (Op U)} {isRoot : ℕ → Bool} {n : ℕ} {st : LoadScan U} {op : Op U}

lemma zero : ScanInv ops isRoot 0 ({} : LoadScan U) where
  length_eq := rfl
  opcode _ _ _ h := absurd h (by omega)
  renamed _ _ h := by simp at h
  unrenamed s _ := .self fun k _ h => absurd h (by omega)
  live _ h := by simp at h
  dead _ _ _ _ _ h := absurd h.lt (by omega)
  unobserved _ h := by simp at h
  drop _ h := by simp at h

/-- What the scan resolves a slot to. -/
lemma reads_resolve (h : ScanInv ops isRoot n st) (s : ℕ) :
    ∃ o, Reads ops isRoot n s (st.resolve s) o := by
  unfold LoadScan.resolve
  cases hr : st.rename s with
  | none => exact ⟨none, h.unrenamed s hr⟩
  | some w =>
    obtain ⟨k, i, hki⟩ := h.renamed s w hr
    exact ⟨_, hki⟩

lemma reads_unique (h : ScanInv ops isRoot n st) (hd : LoadsDistinct ops) {s w : ℕ}
    {o : Option (ℕ × ℕ)} (hr : Reads ops isRoot n s w o) : st.resolve s = w := by
  obtain ⟨o', ho'⟩ := h.reads_resolve s
  exact (ho'.unique hd hr).1

lemma opcode_succ (h : ScanInv ops isRoot n st) (hop : ops[n]? = some op) (f : ℕ → ℕ) :
    ∀ j op', ops[j]? = some op' → j < n + 1 →
      ((st.ops ++ [op.mapIns f])[j]?).map Op.opcode = some op'.opcode := by
  intro j op' hop' hj
  rcases Nat.lt_succ_iff_lt_or_eq.1 hj with hj | rfl
  · rw [List.getElem?_append_left (by rw [h.length_eq]; exact hj)]
    exact h.opcode j op' hop' hj
  · rw [List.getElem?_append_right (Nat.le_of_eq h.length_eq), h.length_eq]
    obtain rfl := Option.some.inj (hop.symm.trans hop')
    simp

/-- Names persist through an op that is not the load defining them. -/
lemma renamed_succ (h : ScanInv ops isRoot n st) {s w : ℕ} (hs : st.rename s = some w) :
    ∃ k i, Reads ops isRoot (n + 1) s w (some (k, i)) := by
  obtain ⟨k, i, hki⟩ := h.renamed s w hs
  exact ⟨k, i, hki.succ_of_some⟩

lemma drop_succ (h : ScanInv ops isRoot n st) {j : ℕ} (hj : st.drop j = true) :
    j < n + 1 ∧ ∃ op, ops[j]? = some op ∧ (op.IsLoad isRoot ∨
      ∃ k < n + 1, Superseded ops j k op.out ∧
        ∀ q, j < q → q < k → ¬ Observes ops isRoot op.out q) := by
  obtain ⟨hjn, op, hop, hcase⟩ := h.drop j hj
  refine ⟨by omega, op, hop, ?_⟩
  rcases hcase with hl | ⟨k, hk, hsup⟩
  · exact .inl hl
  · exact .inr ⟨k, by omega, hsup⟩

/-- The record of a vector that the next op does not store into. -/
lemma live_succ (h : ScanInv ops isRoot n st) {v : ℕ} (hv : (st.lastStore v).live = true)
    (hn : ¬ StoresTo ops v n) : ∃ op,
    Answers ops (n + 1) v (st.lastStore v).elem (st.lastStore v).op op ∧
      ∃ o, Reads ops isRoot (st.lastStore v).op (op.input 1) (st.lastStore v).value o := by
  obtain ⟨op, ha, o, hr⟩ := h.live v hv
  exact ⟨op, ha.succ hn, o, hr⟩

lemma dead_succ (h : ScanInv ops isRoot n st) {v : ℕ} (hv : (st.lastStore v).live = false)
    (hn : ¬ StoresTo ops v n) : ∀ e i op, ¬ Answers ops (n + 1) v e i op := by
  intro e i op ha
  refine h.dead v hv e i op (ha.of_succ ?_)
  rintro rfl
  exact hn ha.storesTo

/-- A record nothing observed, after an op that does not observe it. -/
lemma unobserved_succ (h : ScanInv ops isRoot n st) {v : ℕ} (hv : (st.lastStore v).live = true)
    (ho : (st.lastStore v).observed = false) (hn : ¬ Observes ops isRoot v n) :
    ∀ q, (st.lastStore v).op < q → q < n + 1 → ¬ Observes ops isRoot v q := by
  intro q hq hqn
  rcases Nat.lt_succ_iff_lt_or_eq.1 hqn with hqn | rfl
  · exact h.unobserved v hv ho q hq hqn
  · exact hn

lemma supersedes_iff : st.supersedes op = true ↔ (st.lastStore op.out).live = true ∧
    (st.lastStore op.out).observed = false ∧ (st.lastStore op.out).elem = op.imm 0 ∧
    op.opcode = .setIndexInplace ∧
    (st.ops[(st.lastStore op.out).op]?).map Op.opcode = some .setIndexInplace := by
  simp only [LoadScan.supersedes, Bool.and_eq_true, Bool.not_eq_true', decide_eq_true_eq]
  cases st.ops[(st.lastStore op.out).op]? <;> simp [and_assoc]

/-- An op superseding a record drops an op that the next one does supersede, unobserved. -/
lemma superseded (h : ScanInv ops isRoot n st) (hop : ops[n]? = some op)
    (hs : { st with ops := st.ops ++ [op.mapIns st.resolve] }.supersedes
      (op.mapIns st.resolve) = true) :
    ∃ o, ops[(st.lastStore op.out).op]? = some o ∧ o.out = op.out ∧
      Superseded ops (st.lastStore op.out).op n op.out ∧
      ∀ q, (st.lastStore op.out).op < q → q < n → ¬ Observes ops isRoot op.out q := by
  obtain ⟨hlive, hobs, helem, hin, hprev⟩ := supersedes_iff.1 hs
  simp only [Op.mapIns_out, Op.mapIns_opcode, Op.mapIns_imm] at hlive hobs helem hin hprev
  obtain ⟨o, ha, -⟩ := h.live op.out hlive
  have hoc := h.opcode_succ hop st.resolve _ o ha.get (by have := ha.lt; omega)
  have hino : o.opcode = .setIndexInplace := Option.some.inj (hoc.symm.trans hprev)
  exact ⟨o, ha.get, ha.out_eq,
    ⟨ha.lt, ⟨o, op, ha.get, hop, hino, hin, ha.out_eq, rfl, ha.elem_eq.trans helem⟩,
      ha.last⟩, h.unobserved op.out hlive hobs⟩

/-- Visiting a store changes the record of its vector, and drops at most what it supersedes. -/
lemma of_store (h : ScanInv ops isRoot n st) (hop : ops[n]? = some op)
    (hst : op.opcode.isStore = true) {last : LastStore} {drop : ℕ → Bool} {removed : ℕ}
    (hlive : last.live = true → last.op = n ∧ op.opcode.isElementStore = true ∧
      last.elem = op.imm 0 ∧ last.value = st.resolve (op.input 1))
    (hdead : last.live = false → op.opcode.isElementStore = false)
    (hdrop : ∀ j, drop j = true → st.drop j = true ∨ ∃ o, ops[j]? = some o ∧ o.out = op.out ∧
      Superseded ops j n op.out ∧ ∀ q, j < q → q < n → ¬ Observes ops isRoot op.out q) :
    ScanInv ops isRoot (n + 1)
      { ops := st.ops ++ [op.mapIns st.resolve]
        lastStore := Function.update st.lastStore op.out last
        rename := st.rename, drop := drop, removed := removed } := by
  have hne : op.opcode ≠ .index := by
    rintro hi
    rw [hi] at hst
    revert hst
    decide
  have hstores : ∀ v, StoresTo ops v n ↔ op.out = v := fun v => by
    rw [storesTo_iff hop]
    simp [hst]
  refine ⟨by simp [h.length_eq], h.opcode_succ hop _, fun s w hs => h.renamed_succ hs,
    fun s hs => (h.unrenamed s hs).succ hop fun hl => absurd hl.opcode_eq hne, fun v hv => ?_,
    fun v hv => ?_, fun v hv ho => ?_, fun j hj => ?_⟩
  · by_cases hvo : v = op.out
    · subst hvo
      simp only [Function.update_self] at hv ⊢
      obtain ⟨hi, he, helem, hvalue⟩ := hlive hv
      rw [hi, helem, hvalue]
      exact ⟨op, ⟨by omega, hop, he, rfl, rfl, fun j h1 h2 => absurd h2 (by omega)⟩,
        h.reads_resolve _⟩
    · simp only [Function.update_of_ne hvo] at hv ⊢
      exact h.live_succ hv fun hs => hvo ((hstores v).1 hs).symm
  · by_cases hvo : v = op.out
    · subst hvo
      simp only [Function.update_self] at hv
      intro e i o ha
      by_cases hi : i = n
      · subst hi
        obtain rfl := Option.some.inj (hop.symm.trans ha.get)
        exact absurd ha.element (by simp [hdead hv])
      · exact ha.last n (by have := ha.lt; omega) (by omega) ((hstores _).2 rfl)
    · simp only [Function.update_of_ne hvo] at hv
      exact h.dead_succ hv fun hs => hvo ((hstores v).1 hs).symm
  · by_cases hvo : v = op.out
    · subst hvo
      simp only [Function.update_self] at hv ⊢
      have := (hlive hv).1
      omega
    · simp only [Function.update_of_ne hvo] at hv ho ⊢
      refine h.unobserved_succ hv ho ?_
      rintro ⟨op', hop', hns, -⟩
      obtain rfl := Option.some.inj (hop.symm.trans hop')
      simp [hst] at hns
  · rcases hdrop j hj with hj | ⟨o, ho, hout, hsup, hobs⟩
    · exact h.drop_succ hj
    · refine ⟨by have := hsup.lt; omega, o, ho, .inr ⟨n, by omega, ?_⟩⟩
      rw [hout]
      exact ⟨hsup, hobs⟩

/-- The scan visiting an element store. -/
lemma step_element (h : ScanInv ops isRoot n st) (hc : OperandCounts ops)
    (hop : ops[n]? = some op) (he : op.opcode.isElementStore = true) :
    ScanInv ops isRoot (n + 1) (st.step isRoot op) := by
  have hst := Opcode.isStore_of_isElementStore he
  rw [LoadScan.step_element he]
  refine h.of_store hop hst (fun _ => ⟨h.length_eq, he, rfl, Op.mapIns_input ?_⟩) (by simp)
    fun j hj => ?_
  · simp [hc.store op (List.mem_of_getElem? hop) hst]
  · by_cases hs : { st with ops := st.ops ++ [op.mapIns st.resolve] }.supersedes
        (op.mapIns st.resolve) = true
    · rw [if_pos hs] at hj
      by_cases hjp : j = (st.lastStore op.out).op
      · exact .inr (hjp ▸ h.superseded hop hs)
      · exact .inl (by rwa [Function.update_of_ne hjp] at hj)
    · exact .inl (by rwa [if_neg hs] at hj)

/-- The scan visiting a slice store. -/
lemma step_slice (h : ScanInv ops isRoot n st) (hop : ops[n]? = some op)
    (hst : op.opcode.isStore = true) (he : op.opcode.isElementStore = false) :
    ScanInv ops isRoot (n + 1) (st.step isRoot op) := by
  rw [LoadScan.step_slice hst he]
  exact h.of_store hop hst (by simp) (fun _ => he) fun _ hj => .inl hj

lemma hits_iff : st.hits isRoot op = true ↔ op.IsLoad isRoot ∧
    (st.lastStore (op.input 0)).live = true ∧ (st.lastStore (op.input 0)).elem = op.imm 0 := by
  simp only [LoadScan.hits, Bool.and_eq_true, Bool.not_eq_true', decide_eq_true_eq]
  constructor
  · rintro ⟨⟨⟨⟨h1, h2⟩, h3⟩, h4⟩, h5⟩
    exact ⟨⟨h1, h2, h5⟩, h3, h4⟩
  · rintro ⟨⟨h1, h2, h5⟩, h3, h4⟩
    exact ⟨⟨⟨⟨h1, h2⟩, h3⟩, h4⟩, h5⟩

lemma mapIns_isLoad {f : ℕ → ℕ} : (op.mapIns f).IsLoad isRoot ↔ op.IsLoad isRoot :=
  ⟨fun h => ⟨h.1, h.2, h.3⟩, fun h => ⟨h.1, h.2, h.3⟩⟩

/-- The scan visiting a load that reads back the last store to its vector. -/
lemma step_hit (h : ScanInv ops isRoot n st) (hc : OperandCounts ops) (hd : LoadsDistinct ops)
    (hop : ops[n]? = some op) (hst : op.opcode.isStore = false)
    (hit : st.hits isRoot (op.mapIns st.resolve) = true) :
    ScanInv ops isRoot (n + 1) (st.step isRoot op) := by
  have hmem : op ∈ ops := List.mem_of_getElem? hop
  have hn : ∀ v, ¬ StoresTo ops v n := fun v => by
    rw [storesTo_iff hop]
    simp [hst]
  obtain ⟨hl, hlive, helem⟩ := hits_iff.1 hit
  rw [mapIns_isLoad] at hl
  have hins := hc.load op hmem hl.opcode_eq
  have hin : (op.mapIns st.resolve).input 0 = st.resolve (op.input 0) :=
    Op.mapIns_input (by simp [hins])
  rw [Op.mapIns_imm] at helem
  rw [LoadScan.step_hit hst hit]
  rw [hin] at hlive helem ⊢
  obtain ⟨o, ho⟩ := h.reads_resolve (op.input 0)
  obtain ⟨sop, ha, p, hp⟩ := h.live _ hlive
  rw [helem] at ha
  refine ⟨by simp [h.length_eq], h.opcode_succ hop _, fun s w hs => ?_, fun s hs => ?_,
    fun v hv => h.live_succ hv (hn v), fun v hv => h.dead_succ hv (hn v),
    fun v hv hob => h.unobserved_succ hv hob ?_, fun j hj => ?_⟩
  · by_cases hso : s = op.out
    · subst hso
      simp only [Function.update_self, Option.some.injEq] at hs
      subst hs
      exact ⟨n, _, .answered (by omega) hop hl rfl ho ha hp⟩
    · simp only [Function.update_of_ne hso] at hs
      exact h.renamed_succ hs
  · by_cases hso : s = op.out
    · subst hso
      simp at hs
    · simp only [Function.update_of_ne hso] at hs
      exact (h.unrenamed s hs).succ hop fun _ heq => hso heq.symm
  · rintro ⟨op', hop', -, hna, s, hs, q, hq⟩
    obtain rfl := Option.some.inj (hop.symm.trans hop')
    rw [hins, List.mem_singleton] at hs
    subst hs
    rw [h.reads_unique hd hq] at ha
    exact hna ⟨hl, _, sop, ha⟩
  · by_cases hjn : j = n
    · subst hjn
      exact ⟨by omega, op, hop, .inl hl⟩
    · rw [h.length_eq] at hj
      simp only [Function.update_of_ne hjn] at hj
      exact h.drop_succ hj

/-- The scan visiting any other op. -/
lemma step_other (h : ScanInv ops isRoot n st) (hc : OperandCounts ops) (hd : LoadsDistinct ops)
    (hop : ops[n]? = some op) (hst : op.opcode.isStore = false)
    (hit : st.hits isRoot (op.mapIns st.resolve) = false) :
    ScanInv ops isRoot (n + 1) (st.step isRoot op) := by
  have hmem : op ∈ ops := List.mem_of_getElem? hop
  have hn : ∀ v, ¬ StoresTo ops v n := fun v => by
    rw [storesTo_iff hop]
    simp [hst]
  have hnone : ∀ s, op.IsLoad isRoot → op.out = s → st.rename s = none →
      Reads ops isRoot (n + 1) s s none := by
    intro s hl hout hs
    obtain ⟨o, ho⟩ := h.reads_resolve (op.input 0)
    refine .unanswered (by omega) hop hl hout ho fun i sop ha => ?_
    have hin : (op.mapIns st.resolve).input 0 = st.resolve (op.input 0) :=
      Op.mapIns_input (by simp [hc.load op hmem hl.opcode_eq])
    by_cases hlive : (st.lastStore (st.resolve (op.input 0))).live = true
    · obtain ⟨sop', ha', -⟩ := h.live _ hlive
      obtain ⟨hi, rfl⟩ := ha.unique ha'
      have hhit : st.hits isRoot (op.mapIns st.resolve) = true := by
        rw [hits_iff, mapIns_isLoad, hin]
        exact ⟨hl, hlive, ha'.elem_eq.symm.trans ha.elem_eq⟩
      simp [hit] at hhit
    · rw [Bool.not_eq_true] at hlive
      exact h.dead _ hlive _ _ _ ha
  rw [LoadScan.step_other hst hit]
  refine ⟨by simp [h.length_eq], h.opcode_succ hop _, fun s w hs => h.renamed_succ hs,
    fun s hs => ?_, fun v hv => ?_, fun v hv => ?_, fun v hv hob => ?_,
    fun j hj => h.drop_succ hj⟩
  · by_cases hl : op.IsLoad isRoot ∧ op.out = s
    · exact hnone s hl.1 hl.2 hs
    · exact (h.unrenamed s hs).succ hop fun h1 h2 => hl ⟨h1, h2⟩
  · by_cases hvi : v ∈ op.ins.map st.resolve
    · simp only [hvi, if_true] at hv ⊢
      exact h.live_succ hv (hn v)
    · simp only [hvi, if_false] at hv ⊢
      exact h.live_succ hv (hn v)
  · by_cases hvi : v ∈ op.ins.map st.resolve
    · simp only [hvi, if_true] at hv
      exact h.dead_succ hv (hn v)
    · simp only [hvi, if_false] at hv
      exact h.dead_succ hv (hn v)
  · by_cases hvi : v ∈ op.ins.map st.resolve
    · simp [hvi] at hob
    · simp only [hvi, if_false] at hv hob ⊢
      refine h.unobserved_succ hv hob ?_
      rintro ⟨op', hop', -, -, s, hs, q, hq⟩
      obtain rfl := Option.some.inj (hop.symm.trans hop')
      exact hvi (List.mem_map.2 ⟨s, hs, h.reads_unique hd hq⟩)

/-- The scan visiting an op. -/
lemma step (h : ScanInv ops isRoot n st) (hc : OperandCounts ops) (hd : LoadsDistinct ops)
    (hop : ops[n]? = some op) : ScanInv ops isRoot (n + 1) (st.step isRoot op) := by
  by_cases hst : op.opcode.isStore = true
  · by_cases he : op.opcode.isElementStore = true
    · exact h.step_element hc hop he
    · exact h.step_slice hop hst (by simpa using he)
  · rw [Bool.not_eq_true] at hst
    by_cases hit : st.hits isRoot (op.mapIns st.resolve) = true
    · exact h.step_hit hc hd hop hst hit
    · exact h.step_other hc hd hop hst (by simpa using hit)

end ScanInv

end Stanli
