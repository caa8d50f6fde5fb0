import Mathlib.Data.List.GetD
import Mathlib.Data.UInt
import Mathlib.Tactic.Linarith
import Stanli.Lib.OpenAddressing

/-!
# The table of value numbers

`SmallTable` of `collapse.cpp`: open addressing over keys of up to four words.  Two keys are taken for
one only if their words and their number agree, so a number stands for one key; and the table is never
full, so the probe ends.
-/

namespace Stanli.Collapse

/-- `Vn`. -/
abbrev Vn := ℤ

namespace SmallTable

def kWords : ℕ := 4

/-- `tag` is the hash with the word count in its low three bits; an empty cell has value zero. -/
structure Cell where
  w : List ℤ := []
  tag : UInt64 := 0
  value : Vn := 0
deriving DecidableEq, Repr

def hash (w : List ℤ) (n : ℕ) : UInt64 :=
  let h := w.foldl
    (fun h x =>
      let h := h ^^^ UInt64.ofInt x
      let h := h * 0xff51afd7ed558ccd
      h ^^^ (h >>> 29))
    0x9e3779b97f4a7c15
  (h <<< 3) ||| UInt64.ofNat n

/-- The words of a key as a cell holds them. -/
def padded (w : List ℤ) : List ℤ := (List.range kWords).map fun k => w.getD k 0

/-- The cell a key is looked up with and stored as. -/
def Cell.ofKey (w : List ℤ) (fresh : Vn) : Cell := ⟨padded w, hash (padded w) w.length, fresh⟩

end SmallTable

open SmallTable

structure SmallTable where
  cells : List Cell := []
  used : ℕ := 0
deriving DecidableEq, Repr

namespace SmallTable

/-- Where the probe for a cell like this one stops. -/
def stopsAt (cells : List Cell) (stop : Cell → Bool) (tag : UInt64) : Option ℕ :=
  probe (fun i => stop (cells.getD i {})) (cells.length - 1) cells.length
    (tag.toNat &&& (cells.length - 1))

/-- Move one cell to a free place. -/
def moveCell (cells : List Cell) (cell : Cell) : List Cell :=
  if cell.value = 0 then cells
  else
    match stopsAt cells (fun c => c.value == 0) cell.tag with
    | some at_ => cells.set at_ cell
    | none => cells

def rehash (t : SmallTable) (cells : ℕ) : SmallTable :=
  { t with cells := t.cells.foldl moveCell (List.replicate cells {}) }

/-- The cells `reserve` asks for, from so many on. -/
def reserveCells (entries : ℕ) : ℕ → ℕ → ℕ
  | 0, cells => cells
  | fuel + 1, cells => if 3 * cells < 4 * entries then reserveCells entries fuel (2 * cells) else cells

def reserve (t : SmallTable) (entries : ℕ) : SmallTable :=
  let cells := reserveCells entries entries 256
  if cells > t.cells.length then t.rehash cells else t

/-- The table with room for one more key. -/
def grown (t : SmallTable) : SmallTable :=
  if 4 * (t.used + 1) > 3 * t.cells.length then
    t.rehash (if t.cells = [] then 256 else 2 * t.cells.length)
  else t

/-- The value stored under `w`, or `fresh` after storing it. -/
def findOrInsert (t : SmallTable) (w : List ℤ) (fresh : Vn) : Vn × SmallTable :=
  let t := t.grown
  let key := Cell.ofKey w fresh
  match stopsAt t.cells (fun c => c.value == 0 || (c.tag == key.tag && c.w == key.w)) key.tag with
  | some at_ =>
    let cell := t.cells.getD at_ {}
    if cell.value = 0 then (fresh, ⟨t.cells.set at_ key, t.used + 1⟩) else (cell.value, t)
  | none => (fresh, t)

/-! ## Keys are told apart -/

theorem hash_mod (w : List ℤ) {n : ℕ} (hn : n < 8) : (hash w n).toNat % 8 = n := by
  have hshift : ∀ h : UInt64, (h <<< 3).toNat % 2 ^ 3 = 0 := by
    intro h
    rw [UInt64.toNat_shiftLeft]
    change (h.toNat <<< 3) % 2 ^ 64 % 2 ^ 3 = 0
    rw [Nat.mod_mod_of_dvd _ (Nat.pow_dvd_pow 2 (by decide)), Nat.shiftLeft_eq, Nat.mul_mod_left]
  have hcount : (UInt64.ofNat n).toNat = n := by
    rw [UInt64.toNat_ofNat']
    exact Nat.mod_eq_of_lt (by omega)
  rw [hash, UInt64.toNat_or, hcount, show (8 : ℕ) = 2 ^ 3 from rfl, Nat.or_mod_two_pow, hshift,
    Nat.zero_or]
  exact Nat.mod_eq_of_lt hn

/-- A key is read off its cell. -/
theorem ofKey_inj {w w' : List ℤ} (hw : w.length ≤ kWords) (hw' : w'.length ≤ kWords) {v v' : Vn}
    (htag : (Cell.ofKey w v).tag = (Cell.ofKey w' v').tag)
    (hwords : (Cell.ofKey w v).w = (Cell.ofKey w' v').w) : w = w' := by
  have hlen : w.length = w'.length := by
    have h := congrArg (fun tag => tag.toNat % 8) htag
    simp only [Cell.ofKey] at h
    rwa [hash_mod _ (by rw [kWords] at hw; omega), hash_mod _ (by rw [kWords] at hw'; omega)] at h
  apply List.ext_getElem hlen
  intro k hk hk'
  have h := congrArg (fun l : List ℤ => l[k]?) hwords
  have hlt : k < kWords := by omega
  simpa [Cell.ofKey, padded, hlt, hk, hk'] using h

/-- The table holds a key under a number. -/
def Holds (t : SmallTable) (w : List ℤ) (v : Vn) : Prop :=
  v ≠ 0 ∧ w.length ≤ kWords ∧ Cell.ofKey w v ∈ t.cells

theorem holds_of_cell {t : SmallTable} {c : Cell} (hc : c ∈ t.cells) (h0 : c.value ≠ 0) {w : List ℤ}
    (hw : w.length ≤ kWords) {v : Vn} (htag : c.tag = (Cell.ofKey w v).tag)
    (hwords : c.w = (Cell.ofKey w v).w) : t.Holds w c.value := by
  refine ⟨h0, hw, ?_⟩
  have hcell : c = Cell.ofKey w c.value := by
    obtain ⟨words, tag, value⟩ := c
    simp only [Cell.ofKey, Cell.mk.injEq] at *
    exact ⟨hwords, htag, trivial⟩
  rwa [← hcell]

/-! ## Growing -/

theorem stopsAt_stop {cells : List Cell} {stop : Cell → Bool} {tag : UInt64} {i : ℕ}
    (h : stopsAt cells stop tag = some i) : stop (cells.getD i {}) = true :=
  probe_stop h

theorem mem_moveCell {cells : List Cell} {cell c : Cell} (h : c ∈ moveCell cells cell) :
    c ∈ cells ∨ c = cell := by
  rw [moveCell] at h
  split at h
  · exact .inl h
  · split at h
    · exact List.mem_or_eq_of_mem_set h
    · exact .inl h

/-- Nothing comes into a table that grows. -/
theorem holds_of_rehash {t : SmallTable} {n : ℕ} {w : List ℤ} {v : Vn} (h : (t.rehash n).Holds w v) :
    t.Holds w v := by
  obtain ⟨h0, hw, hmem⟩ := h
  refine ⟨h0, hw, ?_⟩
  have hcells : ∀ (old new : List Cell), ∀ c ∈ old.foldl moveCell new, c ∈ old ∨ c ∈ new := by
    intro old
    induction old with
    | nil => exact fun new c hc => .inr hc
    | cons cell old ih =>
      intro new c hc
      rcases ih _ c hc with hc | hc
      · exact .inl (List.mem_cons_of_mem _ hc)
      · rcases mem_moveCell hc with hc | rfl
        · exact .inr hc
        · exact .inl (List.mem_cons_self ..)
  rcases hcells t.cells _ _ hmem with hc | hc
  · exact hc
  · have hempty := List.eq_of_mem_replicate hc
    exact absurd (congrArg Cell.value hempty) h0

theorem holds_of_grown {t : SmallTable} {w : List ℤ} {v : Vn} (h : t.grown.Holds w v) : t.Holds w v := by
  rw [grown] at h
  split at h
  · exact holds_of_rehash h
  · exact h

theorem holds_of_reserve {entries : ℕ} {w : List ℤ} {v : Vn}
    (h : (({} : SmallTable).reserve entries).Holds w v) : False := by
  have hempty : ({} : SmallTable).Holds w v := by
    rw [reserve] at h
    split at h
    · exact holds_of_rehash h
    · exact h
  exact List.not_mem_nil hempty.2.2

/-- What a lookup answers, and what the table holds after it. -/
theorem findOrInsert_spec (t : SmallTable) {w : List ℤ} (hw : w.length ≤ kWords) (fresh : Vn) :
    (t.Holds w (t.findOrInsert w fresh).1 ∨ (t.findOrInsert w fresh).1 = fresh) ∧
      ∀ w' v', (t.findOrInsert w fresh).2.Holds w' v' →
        t.Holds w' v' ∨ w' = w ∧ v' = fresh ∧ (t.findOrInsert w fresh).1 = fresh := by
  rw [findOrInsert]
  dsimp only
  split
  · rename_i at_ hstop
    have hstop := stopsAt_stop hstop
    split
    · refine ⟨.inr rfl, ?_⟩
      rintro w' v' ⟨h0, hw', hmem⟩
      rcases List.mem_or_eq_of_mem_set hmem with hmem | heq
      · exact .inl (holds_of_grown ⟨h0, hw', hmem⟩)
      · exact .inr ⟨ofKey_inj hw' hw (congrArg Cell.tag heq) (congrArg Cell.w heq),
          congrArg Cell.value heq, rfl⟩
    · rename_i hvalue
      have hsame : (t.grown.cells.getD at_ {}).tag = (Cell.ofKey w fresh).tag ∧
          (t.grown.cells.getD at_ {}).w = (Cell.ofKey w fresh).w := by
        rw [Bool.or_eq_true, beq_iff_eq, Bool.and_eq_true, beq_iff_eq, beq_iff_eq] at hstop
        exact hstop.resolve_left hvalue
      have hmem : t.grown.cells.getD at_ {} ∈ t.grown.cells := by
        rcases Nat.lt_or_ge at_ t.grown.cells.length with hlt | hge
        · rw [List.getD_eq_getElem _ _ hlt]
          exact List.getElem_mem hlt
        · rw [List.getD_eq_default _ _ hge] at hvalue
          exact absurd rfl hvalue
      exact ⟨.inl (holds_of_grown (holds_of_cell hmem hvalue hw hsame.1 hsame.2)),
        fun w' v' h => .inl (holds_of_grown h)⟩
  · exact ⟨.inr rfl, fun w' v' h => .inl (holds_of_grown h)⟩

/-! ## The probe ends -/

/-- The cells in use. -/
def occupied (cells : List Cell) : ℕ := cells.countP fun c => c.value != 0

/-- A power of two many cells, at most three quarters of them in use. -/
structure WellFormed (t : SmallTable) : Prop where
  size : t.cells = [] ∨ ∃ k, t.cells.length = 2 ^ k
  used_eq : t.used = occupied t.cells
  load : 4 * t.used ≤ 3 * t.cells.length

theorem stopsAt_isSome {cells : List Cell} {k : ℕ} (hk : cells.length = 2 ^ k)
    (hfree : occupied cells < cells.length) {p : Cell → Bool}
    (hstop : ∀ c, c.value = 0 → p c = true) (tag : UInt64) :
    ∃ i < cells.length, stopsAt cells p tag = some i := by
  obtain ⟨i, hi, hempty⟩ := exists_of_countP_lt hfree
  have hstart : tag.toNat &&& (2 ^ k - 1) < 2 ^ k := by
    rw [Nat.and_two_pow_sub_one_eq_mod]
    exact Nat.mod_lt _ (Nat.two_pow_pos k)
  have hsome : (stopsAt cells p tag).isSome = true := by
    rw [stopsAt, hk]
    apply probe_isSome hstart (hk ▸ hi)
    rw [List.getD_eq_getElem _ _ hi]
    apply hstop
    exact bne_eq_false_iff_eq.1 hempty
  obtain ⟨j, hj⟩ := Option.isSome_iff_exists.1 hsome
  refine ⟨j, ?_, hj⟩
  rw [stopsAt, hk] at hj
  rw [hk]
  exact probe_lt hstart hj

/-- A cell in use put where none was. -/
theorem occupied_set {cells : List Cell} {i : ℕ} (hi : i < cells.length)
    (hfree : (cells.getD i {}).value = 0) {cell : Cell} (hcell : cell.value ≠ 0) :
    occupied (cells.set i cell) = occupied cells + 1 := by
  rw [List.getD_eq_getElem _ _ hi] at hfree
  rw [occupied, List.countP_set hi, if_neg (by simp [hfree]), if_pos (by simp [hcell]), occupied,
    Nat.sub_zero]

theorem moveCell_spec {cells : List Cell} {k : ℕ} (hk : cells.length = 2 ^ k) (cell : Cell)
    (hroom : occupied cells < 2 ^ k) :
    (moveCell cells cell).length = 2 ^ k ∧
      occupied (moveCell cells cell) = occupied cells + occupied [cell] := by
  rw [moveCell]
  split
  · rename_i h0
    refine ⟨hk, ?_⟩
    simp [occupied, h0]
  · rename_i h0
    obtain ⟨i, hi, hstop⟩ := stopsAt_isSome hk (hk ▸ hroom) (p := fun c => c.value == 0)
      (fun c hc => beq_iff_eq.2 hc) cell.tag
    rw [hstop]
    refine ⟨by rw [List.length_set, hk], ?_⟩
    rw [occupied_set hi (beq_iff_eq.1 (stopsAt_stop hstop)) h0]
    simp [occupied, h0]

theorem foldl_moveCell (old : List Cell) {c : List Cell} {k : ℕ} (hk : c.length = 2 ^ k)
    (hroom : occupied c + occupied old < 2 ^ k) :
    (old.foldl moveCell c).length = 2 ^ k ∧
      occupied (old.foldl moveCell c) = occupied c + occupied old := by
  induction old generalizing c with
  | nil => exact ⟨hk, rfl⟩
  | cons cell old ih =>
    have hsplit : occupied (cell :: old) = occupied [cell] + occupied old := by
      rw [occupied, occupied, occupied, ← List.countP_append, List.singleton_append]
    rw [hsplit] at hroom
    obtain ⟨hlen, hocc⟩ := moveCell_spec hk cell (by omega)
    obtain ⟨hlen', hocc'⟩ := ih hlen (by omega)
    exact ⟨hlen', by rw [List.foldl_cons, hocc', hocc, hsplit, Nat.add_assoc]⟩

theorem WellFormed.rehash {t : SmallTable} (h : t.WellFormed) {k : ℕ} (hroom : 4 * t.used < 3 * 2 ^ k) :
    (t.rehash (2 ^ k)).WellFormed ∧ (t.rehash (2 ^ k)).cells.length = 2 ^ k := by
  have hzero : occupied (List.replicate (2 ^ k) {}) = 0 := by
    rw [occupied, List.countP_replicate, if_neg (by decide)]
  obtain ⟨hlen, hocc⟩ := foldl_moveCell t.cells (c := List.replicate (2 ^ k) {})
    List.length_replicate (by rw [hzero, ← h.used_eq]; omega)
  refine ⟨⟨.inr ⟨k, hlen⟩, ?_, ?_⟩, hlen⟩
  · change t.used = _
    rw [SmallTable.rehash, hocc, hzero, Nat.zero_add, h.used_eq]
  · change 4 * t.used ≤ 3 * _
    rw [SmallTable.rehash, hlen]
    omega

/-- After growing there is room for one more key. -/
theorem WellFormed.grown {t : SmallTable} (h : t.WellFormed) :
    t.grown.WellFormed ∧ (∃ k, t.grown.cells.length = 2 ^ k) ∧
      4 * (t.grown.used + 1) ≤ 3 * t.grown.cells.length := by
  have hload := h.load
  rw [SmallTable.grown]
  split
  · rename_i hfull
    obtain ⟨k, hk, hroom⟩ : ∃ k, (if t.cells = [] then 256 else 2 * t.cells.length) = 2 ^ k ∧
        4 * (t.used + 1) ≤ 3 * 2 ^ k := by
      rcases h.size with hnil | ⟨k, hk⟩
      · refine ⟨8, if_pos hnil, ?_⟩
        rw [hnil, List.length_nil] at hload
        omega
      · have hpos := Nat.two_pow_pos k
        refine ⟨k + 1, ?_, ?_⟩
        · rw [if_neg, hk, Nat.pow_succ, Nat.mul_comm]
          rintro hnil
          rw [hnil, List.length_nil] at hk
          omega
        · rw [Nat.pow_succ]
          omega
    rw [hk]
    obtain ⟨hwf, hlen⟩ := h.rehash (k := k) (by omega)
    refine ⟨hwf, ⟨k, hlen⟩, ?_⟩
    rw [hlen]
    exact hroom
  · rename_i hfull
    refine ⟨h, ?_, by omega⟩
    rcases h.size with hnil | hk
    · rw [hnil, List.length_nil] at hfull
      omega
    · exact hk

/-- The lookup ends, and leaves the table as it should be. -/
theorem WellFormed.findOrInsert {t : SmallTable} (h : t.WellFormed) (w : List ℤ) {fresh : Vn}
    (hfresh : fresh ≠ 0) :
    (stopsAt t.grown.cells (fun c => c.value == 0 || (c.tag == (Cell.ofKey w fresh).tag &&
      c.w == (Cell.ofKey w fresh).w)) (Cell.ofKey w fresh).tag).isSome = true ∧
      (t.findOrInsert w fresh).2.WellFormed := by
  obtain ⟨hwf, ⟨k, hk⟩, hroom⟩ := h.grown
  have hfree : occupied t.grown.cells < t.grown.cells.length := by
    rw [← hwf.used_eq]
    omega
  obtain ⟨i, hi, hstop⟩ := stopsAt_isSome hk hfree
    (p := fun c => c.value == 0 || (c.tag == (Cell.ofKey w fresh).tag &&
      c.w == (Cell.ofKey w fresh).w))
    (fun c hc => by rw [hc]; rfl) (Cell.ofKey w fresh).tag
  refine ⟨by rw [hstop]; rfl, ?_⟩
  rw [SmallTable.findOrInsert]
  dsimp only
  rw [hstop]
  dsimp only
  split
  · rename_i h0
    refine ⟨.inr ⟨k, by rw [List.length_set, hk]⟩, ?_, ?_⟩
    · rw [occupied_set hi h0 hfresh, hwf.used_eq]
    · rw [List.length_set]
      exact hroom
  · exact hwf

theorem reserveCells_pow (entries fuel k : ℕ) : ∃ j, reserveCells entries fuel (2 ^ k) = 2 ^ j := by
  induction fuel generalizing k with
  | zero => exact ⟨k, rfl⟩
  | succ fuel ih =>
    rw [reserveCells]
    split
    · rw [Nat.mul_comm, ← Nat.pow_succ]
      exact ih (k + 1)
    · exact ⟨k, rfl⟩

theorem WellFormed.reserve {t : SmallTable} (h : t.WellFormed) (entries : ℕ) :
    (t.reserve entries).WellFormed := by
  have hload := h.load
  rw [SmallTable.reserve]
  split
  · rename_i hmore
    obtain ⟨j, hj⟩ := reserveCells_pow entries entries 8
    rw [show (256 : ℕ) = 2 ^ 8 from rfl, hj] at hmore ⊢
    exact (h.rehash (by omega)).1
  · exact h

/-! ## Numbers for a run of keys -/

/-- `intern` and `row`: a number for a key, with the next number to give. -/
def issue (key : List ℤ) (st : SmallTable × Vn) : Vn × SmallTable × Vn :=
  let r := st.1.findOrInsert key st.2
  (r.1, r.2, if r.1 = st.2 then st.2 + 1 else st.2)

/-- The keys that have been given a number, with it. -/
structure Issued (st : SmallTable × Vn) (issued : List (List ℤ × Vn)) : Prop where
  wellFormed : st.1.WellFormed
  next_pos : 0 < st.2
  lt : ∀ key v, (key, v) ∈ issued → v < st.2
  holds : ∀ key v, st.1.Holds key v → (key, v) ∈ issued
  inj : ∀ key key' v, (key, v) ∈ issued → (key', v) ∈ issued → key = key'

theorem Issued.step {st : SmallTable × Vn} {issued : List (List ℤ × Vn)} (h : Issued st issued)
    {key : List ℤ} (hkey : key.length ≤ kWords) :
    Issued (issue key st).2 (issued ++ [(key, (issue key st).1)]) := by
  obtain ⟨hfound, hholds⟩ := st.1.findOrInsert_spec hkey st.2
  have hwf := (h.wellFormed.findOrInsert key h.next_pos.ne').2
  have hold : (issue key st).1 = st.2 ∨ (key, (issue key st).1) ∈ issued :=
    hfound.symm.imp id fun hf => h.holds _ _ hf
  have hnext : st.2 ≤ (issue key st).2.2 ∧
      ((issue key st).1 = st.2 → (issue key st).2.2 = st.2 + 1) := by
    rw [SmallTable.issue]
    dsimp only
    split
    · exact ⟨(Int.lt_succ st.2).le, fun _ => rfl⟩
    · exact ⟨le_rfl, fun h => absurd h ‹_›⟩
  refine ⟨hwf, h.next_pos.trans_le hnext.1, ?_, ?_, ?_⟩
  · intro key' v hv
    rcases List.mem_append.1 hv with hpast | hnow
    · exact (h.lt _ _ hpast).trans_le hnext.1
    · obtain ⟨rfl, rfl⟩ := Prod.mk.inj (List.mem_singleton.1 hnow)
      rcases hold with hfresh | hmem
      · rw [hnext.2 hfresh, hfresh]
        exact Int.lt_succ st.2
      · exact (h.lt _ _ hmem).trans_le hnext.1
  · intro key' v hv
    rcases hholds key' v hv with hpast | ⟨rfl, rfl, hfresh⟩
    · exact List.mem_append_left _ (h.holds _ _ hpast)
    · apply List.mem_append_right
      rw [List.mem_singleton]
      exact Prod.ext rfl hfresh.symm
  · have hnew : ∀ key' v, (key', v) ∈ issued → v = (issue key st).1 → key' = key := by
      intro key' v hv hvv
      subst hvv
      rcases hold with hfresh | hmem
      · exact absurd (hfresh ▸ h.lt _ _ hv) (lt_irrefl _)
      · exact h.inj _ _ _ hv hmem
    intro key' key'' v hv hv'
    rw [List.mem_append, List.mem_singleton, Prod.mk.injEq] at hv hv'
    rcases hv with hv | ⟨hk, hv⟩
    · rcases hv' with hv' | ⟨hk', hv'⟩
      · exact h.inj _ _ v hv hv'
      · rw [hk', hnew key' v hv hv']
    · rcases hv' with hv' | ⟨hk', -⟩
      · rw [hk, hnew key'' v hv' hv]
      · rw [hk, hk']

theorem issued_reserve (entries : ℕ) {next : Vn} (hnext : 0 < next) :
    Issued (({} : SmallTable).reserve entries, next) [] where
  wellFormed := by
    apply WellFormed.reserve
    exact ⟨.inl rfl, rfl, le_rfl⟩
  next_pos := hnext
  lt _ _ h := absurd h List.not_mem_nil
  holds _ _ h := (holds_of_reserve h).elim
  inj _ _ _ h := absurd h List.not_mem_nil

end SmallTable

end Stanli.Collapse
