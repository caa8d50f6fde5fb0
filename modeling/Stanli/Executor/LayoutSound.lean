import Stanli.Executor.Layout
import Stanli.Passes.CseGradient

/-!
# The storage layout is sound

Each loop of `bind_` packs the slots it places (`Lib/Packing`): the value arena holds the parameters
and then the slots that ops write and that share no primal, the data buffer the slots nobody writes,
the adjoint arena the parameters and then the other active slots, the scratch arena the ops that are
not cached.  Slots that share a primal have one range between them; this is what is wanted as long as
the shared slot has room for all of them (`PrimalsOwned`, which `cse` establishes).
-/

namespace Stanli

open Packing

variable {U : Type*} {g : Graph U} {B : BindEnv U} {stale : ℕ → ℕ} {L : Layout}

/-! ## The statement -/

/-- How many parameters the slots in front of `i` hold. -/
def Graph.paramsBefore (g : Graph U) (i : ℕ) : ℕ :=
  (((List.range i).filter g.isParam).map g.len).sum

/-- How much scratch op `i` asks for. -/
def Graph.scratchLen (g : Graph U) (B : BindEnv U) (i : ℕ) : ℕ :=
  ((g.ops[i]?).map fun op => (B.scratchSize op g.slots).toNat).getD 0

/-- Op `j` is the one whose scratch the cached op `i` shares: the last one in front of it that names
itself as the primal source of the slot op `i` names. -/
def Graph.ScratchSource (g : Graph U) (i j : ℕ) : Prop :=
  ∃ op o s, g.ops[i]? = some op ∧ op.primalSource = some s ∧ j < i ∧ g.ops[j]? = some o ∧
    o.out = s ∧ o.primalSource = some s ∧
    ∀ k o', j < k → k < i → g.ops[k]? = some o' → ¬(o'.out = s ∧ o'.primalSource = some s)

/-- A layout without collisions, where the slots that `shares` relates may have a range of the value
arena between them. -/
structure Graph.LaidOut (g : Graph U) (B : BindEnv U) (L : Layout) (shares : ℕ → ℕ → Prop) :
    Prop where
  /-- The parameters lie one behind the other, at the front of both arenas. -/
  param : ∀ i < g.slots.length, g.isParam i = true →
    L.slotData B i = .value (g.paramsBefore i) ∧ L.adjointOffset i = some (g.paramsBefore i)
  nParams : L.nParams = g.paramsBefore g.slots.length
  value_inside : ∀ i < g.slots.length, ∀ o, L.slotData B i = .value o →
    o + g.len i ≤ L.valueSize
  value_disjoint : ∀ i < g.slots.length, ∀ j < g.slots.length, ∀ o o', i ≠ j → ¬shares i j →
    L.slotData B i = .value o → L.slotData B j = .value o' →
    Disjoint (cells o (g.len i)) (cells o' (g.len j))
  data_inside : ∀ i o, L.slotData B i = .data o → o + g.len i ≤ L.dataSize
  data_disjoint : ∀ i j o o', i ≠ j → L.slotData B i = .data o → L.slotData B j = .data o' →
    Disjoint (cells o (g.len i)) (cells o' (g.len j))
  /-- Parameters and written slots have an adjoint, cached primals included. -/
  adjoint_some : ∀ i < g.slots.length, (g.isParam i || g.written i) = true →
    (L.adjointOffset i).isSome
  adjoint_inside : ∀ i o, L.adjointOffset i = some o → o + g.len i ≤ L.adjointSize
  adjoint_disjoint : ∀ i j o o', i ≠ j → L.adjointOffset i = some o → L.adjointOffset j = some o' →
    Disjoint (cells o (g.len i)) (cells o' (g.len j))
  /-- What an op writes lies in the private value arena. -/
  writes_private : ∀ op ∈ g.ops, ∀ s ∈ op.outs, s < g.slots.length → ∃ o, L.slotData B s = .value o
  scratch_inside : ∀ i op o, g.ops[i]? = some op → op.cached = false →
    L.scratchOffsets[i]? = some o → o + g.scratchLen B i ≤ L.scratchSize
  scratch_disjoint : ∀ i j op op' o o', i ≠ j → g.ops[i]? = some op → g.ops[j]? = some op' →
    op.cached = false → op'.cached = false → L.scratchOffsets[i]? = some o →
    L.scratchOffsets[j]? = some o' →
    Disjoint (cells o (g.scratchLen B i)) (cells o' (g.scratchLen B j))
  scratch_shared : ∀ i op, g.ops[i]? = some op → op.cached = true →
    ∃ j o, g.ScratchSource i j ∧ L.scratchOffsets[i]? = some o ∧ L.scratchOffsets[j]? = some o
  /-- The context of an op has the places of its slots and its scratch. -/
  contexts : ∀ (i : ℕ) (op : Op U), g.ops[i]? = some op → ∃ o, L.scratchOffsets[i]? = some o ∧
    (L.contexts B g)[i]? = some (L.makeCtx B g op o)

/-- One of the slots is a cached primal of the other. -/
def Graph.IsPrimalOf (g : Graph U) (i j : ℕ) : Prop :=
  g.primalFrom i = some j ∨ g.primalFrom j = some i

/-- The slots use the value buffer of the same primal: one is a cached primal of the other, or both
are cached primals of one slot. -/
def Graph.SharePrimal (g : Graph U) (i j : ℕ) : Prop := g.home i = g.home j

/-- Cached primals as `cse` leaves them: a slot that has one is no parameter, and the slot whose value
it shares has a range of its own that is long enough. -/
structure Graph.PrimalsOwned (g : Graph U) : Prop where
  notParam : ∀ s t, g.primalFrom s = some t → g.isParam s = false
  source : ∀ s t, g.primalFrom s = some t → t < g.slots.length ∧ g.primalFrom t = none
  len : ∀ s t, g.primalFrom s = some t → g.len s ≤ g.len t

/-! ## Growing an arena -/

lemma BindEnv.checkedSize_ok {a n : ℕ} {b : ℤ} (h : B.checkedSize a b = .ok n) :
    n = a + b.toNat := by
  unfold checkedSize at h
  split at h
  · cases h
  · exact (Except.ok.inj h).symm

/-- A round that grows an arena ends behind the new block. -/
lemma BindEnv.checkedSize_map {σ : Type*} {a n : ℕ} {f : ℕ → σ} {s : σ}
    (h : (B.checkedSize a n).map f = .ok s) : s = f (a + n) := by
  cases hc : B.checkedSize a n with
  | error e =>
    rw [hc] at h
    cases h
  | ok m =>
    rw [hc] at h
    obtain rfl := checkedSize_ok hc
    exact (Except.ok.inj h).symm

/-! ## Values and data -/

/-- The slots that get a range of the value arena from the second loop. -/
def Graph.ownsValue (g : Graph U) (B : BindEnv U) (i : ℕ) : Bool :=
  !g.isParam i && !B.borrowed i && g.written i && (g.primalFrom i).isNone

/-- The slots that get a range of the data buffer. -/
def Graph.ownsData (g : Graph U) (B : BindEnv U) (i : ℕ) : Bool :=
  !g.isParam i && !B.borrowed i && !g.written i

/-- The value arena: the parameters first. -/
def Graph.paramPacking (g : Graph U) : Packing ℕ :=
  placeAll g.len g.isParam (List.range g.slots.length) (start 0)

/-- The whole value arena. -/
def Graph.valuePacking (g : Graph U) (B : BindEnv U) : Packing ℕ :=
  placeAll g.len (g.ownsValue B) (List.range g.slots.length) g.paramPacking

/-- The data buffer. -/
def Graph.dataPacking (g : Graph U) (B : BindEnv U) : Packing ℕ :=
  placeAll g.len (g.ownsData B) (List.range g.slots.length) (start 0)

/-- The value part of a layout in progress follows a packing of parameters and written slots. -/
structure Graph.ValuesPacked (g : Graph U) (st : ValueLayout) (p : Packing ℕ) : Prop where
  total : st.off = p.total
  offset : ∀ i o, p.offset i = some o → st.offset i = o
  owned : ∀ i o, p.offset i = some o → (g.isParam i || g.written i) = true

/-- The data part of a layout in progress follows a packing. -/
structure DataPacked (st : ValueLayout) (p : Packing ℕ) : Prop where
  total : st.dataSize = p.total
  offset : st.dataOffset = p.offset

/-- Placing a slot of the value arena. -/
lemma Graph.ValuesPacked.place {st : ValueLayout} {p : Packing ℕ} (h : g.ValuesPacked st p) {i : ℕ}
    (hi : (g.isParam i || g.written i) = true) :
    g.ValuesPacked { st with offset := Function.update st.offset i st.off, off := st.off + g.len i }
      (p.place g.len i) := by
  refine ⟨by rw [h.total]; rfl, fun j o hj => ?_, fun j o hj => ?_⟩
  · by_cases hji : j = i
    · subst hji
      rw [place_offset_self] at hj
      obtain rfl := Option.some.inj hj
      exact (Function.update_self ..).trans h.total
    · rw [place_offset_of_ne hji] at hj
      exact (Function.update_of_ne hji ..).trans (h.offset j o hj)
  · by_cases hji : j = i
    · rwa [hji]
    · rw [place_offset_of_ne hji] at hj
      exact h.owned j o hj

/-- An offset given to a slot that is neither a parameter nor written changes nothing in the value
arena. -/
lemma Graph.ValuesPacked.skip {st : ValueLayout} {p : Packing ℕ} (h : g.ValuesPacked st p) {i o : ℕ}
    (hi : (g.isParam i || g.written i) = false) (d : ℕ → Option ℕ) (n : ℕ) :
    g.ValuesPacked { st with offset := Function.update st.offset i o, dataOffset := d, dataSize := n }
      p := by
  refine ⟨h.total, fun j o' hj => ?_, h.owned⟩
  have hne : j ≠ i := by
    rintro rfl
    simpa [hi] using h.owned j o' hj
  exact (Function.update_of_ne hne ..).trans (h.offset j o' hj)

lemma Graph.bindParam_values {st st' : ValueLayout} {p : Packing ℕ} {i : ℕ}
    (h : g.ValuesPacked st p) (hs : g.bindParam B st i = .ok st') :
    g.ValuesPacked st' (if g.isParam i then p.place g.len i else p) := by
  unfold bindParam at hs
  by_cases hp : g.isParam i = true
  · rw [if_pos hp] at hs ⊢
    obtain rfl := BindEnv.checkedSize_map hs
    exact h.place (by simp [hp])
  · rw [if_neg hp] at hs ⊢
    obtain rfl := Except.ok.inj hs
    exact h

lemma Graph.bindParam_data {st st' : ValueLayout} {p : Packing ℕ} {i : ℕ}
    (h : DataPacked st p) (hs : g.bindParam B st i = .ok st') : DataPacked st' p := by
  unfold bindParam at hs
  split at hs
  · obtain rfl := BindEnv.checkedSize_map hs
    exact ⟨h.total, h.offset⟩
  · obtain rfl := Except.ok.inj hs
    exact h

/-- What one round of the second loop can do. -/
lemma Graph.bindSlot_cases {st st' : ValueLayout} {i : ℕ} (hs : g.bindSlot B st i = .ok st') :
    (B.borrowed i = true → (g.isParam i || g.written i) = false) ∧
    (g.ownsValue B i = false ∧ g.ownsData B i = false ∧ st' = st ∨
      g.ownsValue B i = false ∧ g.ownsData B i = false ∧ (g.isParam i || g.written i) = false ∧
        st' = { st with offset := Function.update st.offset i 0 } ∨
      g.ownsValue B i = true ∧ g.ownsData B i = false ∧
        st' = { st with
          offset := Function.update st.offset i st.off
          off := st.off + g.len i } ∨
      g.ownsValue B i = false ∧ g.ownsData B i = true ∧ st' = { st with
        offset := Function.update st.offset i st.dataSize
        dataOffset := Function.update st.dataOffset i (some st.dataSize)
        dataSize := st.dataSize + g.len i }) := by
  unfold bindSlot at hs
  by_cases hthrow : (B.borrowed i && (g.isParam i || g.written i)) = true
  · rw [if_pos hthrow] at hs
    cases hs
  rw [if_neg hthrow] at hs
  refine ⟨fun hb => by simpa [hb] using hthrow, ?_⟩
  unfold ownsValue ownsData
  by_cases hp : g.isParam i = true
  · rw [if_pos hp] at hs
    obtain rfl := Except.ok.inj hs
    exact Or.inl (by simp [hp])
  rw [if_neg hp, Bool.not_eq_true] at *
  by_cases hb : B.borrowed i = true
  · rw [if_pos hb] at hs
    obtain rfl := Except.ok.inj hs
    have hw : g.written i = false := by simpa [hb, hp] using hthrow
    exact Or.inr (Or.inl (by simp [hp, hb, hw]))
  rw [if_neg hb] at hs
  rw [Bool.not_eq_true] at hb
  by_cases hw : g.written i = true
  · rw [if_pos hw] at hs
    by_cases hf : (g.primalFrom i).isSome = true
    · rw [if_pos hf] at hs
      obtain rfl := Except.ok.inj hs
      exact Or.inl ⟨by simp [Option.isNone_eq_false_iff.2 hf], by simp [hw], rfl⟩
    · rw [if_neg hf] at hs
      obtain rfl := BindEnv.checkedSize_map hs
      rw [Bool.not_eq_true, Option.isSome_eq_false_iff] at hf
      exact Or.inr (Or.inr (Or.inl ⟨by simp [hp, hb, hw, hf], by simp [hw], rfl⟩))
  · rw [if_neg hw] at hs
    rw [Bool.not_eq_true] at hw
    obtain rfl := BindEnv.checkedSize_map hs
    exact Or.inr (Or.inr (Or.inr ⟨by simp [hw], by simp [hp, hb, hw], rfl⟩))

lemma Graph.bindSlot_values {st st' : ValueLayout} {p : Packing ℕ} {i : ℕ}
    (h : g.ValuesPacked st p) (hs : g.bindSlot B st i = .ok st') :
    g.ValuesPacked st' (if g.ownsValue B i then p.place g.len i else p) := by
  obtain ⟨-, ⟨hv, -, rfl⟩ | ⟨hv, -, ho, rfl⟩ | ⟨hv, -, rfl⟩ | ⟨hv, hd, rfl⟩⟩ := bindSlot_cases hs
  · simpa [hv] using h
  · simpa [hv] using h.skip ho st.dataOffset st.dataSize
  · rw [if_pos hv]
    simp only [ownsValue, Bool.and_eq_true] at hv
    exact h.place (by simp [hv.1.2])
  · simp only [ownsData, Bool.and_eq_true, Bool.not_eq_true'] at hd
    simpa [hv] using h.skip (o := st.dataSize) (by simp [hd.1.1, hd.2])
      (Function.update st.dataOffset i (some st.dataSize)) (st.dataSize + g.len i)

lemma Graph.bindSlot_data {st st' : ValueLayout} {p : Packing ℕ} {i : ℕ}
    (h : DataPacked st p) (hs : g.bindSlot B st i = .ok st') :
    DataPacked st' (if g.ownsData B i then p.place g.len i else p) := by
  obtain ⟨-, ⟨-, hd, rfl⟩ | ⟨-, hd, -, rfl⟩ | ⟨-, hd, rfl⟩ | ⟨-, hd, rfl⟩⟩ := bindSlot_cases hs
  · simpa [hd] using h
  · simpa [hd] using ⟨h.total, h.offset⟩
  · simpa [hd] using ⟨h.total, h.offset⟩
  · rw [if_pos hd]
    exact ⟨by rw [h.total]; rfl, by rw [h.offset, h.total]; rfl⟩

/-! ## Cached primals -/

/-- After the copying loop a slot without cached primal has its own offset, and a cached primal that
of its source, as long as that is not itself a cached primal. -/
lemma Graph.foldl_sharePrimal (l : List ℕ) (offset : ℕ → ℕ) :
    (∀ i, g.primalFrom i = none → l.foldl g.sharePrimal offset i = offset i) ∧
    (∀ i ∈ l, ∀ t, g.primalFrom i = some t → g.primalFrom t = none →
      l.foldl g.sharePrimal offset i = offset t) := by
  induction l generalizing offset with
  | nil => exact ⟨fun _ _ => rfl, fun i hi => by simp at hi⟩
  | cons a l ih =>
    have hkeep : ∀ i, g.primalFrom i = none → g.sharePrimal offset a i = offset i := by
      intro i hi
      unfold sharePrimal
      cases ha : g.primalFrom a with
      | none => rfl
      | some t =>
        refine Function.update_of_ne ?_ _ _
        rintro rfl
        simp [hi] at ha
    rw [List.foldl_cons]
    refine ⟨fun i hi => ?_, fun i hi t ht htn => ?_⟩
    · rw [(ih _).1 i hi, hkeep i hi]
    · by_cases hm : i ∈ l
      · rw [(ih _).2 i hm t ht htn, hkeep t htn]
      · obtain rfl : i = a := (List.mem_cons.1 hi).resolve_right hm
        have hlast : ∀ (m : List ℕ) (f : ℕ → ℕ), i ∉ m → m.foldl g.sharePrimal f i = f i := by
          intro m
          induction m with
          | nil => exact fun _ _ => rfl
          | cons b m ihm =>
            intro f hf
            rw [List.mem_cons, not_or] at hf
            rw [List.foldl_cons, ihm _ hf.2]
            unfold sharePrimal
            cases g.primalFrom b with
            | none => rfl
            | some u => exact Function.update_of_ne hf.1 _ _
        rw [hlast l _ hm]
        simp [sharePrimal, ht]

lemma Graph.home_of_none {s : ℕ} (h : g.primalFrom s = none) : g.home s = s := by
  change (g.primalFrom s).getD s = s
  rw [h]
  rfl

lemma Graph.home_of_some {s t : ℕ} (h : g.primalFrom s = some t) : g.home s = t := by
  change (g.primalFrom s).getD s = t
  rw [h]
  rfl

/-- A slot with a cached primal is written by a cached op that names its source. -/
lemma Graph.exists_cached {s t : ℕ} (h : g.primalFrom s = some t) :
    ∃ op ∈ g.ops, op.cached = true ∧ op.out = s ∧ op.primalSource = some t := by
  unfold primalFrom at h
  obtain ⟨op, hop, ht⟩ := Option.bind_eq_some_iff.1 h
  have hm := List.mem_of_getLast? hop
  rw [List.mem_filter, Bool.and_eq_true, beq_iff_eq] at hm
  exact ⟨op, hm.1, hm.2.1, hm.2.2, ht⟩

/-! ## Adjoints -/

/-- The adjoint arena: the parameters first. -/
def Graph.adjointPacking (g : Graph U) : Packing ℕ :=
  placeAll g.len g.ownsAdjoint (List.range g.slots.length) g.paramPacking

/-- An adjoint arena in progress follows a packing. -/
structure AdjointPacked (st : AdjointLayout) (p : Packing ℕ) : Prop where
  total : st.size = p.total
  offset : st.offset = p.offset

lemma Graph.bindAdjoint_packed {wanted : ℕ → Bool} {st st' : AdjointLayout} {p : Packing ℕ} {i : ℕ}
    (h : AdjointPacked st p) (hs : g.bindAdjoint B wanted st i = .ok st') :
    AdjointPacked st' (if wanted i then p.place g.len i else p) := by
  unfold bindAdjoint at hs
  split at hs
  · rename_i hw
    obtain rfl := BindEnv.checkedSize_map hs
    rw [if_pos hw]
    exact ⟨by rw [h.total]; rfl, by rw [h.offset, h.total]; rfl⟩
  · rename_i hw
    obtain rfl := Except.ok.inj hs
    rwa [if_neg hw]

/-! ## Scratch -/

/-- The ops that get scratch of their own. -/
def Graph.ownsScratch (g : Graph U) (i : ℕ) : Bool := (g.ops[i]?).any fun op => !op.cached

/-- The scratch of the first `n` ops. -/
def Graph.scratchPacking (g : Graph U) (B : BindEnv U) (n : ℕ) : Packing ℕ :=
  placeAll (g.scratchLen B) g.ownsScratch (List.range n) (start 0)

lemma Graph.scratchPacking_succ (n : ℕ) : g.scratchPacking B (n + 1) =
    if g.ownsScratch n then (g.scratchPacking B n).place (g.scratchLen B) n
    else g.scratchPacking B n := by
  unfold scratchPacking placeAll
  rw [List.range_succ, List.foldl_append]
  rfl

/-- What the first `n` rounds over the ops leave. -/
structure Graph.ScratchPacked (g : Graph U) (B : BindEnv U) (n : ℕ) (st : ScratchLayout) : Prop where
  length : st.offsets.length = n
  total : st.size = (g.scratchPacking B n).total
  offset : ∀ i o, (g.scratchPacking B n).offset i = some o → st.offsets[i]? = some o
  /-- The last op so far that names itself as the primal source of a slot. -/
  source : ∀ s j, st.source s = some j → j < n ∧
    (∃ o, g.ops[j]? = some o ∧ o.out = s ∧ o.primalSource = some s) ∧
    ∀ k o', j < k → k < n → g.ops[k]? = some o' → ¬(o'.out = s ∧ o'.primalSource = some s)
  cached : ∀ i < n, ∀ op, g.ops[i]? = some op → op.cached = true →
    ∃ j o, g.ScratchSource i j ∧ st.offsets[i]? = some o ∧ st.offsets[j]? = some o

lemma Op.cached_spec {op : Op U} (h : op.cached = true) :
    ∃ s, op.primalSource = some s ∧ s ≠ op.out := by
  unfold cached at h
  cases hs : op.primalSource with
  | none => simp [hs] at h
  | some s => exact ⟨s, rfl, by simpa [hs] using h⟩

lemma Op.ne_out_of_cached {op : Op U} (h : op.cached = true) : op.primalSource ≠ some op.out := by
  obtain ⟨s, hs, hne⟩ := cached_spec h
  rw [hs]
  exact fun he => hne (Option.some.inj he)

/-- A round over a cached op. -/
lemma Graph.ScratchPacked.step_cached {n j : ℕ} {st : ScratchLayout} {op : Op U}
    (h : g.ScratchPacked B n st) (hop : g.ops[n]? = some op) (hc : op.cached = true) {s : ℕ}
    (hs : op.primalSource = some s) (hj : st.source s = some j) :
    g.ScratchPacked B (n + 1) { st with offsets := st.offsets ++ [st.offsets.getD j 0] } := by
  have hp : g.scratchPacking B (n + 1) = g.scratchPacking B n := by
    rw [scratchPacking_succ, if_neg (by simp [ownsScratch, hop, hc])]
  obtain ⟨hjn, ⟨o, ho, hout, hprimal⟩, hlast⟩ := h.source s j hj
  have hold : ∀ i x : ℕ, st.offsets[i]? = some x →
      (st.offsets ++ [st.offsets.getD j 0])[i]? = some x := by
    intro i x hi
    rwa [List.getElem?_append_left (List.getElem?_eq_some_iff.1 hi).1]
  refine ⟨by simp [h.length], by rw [hp]; exact h.total, fun i x hi => ?_, fun s' j' hs' => ?_,
    fun i hi op' hop' hc' => ?_⟩
  · rw [hp] at hi
    exact hold i x (h.offset i x hi)
  · obtain ⟨hj', hself, hlast'⟩ := h.source s' j' hs'
    refine ⟨by omega, hself, fun k o' hjk hk ho' hbad => ?_⟩
    rcases Nat.lt_succ_iff_lt_or_eq.1 hk with hk | rfl
    · exact hlast' k o' hjk hk ho' hbad
    · obtain rfl := Option.some.inj (hop.symm.trans ho')
      exact op.ne_out_of_cached hc (by rw [hbad.1]; exact hbad.2)
  · rcases Nat.lt_succ_iff_lt_or_eq.1 hi with hi | rfl
    · obtain ⟨j', x, hsrc, h1, h2⟩ := h.cached i hi op' hop' hc'
      exact ⟨j', x, hsrc, hold i x h1, hold j' x h2⟩
    · have hget : st.offsets[j]? = some (st.offsets.getD j 0) := by
        rw [List.getD_eq_getElem?_getD, List.getElem?_eq_getElem (by rw [h.length]; omega)]
        rfl
      refine ⟨j, st.offsets.getD j 0, ⟨op, o, s, hop, hs, hjn, ho, hout, hprimal, hlast⟩, ?_,
        hold j _ hget⟩
      rw [← h.length, List.getElem?_append_right le_rfl]
      simp

/-- A round over an op with scratch of its own. -/
lemma Graph.ScratchPacked.step_owned {n : ℕ} {st : ScratchLayout} {op : Op U}
    (h : g.ScratchPacked B n st) (hop : g.ops[n]? = some op) (hc : op.cached = false) :
    g.ScratchPacked B (n + 1)
      { offsets := st.offsets ++ [st.size]
        size := st.size + (B.scratchSize op g.slots).toNat
        source := if op.primalSource = some op.out then
          Function.update st.source op.out (some st.offsets.length) else st.source } := by
  have hp : g.scratchPacking B (n + 1) = (g.scratchPacking B n).place (g.scratchLen B) n := by
    rw [scratchPacking_succ, if_pos (by simp [ownsScratch, hop, hc])]
  have hold : ∀ i x : ℕ, st.offsets[i]? = some x → (st.offsets ++ [st.size])[i]? = some x := by
    intro i x hi
    rwa [List.getElem?_append_left (List.getElem?_eq_some_iff.1 hi).1]
  have hlen : g.scratchLen B n = (B.scratchSize op g.slots).toNat := by simp [scratchLen, hop]
  refine ⟨by simp [h.length], ?_, fun i x hi => ?_, fun s j hs => ?_, fun i hi op' hop' hc' => ?_⟩
  · rw [hp, Packing.place, hlen, h.total]
  · rw [hp] at hi
    by_cases hin : i = n
    · subst hin
      rw [place_offset_self] at hi
      obtain rfl := Option.some.inj hi
      rw [List.getElem?_append_right h.length.le, h.length, Nat.sub_self, h.total]
      rfl
    · rw [place_offset_of_ne hin] at hi
      exact hold i x (h.offset i x hi)
  · dsimp only at hs
    by_cases hself : op.primalSource = some op.out
    · rw [if_pos hself] at hs
      by_cases hso : s = op.out
      · subst hso
        rw [Function.update_self, h.length] at hs
        obtain rfl := Option.some.inj hs
        exact ⟨by omega, ⟨op, hop, rfl, hself⟩, fun k o' h1 h2 => by omega⟩
      · rw [Function.update_of_ne hso] at hs
        obtain ⟨hj, hw, hlast⟩ := h.source s j hs
        refine ⟨by omega, hw, fun k o' hjk hk ho' hbad => ?_⟩
        rcases Nat.lt_succ_iff_lt_or_eq.1 hk with hk | rfl
        · exact hlast k o' hjk hk ho' hbad
        · obtain rfl := Option.some.inj (hop.symm.trans ho')
          exact hso hbad.1.symm
    · rw [if_neg hself] at hs
      obtain ⟨hj, hw, hlast⟩ := h.source s j hs
      refine ⟨by omega, hw, fun k o' hjk hk ho' hbad => ?_⟩
      rcases Nat.lt_succ_iff_lt_or_eq.1 hk with hk | rfl
      · exact hlast k o' hjk hk ho' hbad
      · obtain rfl := Option.some.inj (hop.symm.trans ho')
        exact hself (by rw [hbad.1]; exact hbad.2)
  · rcases Nat.lt_succ_iff_lt_or_eq.1 hi with hi | rfl
    · obtain ⟨j', x, hsrc, h1, h2⟩ := h.cached i hi op' hop' hc'
      exact ⟨j', x, hsrc, hold i x h1, hold j' x h2⟩
    · obtain rfl := Option.some.inj (hop.symm.trans hop')
      simp [hc] at hc'

lemma Graph.bindScratch_packed {n : ℕ} {st st' : ScratchLayout} {op : Op U}
    (h : g.ScratchPacked B n st) (hop : g.ops[n]? = some op) (hs : g.bindScratch B st op = .ok st') :
    g.ScratchPacked B (n + 1) st' := by
  unfold bindScratch at hs
  split at hs
  · cases hs
  · by_cases hc : op.cached = true
    · rw [if_pos hc] at hs
      obtain ⟨s, hprimal, -⟩ := op.cached_spec hc
      rw [hprimal, Option.getD_some] at hs
      cases hj : st.source s with
      | none =>
        rw [hj] at hs
        cases hs
      | some j =>
        rw [hj] at hs
        obtain rfl := Except.ok.inj hs
        exact h.step_cached hop hc hprimal hj
    · rw [if_neg hc] at hs
      rw [Bool.not_eq_true] at hc
      cases hsize : B.checkedSize st.size (B.scratchSize op g.slots) with
      | error e =>
        rw [hsize] at hs
        cases hs
      | ok m =>
        rw [hsize] at hs
        obtain rfl := BindEnv.checkedSize_ok hsize
        obtain rfl := Except.ok.inj hs
        exact h.step_owned hop hc

/-! ## Accepted graphs -/

/-- What an accepted graph's layout is made of. -/
structure Graph.Accepted (g : Graph U) (B : BindEnv U) (L : Layout) : Prop where
  nParams : L.nParams = g.paramPacking.total
  valueSize : L.valueSize = (g.valuePacking B).total
  offset : ∀ i o, (g.valuePacking B).offset i = some o → g.primalFrom i = none → L.offset i = o
  shared : ∀ i < g.slots.length, ∀ t o, g.primalFrom i = some t → g.primalFrom t = none →
    (g.valuePacking B).offset t = some o → L.offset i = o
  dataSize : L.dataSize = (g.dataPacking B).total
  dataOffset : L.dataOffset = (g.dataPacking B).offset
  adjointSize : L.adjointSize = g.adjointPacking.total
  adjointOffset : L.adjointOffset = g.adjointPacking.offset
  scratch : ∃ source, g.ScratchPacked B g.ops.length ⟨L.scratchOffsets, L.scratchSize, source⟩
  borrowed : ∀ i < g.slots.length, B.borrowed i = true → (g.isParam i || g.written i) = false

theorem Graph.accepted_of_layout (h : g.layout B stale = .ok L) : g.Accepted B L := by
  unfold layout at h
  obtain ⟨params, hparams, h⟩ := exists_of_bind_ok h
  obtain ⟨values, hvalues, h⟩ := exists_of_bind_ok h
  obtain ⟨adjParams, hadj, h⟩ := exists_of_bind_ok h
  obtain ⟨adjoints, hadj', h⟩ := exists_of_bind_ok h
  obtain ⟨scratch, hscratch, h⟩ := exists_of_bind_ok h
  obtain rfl := Except.ok.inj h
  have hv0 : g.ValuesPacked params g.paramPacking :=
    foldlM_follows (fun i _ s s' p hR hs => bindParam_values hR hs) hparams
      ⟨rfl, fun i o hi => by simp [start] at hi, fun i o hi => by simp [start] at hi⟩
  have hv : g.ValuesPacked values (g.valuePacking B) :=
    foldlM_follows (fun i _ s s' p hR hs => bindSlot_values hR hs) hvalues hv0
  have hd0 : DataPacked params (start 0) :=
    foldlM_induction (I := fun _ st => DataPacked st (start 0))
      (fun _ _ _ _ _ _ hI hs => bindParam_data hI hs) hparams ⟨rfl, rfl⟩
  have hd : DataPacked values (g.dataPacking B) :=
    foldlM_follows (fun i _ s s' p hR hs => bindSlot_data hR hs) hvalues hd0
  have ha0 : AdjointPacked adjParams g.paramPacking :=
    foldlM_follows (fun i _ s s' p hR hs => bindAdjoint_packed hR hs) hadj ⟨rfl, rfl⟩
  have ha : AdjointPacked adjoints g.adjointPacking :=
    foldlM_follows (fun i _ s s' p hR hs => bindAdjoint_packed hR hs) hadj' ha0
  have hs : g.ScratchPacked B g.ops.length scratch := by
    refine foldlM_induction (I := fun l st => g.ScratchPacked B l.length st)
      (fun l₁ op l₂ st st' hl hI hst => ?_) hscratch
      ⟨rfl, rfl, fun i o hi => ?_, fun s j hj => by simp at hj, fun i hi => absurd hi (Nat.not_lt_zero i)⟩
    · rw [List.length_append]
      exact bindScratch_packed hI (by rw [hl]; simp) hst
    · simp [scratchPacking, placeAll, start] at hi
  refine ⟨hv0.total, hv.total, fun i o hi hf => ?_, fun i hi t o hf ht ho => ?_, hd.total,
    hd.offset, ha.total, ha.offset, ⟨scratch.source, hs⟩, fun i hi hb => ?_⟩
  · exact ((foldl_sharePrimal _ _).1 i hf).trans (hv.offset i o hi)
  · exact ((foldl_sharePrimal _ _).2 i (List.mem_range.2 hi) t hf ht).trans
      (hv.offset t o ho)
  · obtain ⟨s₁, s₂, hround⟩ := exists_round hvalues (List.mem_range.2 hi)
    exact (bindSlot_cases hround).1 hb

/-! ## Where the slots are -/

lemma Graph.paramPacking_offset {i : ℕ} (hi : i < g.slots.length) (hp : g.isParam i = true) :
    g.paramPacking.offset i = some (g.paramsBefore i) := by
  unfold paramPacking
  rw [placeAll_getElem List.nodup_range (List.getElem?_range hi) hp, List.take_range, min_eq_left hi.le]
  simp [start, paramsBefore]

lemma Graph.paramPacking_total : g.paramPacking.total = g.paramsBefore g.slots.length := by
  unfold paramPacking
  rw [placeAll_total]
  simp [start, paramsBefore]

lemma Graph.paramPacking_sound : g.paramPacking.Sound g.len 0 := (sound_start _ 0).placeAll ..

lemma Graph.valuePacking_sound : (g.valuePacking B).Sound g.len 0 := paramPacking_sound.placeAll ..

lemma Graph.dataPacking_sound : (g.dataPacking B).Sound g.len 0 := (sound_start _ 0).placeAll ..

lemma Graph.adjointPacking_sound : g.adjointPacking.Sound g.len 0 := paramPacking_sound.placeAll ..

lemma Graph.scratchPacking_sound (n : ℕ) : (g.scratchPacking B n).Sound (g.scratchLen B) 0 :=
  (sound_start _ 0).placeAll ..

/-- In the value and in the adjoint arena a parameter stays where the first loop put it. -/
lemma Graph.param_offset {i : ℕ} (hi : i < g.slots.length) (hp : g.isParam i = true) :
    (g.valuePacking B).offset i = some (g.paramsBefore i) ∧
    g.adjointPacking.offset i = some (g.paramsBefore i) := by
  rw [← paramPacking_offset hi hp]
  constructor
  · exact placeAll_of_notMem (Or.inr (by simp [ownsValue, hp])) _
  · exact placeAll_of_notMem (Or.inr (by simp [ownsAdjoint, hp])) _

namespace Graph.Accepted

/-- A slot that no caller lent lies in the value arena if an op writes it or it is a parameter. -/
lemma slotData_value (h : g.Accepted B L) {i : ℕ} (hi : i < g.slots.length)
    (hw : (g.isParam i || g.written i) = true) : L.slotData B i = .value (L.offset i) := by
  have hb : B.borrowed i = false := by
    by_contra hb
    rw [Bool.not_eq_false] at hb
    simp [h.borrowed i hi hb] at hw
  have hd : L.dataOffset i = none := by
    rw [h.dataOffset]
    refine placeAll_of_notMem (Or.inr ?_) _
    rcases Bool.or_eq_true_iff.1 hw with hw | hw <;> simp [ownsData, hw]
  simp [Layout.slotData, hd, hb]

/-- A slot in the value arena is a parameter or written. -/
lemma active_of_value (h : g.Accepted B L) {i o : ℕ} (hi : i < g.slots.length)
    (ho : L.slotData B i = .value o) : (g.isParam i || g.written i) = true ∧ L.offset i = o := by
  unfold Layout.slotData at ho
  cases hd : L.dataOffset i with
  | some d =>
    rw [hd] at ho
    cases ho
  | none =>
    rw [hd] at ho
    by_cases hb : B.borrowed i = true
    · simp [hb] at ho
    · rw [Bool.not_eq_true] at hb
      refine ⟨?_, by simpa [hb] using ho⟩
      by_contra hn
      simp only [Bool.not_eq_true, Bool.or_eq_false_iff] at hn
      have hsome : ((g.dataPacking B).offset i).isSome :=
        placeAll_isSome (List.mem_range.2 hi) (by simp [ownsData, hn.1, hn.2, hb]) _
      rw [h.dataOffset] at hd
      rw [hd] at hsome
      cases hsome

/-- A parameter or written slot without cached primal has a range of its own. -/
lemma placed (h : g.Accepted B L) {i : ℕ} (hi : i < g.slots.length)
    (hw : (g.isParam i || g.written i) = true) (hf : g.primalFrom i = none) :
    (g.valuePacking B).offset i = some (L.offset i) := by
  have hsome : ((g.valuePacking B).offset i).isSome := by
    by_cases hp : g.isParam i = true
    · rw [(param_offset hi hp).1]
      rfl
    · rw [Bool.not_eq_true] at hp
      rw [hp, Bool.false_or] at hw
      have hb : B.borrowed i = false := by
        by_contra hb
        rw [Bool.not_eq_false] at hb
        simpa [hw] using h.borrowed i hi hb
      exact placeAll_isSome (List.mem_range.2 hi) (by simp [ownsValue, hp, hb, hw, hf]) _
  obtain ⟨o, ho⟩ := Option.isSome_iff_exists.1 hsome
  rw [h.offset i o ho hf, ho]

/-- The op a cached op shares its scratch with writes the slot it names. -/
lemma written_source (h : g.Accepted B L) {s t : ℕ} (hf : g.primalFrom s = some t) :
    g.written t = true := by
  obtain ⟨op, hop, hc, -, ht⟩ := exists_cached hf
  obtain ⟨i, hi, rfl⟩ := List.mem_iff_getElem.1 hop
  obtain ⟨source, hs⟩ := h.scratch
  obtain ⟨j, -, ⟨op', o, s', hop', hs', -, ho, hout, -⟩, -⟩ :=
    hs.cached i hi _ (List.getElem?_eq_getElem hi) hc
  obtain rfl := Option.some.inj ((List.getElem?_eq_getElem hi).symm.trans hop')
  obtain rfl := Option.some.inj (ht.symm.trans hs')
  exact List.any_eq_true.2 ⟨o, List.mem_of_getElem? ho, by simp [hout]⟩

/-- A slot of the value arena starts where the slot whose buffer it uses starts, and that one has a
range of its own which is long enough. -/
lemma home_placed (h : g.Accepted B L) (hp : g.PrimalsOwned) {i o : ℕ} (hi : i < g.slots.length)
    (ho : L.slotData B i = .value o) :
    (g.valuePacking B).offset (g.home i) = some o ∧ g.len i ≤ g.len (g.home i) := by
  obtain ⟨hw, rfl⟩ := h.active_of_value hi ho
  cases hf : g.primalFrom i with
  | none =>
    rw [home_of_none hf]
    exact ⟨h.placed hi hw hf, le_rfl⟩
  | some t =>
    obtain ⟨htn, ht⟩ := hp.source i t hf
    have hplaced := h.placed htn (by simp [h.written_source hf]) ht
    rw [home_of_some hf]
    refine ⟨?_, hp.len i t hf⟩
    rw [hplaced, h.shared i hi t _ hf ht hplaced]

/-- The scratch of an op that is not cached lies where it was packed. -/
lemma scratch_placed (h : g.Accepted B L) {i o : ℕ} {op : Op U} (hop : g.ops[i]? = some op)
    (hc : op.cached = false) (ho : L.scratchOffsets[i]? = some o) :
    (g.scratchPacking B g.ops.length).offset i = some o := by
  obtain ⟨source, hs⟩ := h.scratch
  have hi : i < g.ops.length := (List.getElem?_eq_some_iff.1 hop).1
  have hsome : ((g.scratchPacking B g.ops.length).offset i).isSome :=
    placeAll_isSome (List.mem_range.2 hi) (by simp [ownsScratch, hop, hc]) _
  obtain ⟨o', ho'⟩ := Option.isSome_iff_exists.1 hsome
  rw [ho', ← hs.offset i o' ho', ← ho]

end Graph.Accepted

/-! ## The main theorem -/

/-- A graph that `bind_` accepts is laid out without collisions, if its cached primals are as `cse`
leaves them: only slots that use the buffer of the same primal have a common range. -/
theorem Graph.layout_laidOut (h : g.layout B stale = .ok L) (hp : g.PrimalsOwned) :
    g.LaidOut B L g.SharePrimal := by
  have ha := accepted_of_layout h
  obtain ⟨source, hs⟩ := ha.scratch
  have hdata : ∀ i o, L.slotData B i = .data o → (g.dataPacking B).offset i = some o := by
    intro i o ho
    unfold Layout.slotData at ho
    rw [ha.dataOffset] at ho
    cases hd : (g.dataPacking B).offset i with
    | none =>
      rw [hd] at ho
      dsimp only at ho
      split at ho <;> cases ho
    | some d =>
      rw [hd] at ho
      exact congrArg some (Place.data.inj ho)
  refine ⟨fun i hi hpar => ?_, ?_, fun i hi o ho => ?_, fun i hi j hj o o' hne hsh ho ho' => ?_,
    fun i o ho => ?_, fun i j o o' hne ho ho' => ?_, fun i hi hw => ?_, fun i o ho => ?_,
    fun i j o o' hne ho ho' => ?_, fun op hop s hs hlt => ?_, fun i op o hop hc ho => ?_,
    fun i j op op' o o' hne hop hop' hc hc' ho ho' => ?_, fun i op hop hc => ?_,
    fun i op hop => ?_⟩
  · have hf : g.primalFrom i = none := by
      by_contra hf
      obtain ⟨t, ht⟩ := Option.ne_none_iff_exists'.1 hf
      simp [hp.notParam i t ht] at hpar
    refine ⟨?_, by rw [ha.adjointOffset, (param_offset (B := B) hi hpar).2]⟩
    rw [ha.slotData_value hi (by simp [hpar]), ha.offset i _ (param_offset hi hpar).1 hf]
  · rw [ha.nParams, paramPacking_total]
  · obtain ⟨hhome, hlen⟩ := ha.home_placed hp hi ho
    have := (valuePacking_sound.bounded _ _ hhome).2
    rw [ha.valueSize]
    omega
  · obtain ⟨hhome, hlen⟩ := ha.home_placed hp hi ho
    obtain ⟨hhome', hlen'⟩ := ha.home_placed hp hj ho'
    have := valuePacking_sound.apart _ _ _ _ hsh hhome hhome'
    exact disjoint_cells (by omega)
  · rw [ha.dataSize]
    exact (dataPacking_sound.bounded i o (hdata i o ho)).2
  · exact dataPacking_sound.disjoint hne (hdata i o ho) (hdata j o' ho')
  · rw [ha.adjointOffset]
    by_cases hpar : g.isParam i = true
    · rw [(param_offset (B := B) hi hpar).2]
      rfl
    · rw [Bool.not_eq_true] at hpar
      rw [hpar, Bool.false_or] at hw
      exact placeAll_isSome (List.mem_range.2 hi) (by simp [ownsAdjoint, hpar, hw]) _
  · rw [ha.adjointSize]
    rw [ha.adjointOffset] at ho
    exact (adjointPacking_sound.bounded i o ho).2
  · rw [ha.adjointOffset] at ho ho'
    exact adjointPacking_sound.disjoint hne ho ho'
  · have hw : g.written s = true := List.any_eq_true.2 ⟨op, hop, decide_eq_true hs⟩
    exact ⟨_, ha.slotData_value hlt (by simp [hw])⟩
  · have hsize : L.scratchSize = (g.scratchPacking B g.ops.length).total := hs.total
    rw [hsize]
    exact ((scratchPacking_sound _).bounded i o (ha.scratch_placed hop hc ho)).2
  · exact (scratchPacking_sound _).disjoint hne (ha.scratch_placed hop hc ho)
      (ha.scratch_placed hop' hc' ho')
  · exact hs.cached i (List.getElem?_eq_some_iff.1 hop).1 op hop hc
  · have hlen : L.scratchOffsets.length = g.ops.length := hs.length
    have hi := (List.getElem?_eq_some_iff.1 hop).1
    obtain ⟨o, ho⟩ : ∃ o, L.scratchOffsets[i]? = some o :=
      ⟨_, List.getElem?_eq_getElem (by omega)⟩
    have hzip : (g.ops.zip L.scratchOffsets)[i]? = some (op, o) :=
      List.getElem?_zip_eq_some.2 ⟨hop, ho⟩
    exact ⟨o, ho, by rw [Layout.contexts, List.getElem?_map, hzip]; rfl⟩

/-! ## Graphs after `cse` -/

section Cse

variable {V S W : Type*} {E : CseEnv U V S W}

/-- `cse` leaves cached primals whose source has a range of its own that is long enough. -/
theorem CseEnv.graph_primalsOwned (hg : SelfContained E.g)
    (hids : ∀ op ∈ E.g.ops, ∀ s ∈ op.outs, s < E.g.slots.length) : E.graph.PrimalsOwned := by
  have hmerged : ∀ s t, E.graph.primalFrom s = some t → (E.scan E.g.ops).primal s = some t := by
    intro s t h
    obtain ⟨k, hk, hc, rfl, ht⟩ := Graph.exists_cached h
    obtain ⟨n, op, hop, he⟩ := mem_graph_ops.1 hk
    obtain ⟨v, hv, hsh, hps⟩ := (cached_iff hg.evalOrder hg.noPrimal hop he).1 hc
    obtain rfl := Option.some.inj (ht.symm.trans hps)
    rw [(CseScan.emit_outs he).1]
    exact (scan_of_shared hg.evalOrder hop hv hsh).2.1
  have hinv : ∀ s t, E.graph.primalFrom s = some t →
      CseScan.Merged E E.g.ops.length (E.scan E.g.ops) s t ∧ (E.scan E.g.ops).rename s = none := by
    intro s t h
    have hp := hmerged s t h
    obtain ⟨n, op, v, hop, hv, rfl, -, -, hsh⟩ := exists_merged hg.evalOrder (.inr hp)
    exact ⟨(invariant_scan hg.evalOrder).merged _ _ (.inr hp),
      (scan_of_shared hg.evalOrder hop hv (hsh.1 hp)).1⟩
  have hslots : E.graph.slots.length = E.g.slots.length := List.length_mapIdx
  refine ⟨fun s t h => ?_, fun s t h => ⟨?_, ?_⟩, fun s t h => ?_⟩
  · rw [graph_isParam]
    exact (hinv s t h).1.notParam
  · obtain ⟨d, -, j, -, -, hy⟩ := (hinv s t h).1.writers
    obtain ⟨op, hop, ht⟩ := hy.writes
    rw [hslots]
    exact hids op (List.mem_of_getElem? hop) t ht
  · cases ht : E.graph.primalFrom t with
    | none => rfl
    | some u =>
      have := hmerged t u ht
      rw [(hinv s t h).1.root.2] at this
      cases this
  · obtain ⟨hm, hr⟩ := hinv s t h
    rw [graph_len hr, graph_len hm.root.1, hm.len]

/-- What `cse` leaves is what binding relies on. -/
theorem cse_primalsOwned (K : Kernels U V S W) (hg : SelfContained g)
    (hids : ∀ op ∈ g.ops, ∀ s ∈ op.outs, s < g.slots.length) (fills : Fills V)
    (targetTerms roots : List ℕ) (mergeActive : Bool) :
    (cse K g fills targetTerms roots mergeActive).graph.PrimalsOwned :=
  CseEnv.graph_primalsOwned (E := ⟨K, g, g.cseKeep fills roots, mergeActive⟩) hg hids

theorem cse_primalsOwned_repeatedRead :
    (cse { Kernels.empty Unit ℤ Unit Unit with registered := fun _ => true } repeatedReadGraph [] [1]
      [4] false).graph.PrimalsOwned :=
  cse_primalsOwned _ repeatedReadGraph_selfContained (by decide) _ _ _ _

end Cse

/-! ## Where the layout collides -/

/-- A kernel table that has every opcode, one cell of scratch each, and no lent buffers. -/
def openEnv : BindEnv Unit where
  maxSize := 1000
  borrowed _ := false
  registered _ := true
  opcodeName _ := ""
  scratchSize _ _ := 1

/-- `y = exp(x)` three times over a parameter `x`, the last two sharing the value of the first, next
to a data slot. -/
def sharedExpGraph : Graph Unit where
  slots := [⟨1, true⟩, ⟨2, false⟩, ⟨1, false⟩, ⟨1, false⟩, ⟨1, false⟩]
  ops := [{ opcode := .expv, out := 2, ins := [0], primalSource := some 2 },
    { opcode := .expv, out := 3, ins := [0], primalSource := some 2 },
    { opcode := .expv, out := 4, ins := [0], primalSource := some 2 }]
  resultSlot := some 4

lemma sharedExpGraph_primalFrom (s t : ℕ) (h : sharedExpGraph.primalFrom s = some t) :
    (s = 3 ∨ s = 4) ∧ t = 2 := by
  obtain ⟨op, hop, hc, rfl, ht⟩ := Graph.exists_cached h
  rw [sharedExpGraph, List.mem_cons, List.mem_cons, List.mem_singleton] at hop
  rcases hop with rfl | rfl | rfl
  · exact absurd hc (by decide)
  · exact ⟨Or.inl rfl, (Option.some.inj ht).symm⟩
  · exact ⟨Or.inr rfl, (Option.some.inj ht).symm⟩

lemma sharedExpGraph_primalsOwned : sharedExpGraph.PrimalsOwned := by
  refine ⟨fun s t h => ?_, fun s t h => ?_, fun s t h => ?_⟩ <;>
    obtain ⟨hs, rfl⟩ := sharedExpGraph_primalFrom s t h
  · rcases hs with rfl | rfl <;> decide
  · decide
  · rcases hs with rfl | rfl <;> decide

/-- The two copies of the exponential have one range between them. -/
theorem sharedExpGraph_laidOut : ∃ L, sharedExpGraph.layout openEnv (fun _ => 0) = .ok L ∧
    sharedExpGraph.LaidOut openEnv L sharedExpGraph.SharePrimal :=
  ⟨_, rfl, Graph.layout_laidOut
    (show sharedExpGraph.layout openEnv (fun _ => 0) = .ok _ from rfl) sharedExpGraph_primalsOwned⟩

/-- A cached op that writes a slot longer than its source, and a slot after it. -/
def longCopyGraph : Graph Unit where
  slots := [⟨1, true⟩, ⟨1, false⟩, ⟨2, false⟩, ⟨1, false⟩]
  ops := [{ opcode := .expv, out := 1, ins := [0], primalSource := some 1 },
    { opcode := .expv, out := 2, ins := [0], primalSource := some 1 },
    { opcode := .sqrt, out := 3, ins := [0] }]

/-- A cached op whose source is written by another cached op. -/
def chainedCopyGraph : Graph Unit where
  slots := [⟨1, true⟩, ⟨1, false⟩, ⟨1, false⟩, ⟨1, false⟩]
  ops := [{ opcode := .expv, out := 3, ins := [0], primalSource := some 3 },
    { opcode := .expv, out := 2, ins := [0], primalSource := some 2 },
    { opcode := .expv, out := 2, ins := [0], primalSource := some 3 },
    { opcode := .expv, out := 1, ins := [0], primalSource := some 2 }]

/-- A cached op that writes a parameter. -/
def paramCopyGraph : Graph Unit where
  slots := [⟨1, true⟩, ⟨1, true⟩, ⟨1, false⟩]
  ops := [{ opcode := .expv, out := 2, ins := [0], primalSource := some 2 },
    { opcode := .expv, out := 1, ins := [0], primalSource := some 2 }]

/-- Two slots with a common cell, neither of them a cached primal of the other. -/
lemma Graph.not_laidOut {i j o o' : ℕ} (k : ℕ) (hi : i < g.slots.length) (hj : j < g.slots.length)
    (hne : i ≠ j) (hi' : g.primalFrom i ≠ some j) (hj' : g.primalFrom j ≠ some i)
    (ho : L.slotData B i = .value o) (ho' : L.slotData B j = .value o')
    (hk : o ≤ k ∧ k < o + g.len i) (hk' : o' ≤ k ∧ k < o' + g.len j) :
    ¬g.LaidOut B L g.IsPrimalOf := by
  intro h
  have hd := h.value_disjoint i hi j hj o o' hne (by simp [IsPrimalOf, hi', hj']) ho ho'
  exact Set.disjoint_left.1 hd (Set.mem_Ico.2 hk) (Set.mem_Ico.2 hk')

/-- Two cached primals of one slot have a common range; so have, where cached primals are not as `cse`
leaves them, a cached primal and the slot behind its source, or one whose source is a cached primal
and a parameter; and a parameter that is a cached primal is not among the parameters. -/
theorem cachedPrimals_collide :
    (∃ L, sharedExpGraph.layout openEnv (fun _ => 0) = .ok L ∧
      ¬sharedExpGraph.LaidOut openEnv L sharedExpGraph.IsPrimalOf) ∧
    (∃ L, longCopyGraph.layout openEnv (fun _ => 0) = .ok L ∧
      ¬longCopyGraph.LaidOut openEnv L longCopyGraph.IsPrimalOf) ∧
    (∃ L, chainedCopyGraph.layout openEnv (fun _ => 0) = .ok L ∧
      ¬chainedCopyGraph.LaidOut openEnv L chainedCopyGraph.IsPrimalOf) ∧
    ∃ L, paramCopyGraph.layout openEnv (fun _ => 0) = .ok L ∧
      ¬paramCopyGraph.LaidOut openEnv L paramCopyGraph.IsPrimalOf := by
  refine ⟨⟨_, rfl, ?_⟩, ⟨_, rfl, ?_⟩, ⟨_, rfl, ?_⟩, ⟨_, rfl, fun h => ?_⟩⟩
  · exact Graph.not_laidOut (i := 3) (j := 4) 1 (by decide) (by decide) (by decide) (by decide)
      (by decide) rfl rfl (by decide) (by decide)
  · exact Graph.not_laidOut (i := 2) (j := 3) 2 (by decide) (by decide) (by decide) (by decide)
      (by decide) rfl rfl (by decide) (by decide)
  · exact Graph.not_laidOut (i := 0) (j := 1) 0 (by decide) (by decide) (by decide) (by decide)
      (by decide) rfl rfl (by decide) (by decide)
  · have hval := (h.param 1 (by decide) rfl).1
    exact absurd hval (by decide)

end Stanli
