import Stanli.PortableMir.Primitives

namespace Stanli.PortableMir

/-! ### Lists and tags -/

section

variable {T : Target} {fuel : ℕ}

/-- `v` is what some record stands for, `p` its bytes with its usage. -/
def Spells {W V : Type} (emit : W → Emit) (meaning : W → V) (usage : W → Usage) (v : V)
    (p : Portion) : Prop :=
  ∃ w, meaning w = v ∧ emit w = .ok p.bytes ∧ p.usage = usage w

/-- The bytes that an emission appends, none if it fails. -/
def emitted (x : Emit) : Bytes :=
  x.toOption.getD []

theorem addItems_eq_ok {W : Type} {emit : W → Emit} {ws : List W} {bytes : Bytes} :
    addItems emit ws = .ok bytes ↔
      (∀ w ∈ ws, emit w = .ok (emitted (emit w))) ∧
        bytes = (ws.map fun w => emitted (emit w)).flatten := by
  induction ws generalizing bytes with
  | nil => simp [addItems, eq_comm]
  | cons w ws ih =>
    simp only [addItems, emit_append_eq_ok, ih, List.forall_mem_cons, List.map_cons,
      List.flatten_cons]
    constructor
    · rintro ⟨a, b, ha, ⟨hws, rfl⟩, rfl⟩
      rw [ha]
      exact ⟨⟨rfl, hws⟩, rfl⟩
    · rintro ⟨⟨hw, hws⟩, rfl⟩
      exact ⟨_, _, hw, ⟨hws, rfl⟩, rfl⟩

theorem addV2List_eq_ok {W : Type} {emit : W → Emit} {ws : List W} {bytes : Bytes} :
    addV2List emit ws = .ok bytes ↔
      ∃ a b, addU32 ws.length = .ok a ∧ addItems emit ws = .ok b ∧ bytes = a ++ b :=
  emit_append_eq_ok

/-- What a list adds to its count and its items. -/
def listHeader (T : Target) (item : Item) (n : ℕ) : Portion :=
  ⟨[], { listBytes := n * T.sizeOf item, longestList := n }⟩

theorem listItems_eq_ok {α : Type} {item : Item} {read : Read α} {vs : List α} {s s' : Reader} :
    listItems T item read s = .ok (vs, s') ↔ ∃ n s1, u32 s = .ok (n, s1) ∧ n ≤ s1.rest.length ∧
      ∃ s2, Consumes T s1 (listHeader T item n) s2 ∧ readTimes read n s2 = .ok (vs, s') := by
  have hsize := T.sizeOf_pos item
  simp only [listItems, listSize, bind_eq_ok, failWhen_eq_ok, modify_eq_ok, pure_eq_ok,
    decide_eq_false_iff_not, gt_iff_lt, Nat.not_lt, Nat.le_div_iff_mul_le hsize]
  constructor
  · rintro ⟨_, _, ⟨n, s1, hu32, _, _, ⟨hmax, rfl⟩, _, _, ⟨hrest, rfl⟩, rfl, rfl⟩, _, t,
      ⟨hroom, rfl⟩, _, _, rfl, hread⟩
    refine ⟨_, _, hu32, hrest, { t with listStorageBytes := t.listStorageBytes + _ * T.sizeOf item },
      ⟨?_, ?_, ?_⟩, hread⟩
    · rfl
    · refine ⟨fun h => absurd h (lt_irrefl 0), fun h => absurd h (lt_irrefl 0), fun h => ?_,
        Nat.zero_le _, hmax, fun h => absurd h (lt_irrefl 0)⟩
      simp only [listHeader] at h ⊢
      omega
    · simp [Reader.after, listHeader, peakOf]
  · rintro ⟨n, s1, hu32, hrest, s2, ⟨hs2, hroom, hstate⟩, hread⟩
    have hlist := hroom.listBytes
    have hmax := hroom.longestList
    simp only [listHeader] at hlist hmax
    refine ⟨n, s1, ⟨n, s1, hu32, (), s1, ⟨hmax, rfl⟩, (), s1, ⟨hrest, rfl⟩, rfl, rfl⟩, (), s1,
      ⟨by omega, rfl⟩, (), s2, ?_, hread⟩
    rw [hstate, show s2.rest = s1.rest from hs2.symm]
    simp [Reader.after, listHeader, peakOf]

theorem sum_portions {W : Type} (bytes : W → Bytes) (usage : W → Usage) (ws : List W) :
    (ws.map fun w => (⟨bytes w, usage w⟩ : Portion)).sum =
      ⟨(ws.map bytes).flatten, (ws.map usage).sum⟩ := by
  induction ws with
  | nil => rfl
  | cons w ws ih =>
    rw [List.map_cons, List.sum_cons, ih]
    rfl

theorem listUsage_eq (item : Item) (us : List Usage) :
    listUsage T item us =
      (scalarUsage + ((listHeader T item us.length).usage + us.sum)).deepen := by
  rw [← add_assoc, listUsage]
  congr 2
  apply Usage.ext <;> simp [scalarUsage, listHeader]

theorem length_le_flatten {W : Type} {bytes : W → Bytes} {ws : List W}
    (h : ∀ w ∈ ws, 1 ≤ (bytes w).length) : ws.length ≤ (ws.map bytes).flatten.length := by
  induction ws with
  | nil => exact Nat.zero_le _
  | cons w ws ih =>
    have hw := h w List.mem_cons_self
    have hws := ih fun x hx => h x (List.mem_cons_of_mem w hx)
    rw [List.map_cons, List.flatten_cons, List.length_append, List.length_cons]
    omega

theorem list_delivers {W α : Type} {emit : W → Emit} {usage : W → Usage} {meaning : W → α}
    {read : Read α} {item : Item} {ws : List W} {bytes : Bytes}
    (h : addV2List emit ws = .ok bytes)
    (hitem : ∀ w ∈ ws, ∀ b, emit w = .ok b →
      Delivers (Fueled T fuel) read ⟨b, usage w⟩ (meaning w))
    (hpos : ∀ w b, emit w = .ok b → 1 ≤ b.length) :
    Delivers (Fueled T fuel) (list T item read) ⟨bytes, listUsage T item (ws.map usage)⟩
      (ws.map meaning) := by
  obtain ⟨a, b, ha, hb, rfl⟩ := addV2List_eq_ok.1 h
  obtain ⟨hall, rfl⟩ := addItems_eq_ok.1 hb
  have hitems := (fueled_splitting T fuel).readTimes
    (fun w => (⟨emitted (emit w), usage w⟩ : Portion)) meaning ws
    fun w hw => hitem w hw _ (hall w hw)
  rw [sum_portions] at hitems
  have hlen : ws.length ≤ (ws.map fun w => emitted (emit w)).flatten.length :=
    length_le_flatten fun w hw => hpos w _ (hall w hw)
  rw [listUsage_eq, List.length_map]
  refine withDepth_delivers_of_all (p := ⟨_, _⟩) ?_
  intro s s' hs
  obtain ⟨s1, h1, h2⟩ := (fueled_splitting T fuel).add (a := ⟨a, scalarUsage⟩)
    (b := listHeader T item ws.length +
      ⟨(ws.map fun w => emitted (emit w)).flatten, (ws.map usage).sum⟩) hs
  obtain ⟨s2, h3, h4⟩ := (fueled_splitting T fuel).add h2
  refine listItems_eq_ok.2 ⟨_, s1, u32_delivers ha s s1 h1, ?_, s2, h3.consumes, hitems s2 s' h4⟩
  rw [h2.consumes.rest, List.length_append]
  exact le_trans hlen (Nat.le_add_right _ _)

theorem forall₂_spells {W V : Type} {emit : W → Emit} {meaning : W → V} {usage : W → Usage}
    {vs : List V} {ps : List Portion} (h : List.Forall₂ (Spells emit meaning usage) vs ps) :
    ∃ ws, ws.map meaning = vs ∧ addItems emit ws = .ok ps.sum.bytes ∧
      ps.sum.usage = (ws.map usage).sum := by
  induction h with
  | nil => exact ⟨[], rfl, rfl, rfl⟩
  | cons hv _ ih =>
    obtain ⟨w, rfl, hw, hu⟩ := hv
    obtain ⟨ws, rfl, hws, hus⟩ := ih
    refine ⟨w :: ws, rfl, ?_, ?_⟩
    · rw [addItems, hw, hws]
      rfl
    · rw [List.sum_cons, Portion.add_usage, hu, hus, List.map_cons, List.sum_cons]

theorem list_gathers {W V : Type} {emit : W → Emit} {meaning : W → V} {usage : W → Usage}
    {read : Read V} {item : Item}
    (h : Gathers (Consumes T) read (Spells emit meaning usage)) :
    Gathers (Consumes T) (list T item read)
      (Spells (addV2List emit) (List.map meaning) fun ws => listUsage T item (ws.map usage)) := by
  refine withDepth_gathers ?_
  intro s vs s' hread
  obtain ⟨n, s1, hu32, -, s2, hheader, hitems⟩ := (listItems_eq_ok (T := T)).1 hread
  obtain ⟨⟨a, ua⟩, ⟨ha, hua⟩, hs1⟩ := u32_gathers (T := T) s n s1 hu32
  obtain ⟨p, ⟨hn, ps, hps, rfl⟩, hs2⟩ := (consumes_joining T).readTimes h n s2 vs s' hitems
  obtain ⟨ws, rfl, hws, hus⟩ := forall₂_spells hps
  rw [List.length_map] at hn
  refine ⟨_, ⟨ws, rfl, ?_, ?_⟩, (consumes_joining T).add hs1 ((consumes_joining T).add hheader hs2)⟩
  · refine addV2List_eq_ok.2 ⟨a, _, by rw [hn]; exact ha, hws, rfl⟩
  · simp only [Portion.deepen, Portion.add_usage]
    change ua = scalarUsage at hua
    rw [listUsage_eq, List.length_map, hn, hus, hua]

/-! ### Tags -/

theorem readTag_eq_ok {α : Type} {tag : UInt8} {values : List α} {diagnostic : String} {v : α}
    {s s' : Reader} :
    readTag tag values diagnostic s = .ok (v, s') ↔ values[tag.toNat]? = some v ∧ s' = s := by
  rw [readTag]
  cases values[tag.toNat]? with
  | none => simp [fail]
  | some w =>
    refine pure_eq_ok.trans ?_
    rw [Option.some.injEq, eq_comm]

/-- A tag byte with its meaning, read together. -/
theorem tag_delivers {α β : Type} {values : List α} {diagnostic : String} {tag : UInt8} {v : α}
    (htag : values[tag.toNat]? = some v) {f : α → Read β} {p : Portion} {w : β}
    (hf : Delivers (Fueled T fuel) (f v) p w) :
    Delivers (Fueled T fuel) (u8 >>= fun tag => readTag tag values diagnostic >>= f)
      (⟨[tag], scalarUsage⟩ + p) w := by
  refine (fueled_splitting T fuel).bind (u8_delivers tag) fun s s' hs => ?_
  exact bind_eq_ok.2 ⟨v, s, readTag_eq_ok.2 ⟨htag, rfl⟩, hf s s' hs⟩

theorem tag_gathers {α β : Type} {values : List α} {diagnostic : String} {f : α → Read β}
    {Q : β → Portion → Prop}
    (hf : ∀ (tag : UInt8) (v : α), values[tag.toNat]? = some v →
      Gathers (Consumes T) (f v) (fun w p => Q w (⟨[tag], scalarUsage⟩ + p))) :
    Gathers (Consumes T) (u8 >>= fun tag => readTag tag values diagnostic >>= f) Q := by
  refine (consumes_joining T).bind u8_gathers ?_
  rintro tag _ rfl s w s' h
  obtain ⟨v, s1, htag, hw⟩ := bind_eq_ok.1 h
  obtain ⟨hv, rfl⟩ := readTag_eq_ok.1 htag
  exact hf tag v hv _ w s' hw

end

end Stanli.PortableMir
