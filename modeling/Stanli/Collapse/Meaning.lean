import Stanli.Collapse.Numbering
import Stanli.Graph.Evaluate

/-!
# What a value number stands for

A number stands for one value, a whole slot, or a row of words, and it does so for good: later writes
change which number a slot element has, not what a number means.  The key a number was issued for says
what it means, from the meanings of the numbers in it, and says so in one way only.
-/

namespace Stanli.Collapse

variable {U V : Type*}

/-! ## Runs -/

/-- How often the first `k` ops write a slot. -/
def versionAt (g : Graph U) (k s : ℕ) : ℕ := ((g.ops.take k).flatMap Op.outs).count s

/-- A forward pass: the value arena before each op. -/
structure Run (E : NumberingEnv U V) (F : Functions V) (m : ℕ → Arena V) : Prop where
  initial : ∃ theta base : Arena V, ∀ s,
    m 0 s = if E.g.isParam s then theta s else Fills.apply E.fills base s
  step : ∀ k op, E.g.ops[k]? = some op →
    Computes (classify E.registered E.makesState E.g op) F E.g op (m k) (m (k + 1))

theorem versionAt_succ {g : Graph U} {k : ℕ} {op : Op U} (hop : g.ops[k]? = some op) (s : ℕ) :
    versionAt g (k + 1) s = versionAt g k s + op.outs.count s := by
  rw [versionAt, List.take_add_one, hop, Option.toList_some, List.flatMap_append, List.count_append,
    List.flatMap_singleton, versionAt]

theorem versionAt_succ_of_none {g : Graph U} {k : ℕ} (hop : g.ops[k]? = none) (s : ℕ) :
    versionAt g (k + 1) s = versionAt g k s := by
  rw [versionAt, List.take_add_one, hop, Option.toList_none, List.append_nil, versionAt]

theorem versionAt_mono (g : Graph U) {k l : ℕ} (h : k ≤ l) (s : ℕ) :
    versionAt g k s ≤ versionAt g l s := by
  induction l, h using Nat.le_induction with
  | base => exact le_rfl
  | succ l _ ih =>
    cases hop : g.ops[l]? with
    | none => rwa [versionAt_succ_of_none hop]
    | some op =>
      rw [versionAt_succ hop]
      omega

namespace Run

variable {E : NumberingEnv U V} {F : Functions V} {m : ℕ → Arena V}

/-- Between two points with the same version of a slot no op has written it. -/
theorem slot_eq (h : Run E F m) {k l s : ℕ} (hkl : k ≤ l) (hl : l ≤ E.g.ops.length)
    (hv : versionAt E.g k s = versionAt E.g l s) : m l s = m k s := by
  induction l, hkl using Nat.le_induction with
  | base => rfl
  | succ l hkl ih =>
    have hop := List.getElem?_eq_getElem (l := E.g.ops) (i := l) (by omega)
    have hmono := versionAt_mono E.g hkl s
    rw [versionAt_succ hop] at hv
    have hcount : (E.g.ops[l]).outs.count s = 0 := by omega
    rw [(h.step l _ hop).frame s (List.count_eq_zero.1 hcount)]
    exact ih (by omega) (by omega)

theorem slot_eq_of_version (h : Run E F m) {k l s : ℕ} (hk : k ≤ E.g.ops.length)
    (hl : l ≤ E.g.ops.length) (hv : versionAt E.g k s = versionAt E.g l s) : m k s = m l s := by
  rcases Nat.le_total k l with hkl | hkl
  · exact (h.slot_eq hkl hl hv).symm
  · exact h.slot_eq hkl hk hv.symm

/-- A slot no op writes keeps what it starts with. -/
theorem slot_eq_initial (h : Run E F m) {k s : ℕ} (hk : k ≤ E.g.ops.length)
    (hs : E.nWrites s = 0) : m k s = m 0 s := by
  apply h.slot_eq (Nat.zero_le k) hk
  have hle := versionAt_mono E.g hk s
  have hall : versionAt E.g E.g.ops.length s = 0 := by
    rw [versionAt, List.take_length]
    exact hs
  have hzero : versionAt E.g 0 s = 0 := rfl
  omega

/-- Where no slot is filled twice, a slot with a fill of its length starts with it. -/
theorem initial_fill (h : Run E F m) (hfills : (E.fills.map Prod.fst).Nodup) {s : ℕ}
    (hparam : E.g.isParam s = false) {xs : List V} (hxs : E.fillOf s = some xs) {i : ℕ} {x : V}
    (hx : xs[i]? = some x) : m 0 s i = x := by
  obtain ⟨theta, base, hinit⟩ := h.initial
  rw [hinit, hparam, if_neg Bool.false_ne_true]
  rw [NumberingEnv.fillOf, Option.map_eq_some_iff] at hxs
  obtain ⟨f, hf, rfl⟩ := hxs
  have hmem := List.mem_of_find?_eq_some hf
  have hslot : f.1 = s := by
    have h := List.find?_some hf
    exact beq_iff_eq.1 h
  apply Fills.apply_of_forall
  · intro f' hf' hs'
    have hsame : f' = f := List.inj_on_of_nodup_map hfills hf' hmem (hs'.trans hslot.symm)
    rw [hsame]
    exact hx
  · exact .inl ⟨f, hmem, hslot⟩

end Run

/-! ## Meanings -/

/-- What a number stands for. -/
inductive Meaning (V : Type*)
  | value (o : Operand V)
  | row (words : List ℤ)

/-- An issued number with its meaning. -/
structure Names (den : Vn → Meaning V) (bound v : Vn) (d : Meaning V) : Prop where
  pos : 0 < v
  lt : v < bound
  eq : den v = d

/-- What a number issued for a key means. -/
inductive Means (E : NumberingEnv U V) (F : Functions V) (m : ℕ → Arena V) (den : Vn → Meaning V)
    (bound : Vn) (key : List ℤ) : Meaning V → Prop
  | data (x : V) (hkey : key = [kDataTag, E.bits x]) :
      Means E F m den bound key (.value (.scalar x))
  | place (s i : ℕ) (hkey : key = [kPlaceTag, (s : ℤ), (i : ℤ)]) :
      Means E F m den bound key (.value (.scalar (m 0 s i)))
  | slot (s k : ℕ) (hk : k ≤ E.g.ops.length)
      (hkey : key = [kSlotTag, (s : ℤ), (versionAt E.g k s : ℤ)]) :
      Means E F m den bound key (.value (.whole (contents E.g (m k) s)))
  | matvec (beta : Vn) (xs row : List V) (hbeta : Names den bound beta (.value (.whole xs)))
      (hmode : E.bySlot = false) (hkey : key = kMatvecTag :: beta :: row.map E.bits) :
      Means E F m den bound key (.value (.scalar (F.row row xs)))
  | matvecPlace (beta : Vn) (xs : List V) (s r : ℕ)
      (hbeta : Names den bound beta (.value (.whole xs))) (hmode : E.bySlot = true)
      (hkey : key = kMatvecTag :: beta :: [(s : ℤ), (r : ℤ)]) :
      Means E F m den bound key (.value (.scalar
        (F.row (matrixRow (m 0 s) (E.g.len s / xs.length) xs.length r) xs)))
  | op (opcode : Opcode) (variant : ℕ) (operands : List Vn) (values : List (Operand V))
      (hvalues : List.Forall₂ (fun v o => Names den bound v (.value o)) operands values)
      (idata : List ℤ) (hkey : key = opKey opcode variant operands idata) :
      Means E F m den bound key (.value (.scalar (F.apply opcode variant values idata)))
  | row (v : Vn) (words : List ℤ) (word : ℤ)
      (hwords : v = 0 ∧ words = [] ∨ Names den bound v (.row words))
      (hkey : key = [kRowTag, v, word]) : Means E F m den bound key (.row (words ++ [word]))

/-! ## Keys of ops -/

theorem opWord_nonneg (opcode : Opcode) (variant : ℕ) : 0 ≤ opWord opcode variant :=
  Int.natCast_nonneg _

theorem ctorIdx_lt (opcode : Opcode) : opcode.ctorIdx < 2 ^ 16 := by
  cases opcode <;> decide

theorem opWord_eq (opcode : Opcode) (variant : ℕ) :
    opWord opcode variant = ((variant * 2 ^ 16 + opcode.ctorIdx : ℕ) : ℤ) := by
  rw [opWord, Nat.or_comm, ← Nat.shiftLeft_add_eq_or_of_lt (ctorIdx_lt opcode), Nat.shiftLeft_eq]

theorem opWord_inj {opcode opcode' : Opcode} {variant variant' : ℕ}
    (h : opWord opcode variant = opWord opcode' variant') :
    opcode = opcode' ∧ variant = variant' := by
  rw [opWord_eq, opWord_eq] at h
  have hlt := ctorIdx_lt opcode
  have hlt' := ctorIdx_lt opcode'
  refine ⟨?_, by omega⟩
  have hidx : opcode.ctorIdx = opcode'.ctorIdx := by omega
  rw [← Opcode.ofNat_ctorIdx opcode, hidx, Opcode.ofNat_ctorIdx]

/-- The immediates of a key, behind their tag. -/
def idataTail (idata : List ℤ) : List ℤ := if idata = [] then [] else kIdataTag :: idata

theorem idataTail_inj {idata idata' : List ℤ} (h : idataTail idata = idataTail idata') :
    idata = idata' := by
  cases idata <;> cases idata' <;> simp_all [idataTail]

theorem head_idataTail {idata tail : List ℤ} {w : ℤ} (h : idataTail idata = w :: tail) : w < 0 := by
  rw [idataTail] at h
  split at h
  · cases h
  · rw [← (List.cons.inj h).1]
    decide

/-- Numbers are positive, so they cannot be taken for the tag. -/
theorem operands_inj {l l' idata idata' : List ℤ} (hl : ∀ v ∈ l, 0 < v) (hl' : ∀ v ∈ l', 0 < v)
    (h : l ++ idataTail idata = l' ++ idataTail idata') : l = l' ∧ idata = idata' := by
  induction l generalizing l' with
  | nil =>
    cases l' with
    | nil => exact ⟨rfl, idataTail_inj h⟩
    | cons v l' =>
      have hneg := head_idataTail h
      have hpos := hl' v (List.mem_cons_self ..)
      omega
  | cons v l ih =>
    cases l' with
    | nil =>
      have hneg := head_idataTail h.symm
      have hpos := hl v (List.mem_cons_self ..)
      omega
    | cons v' l' =>
      obtain ⟨rfl, hrest⟩ := List.cons.inj h
      obtain ⟨rfl, hidata⟩ := ih (fun w hw => hl w (List.mem_cons_of_mem _ hw))
        (fun w hw => hl' w (List.mem_cons_of_mem _ hw)) hrest
      exact ⟨rfl, hidata⟩

theorem opKey_inj {opcode opcode' : Opcode} {variant variant' : ℕ} {l l' : List Vn}
    {idata idata' : List ℤ} (hl : ∀ v ∈ l, 0 < v) (hl' : ∀ v ∈ l', 0 < v)
    (h : opKey opcode variant l idata = opKey opcode' variant' l' idata') :
    opcode = opcode' ∧ variant = variant' ∧ l = l' ∧ idata = idata' := by
  obtain ⟨hword, hrest⟩ := List.cons.inj h
  obtain ⟨hopcode, hvariant⟩ := opWord_inj hword
  obtain ⟨hoperands, hidata⟩ := operands_inj hl hl' hrest
  exact ⟨hopcode, hvariant, hoperands, hidata⟩

/-! ## One meaning for a key -/

section Means

variable {E : NumberingEnv U V} {F : Functions V} {m : ℕ → Arena V} {den : Vn → Meaning V}
  {bound : Vn} {key : List ℤ} {d d' : Meaning V}

theorem Names.unique {v : Vn} (h : Names den bound v d) (h' : Names den bound v d') : d = d' :=
  h.eq.symm.trans h'.eq

theorem forall₂_names_pos {l : List Vn} {values : List (Operand V)}
    (h : List.Forall₂ (fun v o => Names den bound v (.value o)) l values) : ∀ v ∈ l, 0 < v := by
  induction h with
  | nil => simp
  | cons hv _ ih =>
    intro w hw
    rcases List.mem_cons.1 hw with rfl | hw
    · exact hv.pos
    · exact ih w hw

theorem forall₂_names_unique {l : List Vn} {values values' : List (Operand V)}
    (h : List.Forall₂ (fun v o => Names den bound v (.value o)) l values)
    (h' : List.Forall₂ (fun v o => Names den bound v (.value o)) l values') : values = values' := by
  induction h generalizing values' with
  | nil =>
    cases h'
    rfl
  | cons hv _ ih =>
    cases h' with
    | cons hv' hrest =>
      rw [Meaning.value.inj (hv.unique hv'), ih hrest]

/-- The head of a key says what kind of key it is. -/
def kindOf (key : List ℤ) : ℤ := if 0 ≤ key.headD 0 then 0 else key.headD 0

theorem kindOf_opKey (opcode : Opcode) (variant : ℕ) (operands : List Vn) (idata : List ℤ) :
    kindOf (opKey opcode variant operands idata) = 0 :=
  if_pos (opWord_nonneg opcode variant)

theorem cons_ne_opKey {tag : ℤ} {words : List ℤ} {opcode : Opcode} {variant : ℕ}
    {operands : List Vn} {idata : List ℤ} (h : tag < 0) :
    tag :: words ≠ opKey opcode variant operands idata :=
  fun heq => (opWord_nonneg opcode variant).not_gt ((List.cons.inj heq).1 ▸ h)

/-- Keys that do not begin with a tag are those of ops. -/
theorem Means.of_kindOf_eq_zero (h : Means E F m den bound key d) (h0 : kindOf key = 0) :
    ∃ opcode variant operands values idata,
      List.Forall₂ (fun v o => Names den bound v (.value o)) operands values ∧
        key = opKey opcode variant operands idata ∧
        d = .value (.scalar (F.apply opcode variant values idata)) := by
  cases h with
  | op opcode variant operands values hvalues idata hkey =>
    exact ⟨opcode, variant, operands, values, idata, hvalues, hkey, rfl⟩
  | _ =>
    subst key
    cases h0

/-- The words a row number stands for; the empty row has none. -/
theorem row_words_unique {v : Vn} {words words' : List ℤ}
    (h : v = 0 ∧ words = [] ∨ Names den bound v (.row words))
    (h' : v = 0 ∧ words' = [] ∨ Names den bound v (.row words')) : words = words' := by
  rcases h with ⟨h0, rfl⟩ | h <;> rcases h' with ⟨h0', rfl⟩ | h'
  · rfl
  · exact absurd h0 h'.pos.ne'
  · exact absurd h0' h.pos.ne'
  · exact Meaning.row.inj (h.unique h')

theorem Means.unique (hrun : Run E F m) (h : Means E F m den bound key d)
    (h' : Means E F m den bound key d') : d = d' := by
  cases h with
  | data x hkey =>
    subst hkey
    cases h' with
    | data x' hkey => rw [E.bits.injective (List.cons.inj (List.cons.inj hkey).2).1]
    | _ => simp_all [cons_ne_opKey, kDataTag, kSlotTag, kMatvecTag, kPlaceTag, kRowTag]
  | place s i hkey =>
    subst hkey
    cases h' with
    | place s' i' hkey =>
      have hs := (List.cons.inj (List.cons.inj hkey).2).1
      have hi := (List.cons.inj (List.cons.inj (List.cons.inj hkey).2).2).1
      rw [Int.ofNat_inj.1 hs, Int.ofNat_inj.1 hi]
    | _ => simp_all [cons_ne_opKey, kDataTag, kSlotTag, kMatvecTag, kPlaceTag, kRowTag]
  | slot s k hk hkey =>
    subst hkey
    cases h' with
    | slot s' k' hk' hkey =>
      have hs := Int.ofNat_inj.1 (List.cons.inj (List.cons.inj hkey).2).1
      have hv := Int.ofNat_inj.1 (List.cons.inj (List.cons.inj (List.cons.inj hkey).2).2).1
      subst hs
      rw [contents, contents, hrun.slot_eq_of_version hk hk' hv]
    | _ => simp_all [cons_ne_opKey, kDataTag, kSlotTag, kMatvecTag, kPlaceTag, kRowTag]
  | matvec beta xs row hbeta hmode hkey =>
    subst hkey
    cases h' with
    | matvec beta' xs' row' hbeta' hmode' hkey =>
      have hb := (List.cons.inj (List.cons.inj hkey).2).1
      have hr := (List.cons.inj (List.cons.inj hkey).2).2
      subst hb
      obtain rfl := Operand.whole.inj (Meaning.value.inj (hbeta.unique hbeta'))
      rw [List.map_injective_iff.2 E.bits.injective hr]
    | matvecPlace beta' xs' s r hbeta' hmode' hkey =>
      rw [hmode] at hmode'
      cases hmode'
    | _ => simp_all [cons_ne_opKey, kDataTag, kSlotTag, kMatvecTag, kPlaceTag, kRowTag]
  | matvecPlace beta xs s r hbeta hmode hkey =>
    subst hkey
    cases h' with
    | matvec beta' xs' row' hbeta' hmode' hkey =>
      rw [hmode] at hmode'
      cases hmode'
    | matvecPlace beta' xs' s' r' hbeta' hmode' hkey =>
      obtain ⟨rfl, hrest⟩ := List.cons.inj (List.cons.inj hkey).2
      have hs := Int.ofNat_inj.1 (List.cons.inj hrest).1
      have hr := Int.ofNat_inj.1 (List.cons.inj (List.cons.inj hrest).2).1
      obtain rfl := Operand.whole.inj (Meaning.value.inj (hbeta.unique hbeta'))
      rw [hs, hr]
    | _ => simp_all [cons_ne_opKey, kDataTag, kSlotTag, kMatvecTag, kPlaceTag, kRowTag]
  | op opcode variant operands values hvalues idata hkey =>
    have hkind : kindOf key = 0 := hkey ▸ kindOf_opKey opcode variant operands idata
    obtain ⟨opcode', variant', operands', values', idata', hvalues', hkey', rfl⟩ :=
      h'.of_kindOf_eq_zero hkind
    obtain ⟨rfl, rfl, rfl, rfl⟩ := opKey_inj (forall₂_names_pos hvalues)
      (forall₂_names_pos hvalues') (hkey.symm.trans hkey')
    rw [forall₂_names_unique hvalues hvalues']
  | row v words word hwords hkey =>
    subst hkey
    cases h' with
    | row v' words' word' hwords' hkey =>
      obtain ⟨rfl, hword⟩ := List.cons.inj (List.cons.inj hkey).2
      rw [(List.cons.inj hword).1, row_words_unique hwords hwords']
    | _ => simp_all [cons_ne_opKey, kDataTag, kSlotTag, kMatvecTag, kPlaceTag, kRowTag]

end Means

end Stanli.Collapse
