import Stanli.Collapse.Meaning

/-!
# Asking for numbers

The invariant of the numbering says that every number ever issued has a meaning: the elements of the
tracked slots are named by their current numbers, and the tables hold each key under a number that means
what the key says.  Asking for a number keeps it and gives a number for what was asked; the meanings of
the earlier numbers stay.
-/

namespace Stanli.Collapse

variable {U V : Type*}

/-! ## Meanings that are added to -/

/-- The meanings below a bound stay. -/
def Extends (den : Vn → Meaning V) (bound : Vn) (den' : Vn → Meaning V) (bound' : Vn) : Prop :=
  bound ≤ bound' ∧ ∀ v < bound, den' v = den v

section Extends

variable {den den' den'' : Vn → Meaning V} {bound bound' bound'' : Vn}

theorem Extends.refl (den : Vn → Meaning V) (bound : Vn) : Extends den bound den bound :=
  ⟨le_rfl, fun _ _ => rfl⟩

theorem Extends.trans (h : Extends den bound den' bound') (h' : Extends den' bound' den'' bound'') :
    Extends den bound den'' bound'' :=
  ⟨h.1.trans h'.1, fun v hv => (h'.2 v (hv.trans_le h.1)).trans (h.2 v hv)⟩

theorem Names.extend {v : Vn} {d : Meaning V} (hv : Names den bound v d)
    (h : Extends den bound den' bound') : Names den' bound' v d :=
  ⟨hv.pos, hv.lt.trans_le h.1, (h.2 v hv.lt).trans hv.eq⟩

theorem Means.extend {E : NumberingEnv U V} {F : Functions V} {m : ℕ → Arena V} {key : List ℤ}
    {d : Meaning V} (hd : Means E F m den bound key d) (h : Extends den bound den' bound') :
    Means E F m den' bound' key d := by
  cases hd with
  | data x hkey => exact .data x hkey
  | place s i hkey => exact .place s i hkey
  | slot s k hk hkey => exact .slot s k hk hkey
  | matvec beta xs row hbeta hmode hkey => exact .matvec beta xs row (hbeta.extend h) hmode hkey
  | matvecPlace beta xs s r hbeta hmode hkey =>
    exact .matvecPlace beta xs s r (hbeta.extend h) hmode hkey
  | op opcode variant operands values hvalues idata hkey =>
    exact .op opcode variant operands values (hvalues.imp fun _ _ hv => hv.extend h) idata hkey
  | row v words word hwords hkey =>
    exact .row v words word (hwords.imp id fun hv => hv.extend h) hkey

/-- Give the next number a meaning. -/
theorem extends_update (den : Vn → Meaning V) (bound : Vn) (d : Meaning V) :
    Extends den bound (Function.update den bound d) (bound + 1) :=
  ⟨(Int.lt_succ bound).le, fun _ hv => Function.update_of_ne hv.ne d den⟩

end Extends

/-! ## The invariant -/

/-- The slot's numbers are kept. -/
def NumberingEnv.IsTracked (E : NumberingEnv U V) (s : ℕ) : Prop := E.tracked s = true

/-- What holds before op `k`, with numbers for the slots `T` as `a` has them. -/
structure NumberingInv (E : NumberingEnv U V) (F : Functions V) (m : ℕ → Arena V) (k : ℕ)
    (T : ℕ → Prop) (a : Arena V) (den : Vn → Meaning V) (st : Numbering) : Prop where
  version : ∀ s, st.version s = versionAt E.g k s
  param : ∀ s i, E.g.isParam s = true → i < E.g.len s →
    Names den st.next (E.paramBase s + i) (.value (.scalar (m 0 s i)))
  flat : ∀ s i, T s → i < E.g.len s →
    Names den st.next (st.flat s i) (.value (.scalar (a s i)))
  next_pos : 0 < st.next
  small : ∀ key v, st.small.Holds key v →
    ∃ d, Means E F m den st.next key d ∧ Names den st.next v d
  table : ∀ key v, (key, v) ∈ st.table → ∃ d, Means E F m den st.next key d ∧ Names den st.next v d

section Asking

variable {E : NumberingEnv U V} {F : Functions V} {m : ℕ → Arena V} {k : ℕ} {T : ℕ → Prop} {a : Arena V}
  {den den' : Vn → Meaning V} {st : Numbering} {d : Meaning V}

/-- Giving the next number a meaning keeps the invariant. -/
theorem NumberingInv.extend (h : NumberingInv E F m k T a den st) {next : Vn}
    (hext : Extends den st.next den' next) :
    NumberingInv E F m k T a den' { st with next := next } where
  version := h.version
  param s i hs hi := (h.param s i hs hi).extend hext
  flat s i hs hi := (h.flat s i hs hi).extend hext
  next_pos := h.next_pos.trans_le hext.1
  small key v hv :=
    let ⟨d, hd, hn⟩ := h.small key v hv
    ⟨d, hd.extend hext, hn.extend hext⟩
  table key v hv :=
    let ⟨d, hd, hn⟩ := h.table key v hv
    ⟨d, hd.extend hext, hn.extend hext⟩

/-- What asking for a number of meaning `d` gives. -/
def Gives (E : NumberingEnv U V) (F : Functions V) (m : ℕ → Arena V) (k : ℕ) (T : ℕ → Prop)
    (a : Arena V) (den : Vn → Meaning V) (st : Numbering) (r : Vn × Numbering) (d : Meaning V) : Prop :=
  ∃ den', Extends den st.next den' r.2.next ∧ NumberingInv E F m k T a den' r.2 ∧
    Names den' r.2.next r.1 d

/-- A new number may stand for anything. -/
theorem fresh_gives (h : NumberingInv E F m k T a den st) (d : Meaning V) :
    Gives E F m k T a den st st.fresh d := by
  have hext := extends_update den st.next d
  refine ⟨Function.update den st.next d, hext, h.extend hext, ?_⟩
  exact ⟨h.next_pos, Int.lt_succ st.next, Function.update_self ..⟩

/-- The number of a key means what the key says. -/
theorem intern_gives (hrun : Run E F m) (h : NumberingInv E F m k T a den st) {key : List ℤ}
    (hd : Means E F m den st.next key d) : Gives E F m k T a den st (st.intern key) d := by
  have hext := extends_update den st.next d
  have hnew : Names (Function.update den st.next d) (st.next + 1) st.next d :=
    ⟨h.next_pos, Int.lt_succ st.next, Function.update_self ..⟩
  rw [Numbering.intern]
  split
  · rename_i hlen
    obtain ⟨hfound, hholds⟩ := st.small.findOrInsert_spec hlen st.next
    dsimp only
    by_cases hfresh : (st.small.findOrInsert key st.next).1 = st.next
    · rw [if_pos hfresh, hfresh]
      refine ⟨_, hext, ?_, hnew⟩
      refine { h.extend hext with small := ?_ }
      intro key' v' hv'
      rcases hholds key' v' hv' with hold | ⟨rfl, rfl, -⟩
      · exact (h.extend hext).small key' v' hold
      · exact ⟨d, hd.extend hext, hnew⟩
    · rw [if_neg hfresh]
      obtain ⟨d', hd', hn⟩ := h.small _ _ (hfound.resolve_right hfresh)
      refine ⟨den, Extends.refl den st.next, ?_, ?_⟩
      · refine { h with small := ?_ }
        intro key' v' hv'
        rcases hholds key' v' hv' with hold | ⟨-, -, hv⟩
        · exact h.small key' v' hold
        · exact absurd hv hfresh
      · rw [hd.unique hrun hd']
        exact hn
  · split
    · rename_i v hv
      obtain ⟨before, after, htable, -⟩ := List.lookup_eq_some_iff.1 hv
      obtain ⟨d', hd', hn⟩ := h.table key v (by simp [htable])
      refine ⟨den, Extends.refl den st.next, h, ?_⟩
      rw [hd.unique hrun hd']
      exact hn
    · refine ⟨_, hext, ?_, hnew⟩
      refine { h.extend hext with table := ?_ }
      intro key' v' hv'
      rcases List.mem_cons.1 hv' with heq | hold
      · rw [(Prod.mk.inj heq).1, (Prod.mk.inj heq).2]
        exact ⟨d, hd.extend hext, hnew⟩
      · exact (h.extend hext).table key' v' hold

/-- Asking for each entry of a list. -/
theorem each_gives {β : Type*} {f : β → Numbering → Vn × Numbering} {d : β → Meaning V} {l : List β}
    (h : NumberingInv E F m k T a den st)
    (hask : ∀ b ∈ l, ∀ den' st', Extends den st.next den' st'.next →
      NumberingInv E F m k T a den' st' → Gives E F m k T a den' st' (f b st') (d b)) :
    ∃ den', Extends den st.next den' (each f l st).2.next ∧
      NumberingInv E F m k T a den' (each f l st).2 ∧
      List.Forall₂ (fun v b => Names den' (each f l st).2.next v (d b)) (each f l st).1 l := by
  induction l generalizing den st with
  | nil => exact ⟨den, Extends.refl den st.next, h, .nil⟩
  | cons b l ih =>
    obtain ⟨den₁, hext₁, hinv₁, hn₁⟩ :=
      hask b (List.mem_cons_self ..) den st (Extends.refl den st.next) h
    obtain ⟨den₂, hext₂, hinv₂, hn₂⟩ := ih hinv₁ fun b hb den' st' hext hinv =>
      hask b (List.mem_cons_of_mem _ hb) den' st' (hext₁.trans hext) hinv
    exact ⟨den₂, hext₁.trans hext₂, hinv₂, .cons (hn₁.extend hext₂) hn₂⟩

/-! ## Elements -/

/-- The number of a place in a data slot that still holds what it started with. -/
theorem datum_gives (hrun : Run E F m) (h : NumberingInv E F m k T a den st) {s i : ℕ} {x : V}
    (hx : m 0 s i = x) :
    Gives E F m k T a den st (E.datum s i x st) (.value (.scalar x)) := by
  rw [NumberingEnv.datum]
  split
  · rw [← hx]
    exact intern_gives hrun h (.place s i rfl)
  · exact intern_gives hrun h (.data x rfl)

theorem fillOf_of_fullFill {s : ℕ} {xs : List V} (h : E.fullFill s = some xs) :
    E.fillOf s = some xs ∧ xs.length = E.g.len s := by
  rw [NumberingEnv.fullFill, Option.filter_eq_some_iff] at h
  exact ⟨h.1, beq_iff_eq.1 h.2⟩

theorem dataOf_eq_some {s : ℕ} {xs : List V} (h : E.dataOf s = some xs) :
    E.g.isParam s = false ∧ E.nWrites s = 0 ∧ E.fullFill s = some xs := by
  rw [NumberingEnv.dataOf] at h
  split at h
  · cases h
  · rename_i hs
    rw [Bool.or_eq_true, decide_eq_true_eq, not_or, not_ne_iff] at hs
    exact ⟨Bool.eq_false_iff.2 hs.1, hs.2, h⟩

/-- Data that no op writes is what its fill says. -/
theorem dataOf_apply (hrun : Run E F m) (hfills : (E.fills.map Prod.fst).Nodup)
    (hk : k ≤ E.g.ops.length) {s i : ℕ} {xs : List V} {x : V} (hs : E.dataOf s = some xs)
    (hx : xs[i]? = some x) : m 0 s i = x ∧ m k s i = x := by
  obtain ⟨hparam, hwrites, hfill⟩ := dataOf_eq_some hs
  have h0 := hrun.initial_fill hfills hparam (fillOf_of_fullFill hfill).1 hx
  exact ⟨h0, by rw [hrun.slot_eq_initial hk hwrites, h0]⟩

/-- An element's number stands for what the element holds. -/
theorem elem_gives (hrun : Run E F m) (hfills : (E.fills.map Prod.fst).Nodup)
    (hk : k ≤ E.g.ops.length) (h : NumberingInv E F m k E.IsTracked (m k) den st) {s i : ℕ}
    (hi : element E.g s i < E.g.len s) :
    Gives E F m k E.IsTracked (m k) den st (E.elem s i st) (.value (.scalar (m k s (element E.g s i)))) := by
  rw [NumberingEnv.elem]
  split
  · rename_i htracked
    exact ⟨den, Extends.refl den st.next, h, h.flat s _ htracked hi⟩
  split
  · rename_i hparam
    refine ⟨den, Extends.refl den st.next, h, ?_⟩
    rw [hrun.slot_eq_initial hk hparam.1]
    exact h.param s _ hparam.2 hi
  split
  · rename_i x hx
    obtain ⟨xs, hs, hx⟩ := Option.bind_eq_some_iff.1 hx
    obtain ⟨h0, hk'⟩ := dataOf_apply hrun hfills hk hs hx
    rw [hk']
    exact datum_gives hrun h h0
  · exact fresh_gives h _

/-- The number of a whole slot stands for its contents. -/
theorem wholeSlot_gives (hrun : Run E F m) (hk : k ≤ E.g.ops.length)
    (h : NumberingInv E F m k T a den st) (s : ℕ) :
    Gives E F m k T a den st (st.wholeSlot s) (.value (.whole (contents E.g (m k) s))) := by
  apply intern_gives hrun h
  exact .slot s k hk (by rw [h.version])

theorem operandNumber_gives (hrun : Run E F m) (hfills : (E.fills.map Prod.fst).Nodup)
    (hk : k ≤ E.g.ops.length) (h : NumberingInv E F m k E.IsTracked (m k) den st) (s : ℕ) :
    Gives E F m k E.IsTracked (m k) den st (E.operandNumber s st) (.value (operand E.g (m k) s)) := by
  rw [NumberingEnv.operandNumber, operand]
  split
  · rename_i hone
    have hzero : element E.g s 0 = 0 := if_pos hone
    have hgives := elem_gives hrun hfills hk h (s := s) (i := 0) (by omega)
    rw [hzero] at hgives
    exact hgives
  · exact wholeSlot_gives hrun hk h s

/-- A row's number stands for its words, unless it has none. -/
theorem row_gives (hrun : Run E F m) (h : NumberingInv E F m k T a den st) (words : List ℤ) :
    ∃ den', Extends den st.next den' (st.row words).2.next ∧
      NumberingInv E F m k T a den' (st.row words).2 ∧
      ((st.row words).1 = 0 ∧ words = [] ∨
        Names den' (st.row words).2.next (st.row words).1 (.row words)) := by
  induction words using List.reverseRecOn with
  | nil => exact ⟨den, Extends.refl den st.next, h, .inl ⟨rfl, rfl⟩⟩
  | append_singleton words word ih =>
    obtain ⟨den₁, hext₁, hinv₁, hrow⟩ := ih
    rw [Numbering.row, List.foldl_append, List.foldl_cons, List.foldl_nil, ← Numbering.row]
    obtain ⟨den₂, hext₂, hinv₂, hn⟩ := intern_gives hrun hinv₁
      (.row (st.row words).1 words word hrow rfl)
    exact ⟨den₂, hext₁.trans hext₂, hinv₂, .inr hn⟩

end Asking

end Stanli.Collapse
