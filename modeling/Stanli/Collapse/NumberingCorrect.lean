import Stanli.Collapse.NumberingPass

/-!
# Equal numbers, equal values

The whole pass: materialized numbers, then the ops in order, with any questions of the analysis in between.
Every answer stands for what was asked about, as it stood when it was asked.
-/

namespace Stanli.Collapse

variable {U V : Type*} {E : NumberingEnv U V} {F : Functions V} {m : ℕ → Arena V} {k : ℕ}
  {T : ℕ → Prop} {a : Arena V} {den : Vn → Meaning V} {st : Numbering}

/-! ## Before any op -/

/-- The parameters' numbers before a slot. -/
def paramElements (g : Graph U) (s : ℕ) : ℕ :=
  ((g.slots.take s).map fun slot => if slot.isParam then slot.len else 0).sum

theorem paramElements_succ (g : Graph U) (s : ℕ) :
    paramElements g (s + 1) = paramElements g s + if g.isParam s then g.len s else 0 := by
  rw [paramElements, List.take_add_one, List.map_append, List.sum_append, paramElements,
    Graph.isParam, Graph.len]
  congr 1
  cases g.slots[s]? with
  | none => rfl
  | some slot => simp

theorem paramElements_mono (g : Graph U) {s t : ℕ} (h : s ≤ t) :
    paramElements g s ≤ paramElements g t := by
  induction t, h using Nat.le_induction with
  | base => exact le_rfl
  | succ t _ ih =>
    rw [paramElements_succ]
    omega

/-- A parameter's numbers end before the next slot's begin. -/
theorem paramElements_lt {g : Graph U} {s t i : ℕ} (hs : g.isParam s = true) (hi : i < g.len s)
    (hst : s < t) : paramElements g s + i < paramElements g t := by
  have hmono := paramElements_mono g (Nat.succ_le_of_lt hst)
  rw [Nat.succ_eq_add_one, paramElements_succ, if_pos hs] at hmono
  omega

theorem isParam_lt {g : Graph U} {s : ℕ} (hs : g.isParam s = true) : s < g.slots.length := by
  by_contra hge
  rw [Graph.isParam, List.getElem?_eq_none (by omega)] at hs
  cases hs

/-- Different elements of parameters have different numbers. -/
theorem paramBase_inj {s t i j : ℕ} (hs : E.g.isParam s = true) (hi : i < E.g.len s)
    (ht : E.g.isParam t = true) (hj : j < E.g.len t) (h : E.paramBase s + i = E.paramBase t + j) :
    s = t ∧ i = j := by
  have h : paramElements E.g s + i = paramElements E.g t + j := by
    change 1 + (paramElements E.g s : ℤ) + i = 1 + (paramElements E.g t : ℤ) + j at h
    omega
  rcases Nat.lt_trichotomy s t with hst | rfl | hst
  · have := paramElements_lt hs hi hst
    omega
  · exact ⟨rfl, by omega⟩
  · have := paramElements_lt ht hj hst
    omega

open Classical in
/-- What the parameters' numbers stand for. -/
noncomputable def paramMeaning (E : NumberingEnv U V) (m : ℕ → Arena V) (v : Vn) : Meaning V :=
  if h : ∃ p : ℕ × ℕ, E.g.isParam p.1 = true ∧ p.2 < E.g.len p.1 ∧ E.paramBase p.1 + p.2 = v then
    .value (.scalar (m 0 h.choose.1 h.choose.2))
  else .row []

theorem paramMeaning_eq {s i : ℕ} (hs : E.g.isParam s = true) (hi : i < E.g.len s) :
    paramMeaning E m (E.paramBase s + i) = .value (.scalar (m 0 s i)) := by
  have hex : ∃ p : ℕ × ℕ, E.g.isParam p.1 = true ∧ p.2 < E.g.len p.1 ∧
      E.paramBase p.1 + p.2 = E.paramBase s + i := ⟨(s, i), hs, hi, rfl⟩
  obtain ⟨hparam, hlt, heq⟩ := hex.choose_spec
  obtain ⟨hslot, helem⟩ := paramBase_inj hparam hlt hs hi heq
  rw [paramMeaning, dif_pos hex, hslot, helem]

/-- The state `analyze` starts from. -/
theorem initial_inv (E : NumberingEnv U V) (F : Functions V) (m : ℕ → Arena V) (a : Arena V)
    (entries : ℕ) :
    NumberingInv E F m 0 (fun _ => False) a (paramMeaning E m)
      { flat := fun _ _ => 0
        version := fun _ => 0
        table := []
        small := SmallTable.reserve {} entries
        next := E.paramBase E.g.slots.length } where
  version _ := rfl
  param s i hs hi := by
    have hlt := paramElements_lt hs hi (isParam_lt hs)
    refine ⟨?_, ?_, paramMeaning_eq hs hi⟩
    · change (0 : ℤ) < 1 + (paramElements E.g s : ℤ) + i
      omega
    · change 1 + (paramElements E.g s : ℤ) + i < 1 + (paramElements E.g E.g.slots.length : ℤ)
      omega
  flat _ _ h := h.elim
  next_pos := by
    change (0 : ℤ) < 1 + (paramElements E.g E.g.slots.length : ℤ)
    omega
  small _ _ h := (SmallTable.holds_of_reserve h).elim
  table _ _ h := absurd h List.not_mem_nil

section Pass

variable (hrun : Run E F m) (hfills : (E.fills.map Prod.fst).Nodup)

include hrun hfills

/-- One slot gets its first numbers. -/
theorem materializeSlot_inv {n : ℕ}
    (h : NumberingInv E F m 0 (fun s => E.IsTracked s ∧ s < n) (m 0) den st) :
    ∃ den', Extends den st.next den' (E.materializeSlot n st).next ∧
      NumberingInv E F m 0 (fun s => E.IsTracked s ∧ s < n + 1) (m 0) den'
        (E.materializeSlot n st) := by
  have hsplit : ∀ {buf : ℕ → V}, (∀ i < E.g.len n, buf i = m 0 n i) → ∀ s,
      E.IsTracked s ∧ s < n + 1 → ((E.IsTracked s ∧ s < n) ∨ s = n) ∧
        ∀ i < E.g.len s, m 0 s i = Function.update (m 0) n buf s i := by
    intro buf hbuf s hs
    rcases Nat.lt_succ_iff_lt_or_eq.1 hs.2 with hlt | rfl
    · exact ⟨.inl ⟨hs.1, hlt⟩, fun i _ => by rw [Function.update_of_ne hlt.ne]⟩
    · exact ⟨.inr rfl, fun i hi => by rw [Function.update_self, hbuf i hi]⟩
  rw [NumberingEnv.materializeSlot]
  split
  · split
    · rename_i xs hxs
      have hfill : E.g.isParam n = false ∧ E.fullFill n = some xs := by
        split at hxs
        · cases hxs
        · exact ⟨Bool.eq_false_iff.2 ‹_›, hxs⟩
      obtain ⟨hfillOf, hlen⟩ := fillOf_of_fullFill hfill.2
      have hvalue : ∀ {i : ℕ} {x : V}, xs[i]? = some x → m 0 n i = x := fun hx =>
        hrun.initial_fill hfills hfill.1 hfillOf hx
      obtain ⟨den', hext, hinv, hn⟩ := each_gives
        (f := fun (p : V × ℕ) st => E.datum n p.2 p.1 st)
        (d := fun p => .value (.scalar p.1)) (l := xs.zipIdx) h
        fun p hp den' st' _ hinv => datum_gives hrun hinv (hvalue (List.mem_zipIdx_iff_getElem?.1 hp))
      refine ⟨den', hext, (hinv.setSlot (s := n) (b := m 0 n) fun i hi => ?_).mono
        (hsplit fun _ _ => rfl)⟩
      have hnums := hn.length_eq
      rw [List.length_zipIdx] at hnums
      have hget := hn.get (i := i) (by omega) (by rw [List.length_zipIdx]; omega)
      rw [List.getD_eq_getElem _ _ (by omega)]
      have hx := hvalue (List.getElem?_eq_getElem (l := xs) (i := i) (by omega))
      rw [hx]
      simpa using hget
    · obtain ⟨den', hext, hinv⟩ := freshSlot_inv h n (m 0 n)
      exact ⟨den', hext, hinv.mono (hsplit fun _ _ => rfl)⟩
  · rename_i htracked
    refine ⟨den, Extends.refl den st.next, h.mono fun s hs => ⟨⟨hs.1, ?_⟩, fun _ _ => rfl⟩⟩
    rcases Nat.lt_succ_iff_lt_or_eq.1 hs.2 with hlt | rfl
    · exact hlt
    · exact absurd hs.1 htracked

/-- All slots have their first numbers. -/
theorem materialize_inv : ∃ den, NumberingInv E F m 0 E.IsTracked (m 0) den E.materialize := by
  have hfold : ∀ n, ∃ den, NumberingInv E F m 0 (fun s => E.IsTracked s ∧ s < n) (m 0) den
      ((List.range n).foldl (fun st s => E.materializeSlot s st)
        { flat := fun _ _ => 0
          version := fun _ => 0
          table := []
          small := SmallTable.reserve {} (E.flatSize / 2)
          next := E.paramBase E.g.slots.length }) := by
    intro n
    induction n with
    | zero =>
      exact ⟨_, (initial_inv E F m (m 0) (E.flatSize / 2)).mono
        fun s hs => absurd hs.2 (Nat.not_lt_zero s)⟩
    | succ n ih =>
      obtain ⟨den, hinv⟩ := ih
      rw [List.range_succ, List.foldl_append, List.foldl_cons, List.foldl_nil]
      obtain ⟨den', -, hinv'⟩ := materializeSlot_inv hrun hfills hinv
      exact ⟨den', hinv'⟩
  obtain ⟨den, hinv⟩ := hfold E.g.slots.length
  refine ⟨den, hinv.mono fun s hs => ⟨⟨hs, ?_⟩, fun _ _ => rfl⟩⟩
  by_contra hge
  have hlen : E.g.len s = 0 := by
    rw [Graph.len, List.getElem?_eq_none (by omega)]
    rfl
  rw [NumberingEnv.IsTracked, NumberingEnv.tracked, hlen] at hs
  simp at hs

end Pass

/-! ## Questions and answers -/

/-- What a question reads is there: a slot of length one broadcasts. -/
def NumberingEnv.Query.InRange (g : Graph U) : NumberingEnv.Query → Prop
  | .elem s i => g.len s = 1 ∨ i < g.len s
  | .row _ args => ∀ arg ∈ args, g.len arg.1 = 1 ∨ arg.2 < g.len arg.1

/-- The value a density reads for one observation. -/
def argument (g : Graph U) (a : Arena V) (arg : ℕ × ℕ) : V := a arg.1 (element g arg.1 arg.2)

/-- An answer stands for what was asked about, as it stood then. -/
def Answered (E : NumberingEnv U V) (m : ℕ → Arena V) (den : Vn → Meaning V) (bound : Vn)
    (r : NumberingEnv.Answer) : Prop :=
  match r.query with
  | .elem s i => Names den bound r.number (.value (.scalar (argument E.g (m r.pos) (s, i))))
  | .row outcomes args =>
    (∃ nums, r.words = outcomes ++ nums ∧ List.Forall₂ (fun v arg =>
      Names den bound v (.value (.scalar (argument E.g (m r.pos) arg)))) nums args) ∧
    (r.number = 0 ∧ r.words = [] ∨ Names den bound r.number (.row r.words))

/-- Later numbers do not change what an answer stands for. -/
theorem Answered.extend {den' : Vn → Meaning V} {bound bound' : Vn} {r : NumberingEnv.Answer}
    (h : Answered E m den bound r) (hext : Extends den bound den' bound') :
    Answered E m den' bound' r := by
  obtain ⟨pos, query, words, number⟩ := r
  cases query with
  | elem s i => exact Names.extend h hext
  | row outcomes args =>
    obtain ⟨⟨nums, hwords, hnums⟩, hnumber⟩ := h
    refine ⟨⟨nums, hwords, hnums.imp fun _ _ hn => hn.extend hext⟩, ?_⟩
    exact hnumber.imp id fun hn => hn.extend hext

section Answers

variable (hrun : Run E F m) (hfills : (E.fills.map Prod.fst).Nodup) (hk : k ≤ E.g.ops.length)

include hrun hfills hk

/-- One question. -/
theorem ask_inv (h : NumberingInv E F m k E.IsTracked (m k) den st) {q : NumberingEnv.Query}
    (hq : q.InRange E.g) :
    ∃ den', Extends den st.next den' (E.ask k q st).2.next ∧
      NumberingInv E F m k E.IsTracked (m k) den' (E.ask k q st).2 ∧
      Answered E m den' (E.ask k q st).2.next (E.ask k q st).1 := by
  cases q with
  | elem s i => exact elem_gives hrun hfills hk h (element_lt hq)
  | row outcomes args =>
    obtain ⟨den₁, hext₁, hinv₁, hn₁⟩ := @each_gives U V E F m k E.IsTracked (m k) den st (ℕ × ℕ)
      (fun arg st => E.elem arg.1 arg.2 st)
      (fun arg => .value (.scalar (argument E.g (m k) arg))) args h
      fun arg harg den st _ h => elem_gives hrun hfills hk h (element_lt (hq arg harg))
    obtain ⟨den₂, hext₂, hinv₂, hrow⟩ := row_gives hrun hinv₁
      (outcomes ++ (each (fun arg st => E.elem arg.1 arg.2 st) args st).1)
    refine ⟨den₂, hext₁.trans hext₂, hinv₂, ⟨_, rfl, ?_⟩, hrow⟩
    exact hn₁.imp fun _ _ hn => hn.extend hext₂

/-- All the questions before one op. -/
theorem asks_inv (h : NumberingInv E F m k E.IsTracked (m k) den st) {qs : List NumberingEnv.Query}
    (hqs : ∀ q ∈ qs, q.InRange E.g) :
    ∃ den', Extends den st.next den' (each (E.ask k) qs st).2.next ∧
      NumberingInv E F m k E.IsTracked (m k) den' (each (E.ask k) qs st).2 ∧
      ∀ r ∈ (each (E.ask k) qs st).1, Answered E m den' (each (E.ask k) qs st).2.next r := by
  induction qs generalizing den st with
  | nil => exact ⟨den, Extends.refl den st.next, h, fun r hr => absurd hr List.not_mem_nil⟩
  | cons q qs ih =>
    obtain ⟨den₁, hext₁, hinv₁, hr₁⟩ := ask_inv hrun hfills hk h (hqs q (List.mem_cons_self ..))
    obtain ⟨den₂, hext₂, hinv₂, hrs⟩ := ih hinv₁ fun q' hq' => hqs q' (List.mem_cons_of_mem _ hq')
    refine ⟨den₂, hext₁.trans hext₂, hinv₂, ?_⟩
    intro r hr
    rcases List.mem_cons.1 hr with rfl | hr
    · exact hr₁.extend hext₂
    · exact hrs r hr

end Answers

/-- Up to any op, one meaning of the numbers answers every question there was. -/
theorem pass_inv (hrun : Run E F m) (hfills : (E.fills.map Prod.fst).Nodup)
    {queries : ℕ → List NumberingEnv.Query} (hqueries : ∀ k, ∀ q ∈ queries k, q.InRange E.g) (n : ℕ)
    (hn : n ≤ E.g.ops.length) :
    ∃ den, NumberingInv E F m n E.IsTracked (m n) den (E.pass queries n).2 ∧
      ∀ r ∈ (E.pass queries n).1, Answered E m den (E.pass queries n).2.next r := by
  induction n with
  | zero =>
    obtain ⟨den, hinv⟩ := materialize_inv hrun hfills
    obtain ⟨den', -, hinv', hanswers⟩ := asks_inv hrun hfills hn hinv (hqueries 0)
    exact ⟨den', hinv', hanswers⟩
  | succ n ih =>
    obtain ⟨den, hinv, hanswers⟩ := ih (by omega)
    have hop := List.getElem?_eq_getElem (l := E.g.ops) (i := n) (by omega)
    obtain ⟨den₁, hext₁, hinv₁⟩ := number_inv hrun hfills (by omega) hinv hop
    obtain ⟨den₂, hext₂, hinv₂, hnew⟩ := asks_inv hrun hfills hn hinv₁ (hqueries (n + 1))
    rw [NumberingEnv.pass, hop]
    refine ⟨den₂, hinv₂, ?_⟩
    intro r hr
    rcases List.mem_append.1 hr with hr | hr
    · exact (hanswers r hr).extend (hext₁.trans hext₂)
    · exact hnew r hr

/-! ## Equal answers -/

/-- Numbers that agree word by word stand for the same values. -/
theorem map_eq_of_names {α : Type*} {bound : Vn} {value value' : α → V} {nums nums' : List Vn}
    {args args' : List α} (h : List.Forall₂ (fun v arg =>
      Names den bound v (.value (.scalar (value arg)))) nums args)
    (h' : List.Forall₂ (fun v arg => Names den bound v (.value (.scalar (value' arg)))) nums' args')
    (heq : nums = nums') : args.map value = args'.map value' := by
  subst heq
  have hvalues := forall₂_names_unique
    (List.forall₂_map_right_iff.2 h : List.Forall₂ _ nums (args.map fun arg => .scalar (value arg)))
    (List.forall₂_map_right_iff.2 h' : List.Forall₂ _ nums (args'.map fun arg => .scalar (value' arg)))
  apply List.map_injective_iff.2 (fun _ _ hx => Operand.scalar.inj hx)
  rwa [List.map_map, List.map_map]

/-- The words of rows with one number. -/
theorem Answered.words_eq {bound : Vn} {r r' : NumberingEnv.Answer} {outcomes outcomes' : List ℤ}
    {args args' : List (ℕ × ℕ)} (h : Answered E m den bound r) (h' : Answered E m den bound r')
    (hr : r.query = .row outcomes args) (hr' : r'.query = .row outcomes' args')
    (hnumber : r.number = r'.number) : r.words = r'.words := by
  rw [Answered, hr] at h
  rw [Answered, hr', ← hnumber] at h'
  exact row_words_unique h.2 h'.2

theorem Answered.row_eq {bound : Vn} {r r' : NumberingEnv.Answer} {outcomes outcomes' : List ℤ}
    {args args' : List (ℕ × ℕ)} (h : Answered E m den bound r) (h' : Answered E m den bound r')
    (hr : r.query = .row outcomes args) (hr' : r'.query = .row outcomes' args')
    (hlen : outcomes.length = outcomes'.length) (hnumber : r.number = r'.number) :
    outcomes = outcomes' ∧
      args.map (argument E.g (m r.pos)) = args'.map (argument E.g (m r'.pos)) := by
  have hwords := h.words_eq h' hr hr' hnumber
  rw [Answered, hr] at h
  rw [Answered, hr'] at h'
  obtain ⟨⟨nums, heq, hnums⟩, -⟩ := h
  obtain ⟨⟨nums', heq', hnums'⟩, -⟩ := h'
  rw [heq, heq'] at hwords
  obtain ⟨houtcomes, hrest⟩ := List.append_inj hwords hlen
  exact ⟨houtcomes, map_eq_of_names hnums hnums' hrest⟩

/-- Keys that were given one number are one key. -/
theorem issued_each {keys : List (List ℤ)} (hkeys : ∀ key ∈ keys, key.length ≤ SmallTable.kWords)
    {t : SmallTable × Vn} {issued : List (List ℤ × Vn)} (h : SmallTable.Issued t issued) :
    SmallTable.Issued (each SmallTable.issue keys t).2
      (issued ++ keys.zip (each SmallTable.issue keys t).1) := by
  induction keys generalizing t issued with
  | nil =>
    rw [List.zip_nil_left, List.append_nil]
    exact h
  | cons key keys ih =>
    have hrest := ih (fun key' hkey' => hkeys key' (List.mem_cons_of_mem _ hkey'))
      (h.step (hkeys key (List.mem_cons_self ..)))
    rwa [List.append_assoc] at hrest

/-- In every forward pass, whatever is asked between its ops: elements with one number hold one value,
rows with one number have the same words and then the same outcomes and arguments, and the small table
gives one number to one key only. -/
theorem equal_numbers (E : NumberingEnv U V) (hfills : (E.fills.map Prod.fst).Nodup)
    (F : Functions V) (m : ℕ → Arena V) (hrun : Run E F m)
    (queries : ℕ → List NumberingEnv.Query) (hqueries : ∀ k, ∀ q ∈ queries k, q.InRange E.g) (n : ℕ)
    (hn : n ≤ E.g.ops.length) :
    (∀ r ∈ (E.pass queries n).1, ∀ r' ∈ (E.pass queries n).1, r.number = r'.number →
      (∀ s i s' i', r.query = .elem s i → r'.query = .elem s' i' →
        argument E.g (m r.pos) (s, i) = argument E.g (m r'.pos) (s', i')) ∧
      ∀ outcomes args outcomes' args', r.query = .row outcomes args →
        r'.query = .row outcomes' args' → r.words = r'.words ∧
          (outcomes.length = outcomes'.length → outcomes = outcomes' ∧
            args.map (argument E.g (m r.pos)) = args'.map (argument E.g (m r'.pos)))) ∧
    ∀ (entries : ℕ) (next : Vn), 0 < next → ∀ keys : List (List ℤ),
      (∀ key ∈ keys, key.length ≤ SmallTable.kWords) → ∀ key key' v,
      (key, v) ∈ keys.zip
        (each SmallTable.issue keys (SmallTable.reserve {} entries, next)).1 →
      (key', v) ∈ keys.zip
        (each SmallTable.issue keys (SmallTable.reserve {} entries, next)).1 → key = key' := by
  constructor
  · obtain ⟨den, -, hanswers⟩ := pass_inv hrun hfills hqueries n hn
    intro r hr r' hr' hnumber
    have h := hanswers r hr
    have h' := hanswers r' hr'
    constructor
    · intro s i s' i' hq hq'
      rw [Answered, hq] at h
      rw [Answered, hq', ← hnumber] at h'
      exact Operand.scalar.inj (Meaning.value.inj (h.unique h'))
    · intro outcomes args outcomes' args' hq hq'
      exact ⟨h.words_eq h' hq hq' hnumber, fun hlen => h.row_eq h' hq hq' hlen hnumber⟩
  · intro entries next hnext keys hkeys key key' v hv hv'
    have hissued := issued_each hkeys (SmallTable.issued_reserve entries hnext)
    exact hissued.inj key key' v (List.mem_append_right _ hv) (List.mem_append_right _ hv')

/-! ## A store of a parameter into data -/

def storedParam : NumberingEnv Unit ℤ where
  g := ⟨[⟨1, true⟩, ⟨2, false⟩],
    [{ opcode := .setIndexInplace, out := 1, ins := [1, 0], idata := [1] }], none⟩
  fills := [(1, [3, 4])]
  registered _ := true
  makesState _ := false
  bits := Function.Embedding.refl ℤ
  inCone _ := true
  active s := s == 0
  bySlot := false

/-- Its forward pass at the parameter value seven. -/
def storedParamRun : ℕ → Arena ℤ
  | 0 => fun s => if s = 0 then fun _ => 7 else Fills.apply storedParam.fills (fun _ _ => 0) s
  | _ + 1 => fun s =>
    if s = 0 then fun _ => 7
    else if s = 1 then fun i => if i = 1 then 7 else if i = 0 then 3 else 0
    else Fills.apply storedParam.fills (fun _ _ => 0) s

def storedParamQueries : ℕ → List NumberingEnv.Query
  | 0 => [.elem 0 0]
  | _ => [.elem 1 1]

theorem run_storedParam (F : Functions ℤ) : Run storedParam F storedParamRun where
  initial := by
    refine ⟨fun _ _ => 7, fun _ _ => 0, fun s => ?_⟩
    rcases s with _ | _ | s <;> rfl
  step k op hop := by
    obtain ⟨hk, rfl⟩ := List.getElem?_eq_some_iff.1 hop
    have hk : k = 0 := Nat.lt_one_iff.1 hk
    subst hk
    refine ⟨fun s hs => ?_, ?_⟩
    · have hne : s ≠ 1 := fun h => hs (h ▸ List.mem_singleton.2 rfl)
      change (if s = 0 then _ else if s = 1 then _ else _) = (if s = 0 then _ else _)
      rw [if_neg hne]
    · have hleaves : ∀ i < 2, storedParamRun 1 1 i =
          if i = 1 then storedParamRun 0 0 0
          else storedParamRun 0 1 (element storedParam.g 1 i) := by decide
      exact hleaves

/-- The parameter and the element it was stored in have one number. -/
theorem equal_numbers_storedParam :
    argument storedParam.g (storedParamRun 0) (0, 0) = argument storedParam.g (storedParamRun 1) (1, 1) := by
  have hqueries : ∀ k, ∀ q ∈ storedParamQueries k, q.InRange storedParam.g := by
    intro k q hq
    cases k with
    | zero =>
      rw [List.mem_singleton.1 hq]
      exact .inl rfl
    | succ k =>
      rw [List.mem_singleton.1 hq]
      exact .inr (by decide)
  have h := (equal_numbers storedParam (by decide) ⟨fun _ _ _ _ => 0, fun _ _ => 0⟩ storedParamRun
    (run_storedParam _) storedParamQueries hqueries 1 le_rfl).1
  exact (h ⟨0, .elem 0 0, [], 1⟩ (by decide +kernel) ⟨1, .elem 1 1, [], 1⟩ (by decide +kernel) rfl).1
    0 0 1 1 rfl rfl

/-! ## A slot that is filled twice -/

def filledTwice : NumberingEnv Unit ℤ where
  g := ⟨[⟨1, false⟩, ⟨1, false⟩], [], none⟩
  fills := [(0, [1]), (0, [2]), (1, [1])]
  registered _ := true
  makesState _ := false
  bits := Function.Embedding.refl ℤ
  inCone _ := true
  active _ := false
  bySlot := false

/-- The numbers are those of the first fill, and the pass starts from the last. -/
theorem filledTwice_numbers : ¬ ∀ (F : Functions ℤ) (m : ℕ → Arena ℤ), Run filledTwice F m →
    ∀ r ∈ (filledTwice.pass (fun _ => [.elem 0 0, .elem 1 0]) 0).1,
    ∀ r' ∈ (filledTwice.pass (fun _ => [.elem 0 0, .elem 1 0]) 0).1, r.number = r'.number →
    ∀ s i s' i', r.query = .elem s i → r'.query = .elem s' i' →
      argument filledTwice.g (m r.pos) (s, i) = argument filledTwice.g (m r'.pos) (s', i') := by
  intro h
  have hrun : Run filledTwice ⟨fun _ _ _ _ => 0, fun _ _ => 0⟩
      fun _ => Fills.apply filledTwice.fills fun _ _ => 0 := by
    refine ⟨⟨fun _ _ => 0, fun _ _ => 0, fun s => ?_⟩, fun k op hop => ?_⟩
    · rcases s with _ | _ | s <;> rfl
    · cases hop
  have heq := h _ _ hrun ⟨0, .elem 0 0, [], 1⟩ (by decide +kernel) ⟨0, .elem 1 0, [], 1⟩
    (by decide +kernel) rfl 0 0 1 0 rfl rfl
  exact absurd heq (by decide)

end Stanli.Collapse
