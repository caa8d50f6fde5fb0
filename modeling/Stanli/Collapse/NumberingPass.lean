import Stanli.Collapse.NumberingSound

/-!
# Value numbering is sound

One op: its outputs get numbers for what the op leaves there, shape by shape.  From that, over the whole
pass with any questions in between, every answer stands for what was asked about, as it stood then; so
elements with one number hold one value, wherever and whenever they were asked for.
-/

namespace Stanli.Collapse

variable {U V : Type*} {E : NumberingEnv U V} {F : Functions V} {m : ℕ → Arena V} {k : ℕ}
  {T T' : ℕ → Prop} {a a' : Arena V} {den : Vn → Meaning V} {st : Numbering}

/-! ## Writing numbers -/

theorem getD_of_forall₂_range {P : Vn → ℕ → Prop} {l : List Vn} {n : ℕ}
    (h : List.Forall₂ P l (List.range n)) {i : ℕ} (hi : i < n) : P (l.getD i 0) i := by
  have hlen := h.length_eq
  rw [List.length_range] at hlen
  have hget := h.get (i := i) (by omega) (by rwa [List.length_range])
  rw [List.getD_eq_getElem _ _ (by omega)]
  simpa using hget

/-- A slot whose elements get numbers for other contents. -/
theorem NumberingInv.setSlot (h : NumberingInv E F m k T a den st) {s : ℕ} {result : List Vn}
    {b : ℕ → V} (hresult : ∀ i < E.g.len s,
      Names den st.next (result.getD i 0) (.value (.scalar (b i)))) :
    NumberingInv E F m k (fun t => T t ∨ t = s) (Function.update a s b) den (st.setSlot s result) := by
  refine { h with flat := ?_ }
  intro t i ht hi
  by_cases hts : t = s
  · subst hts
    simp only [Numbering.setSlot, Function.update_self]
    exact hresult i hi
  · simp only [Numbering.setSlot, Function.update_of_ne hts]
    exact h.flat t i (ht.resolve_right hts) hi

/-- Fewer slots, with the same contents. -/
theorem NumberingInv.mono (h : NumberingInv E F m k T a den st)
    (hT : ∀ s, T' s → T s ∧ ∀ i < E.g.len s, a' s i = a s i) :
    NumberingInv E F m k T' a' den st := by
  refine { h with flat := ?_ }
  intro s i hs hi
  rw [(hT s hs).2 i hi]
  exact h.flat s i (hT s hs).1 hi

/-- The versions move on with an op. -/
theorem NumberingInv.bump (h : NumberingInv E F m k T a den st) {op : Op U}
    (hop : E.g.ops[k]? = some op) :
    NumberingInv E F m (k + 1) T a den
      { st with version := fun s => st.version s + op.outs.count s } := by
  refine { h with version := ?_ }
  intro s
  rw [versionAt_succ hop, ← h.version]

theorem length_each {α β σ : Type*} (ask : α → σ → β × σ) (l : List α) (st : σ) :
    (each ask l st).1.length = l.length := by
  induction l generalizing st with
  | nil => rfl
  | cons b l ih => rw [each, List.length_cons, ih, List.length_cons]

/-- New numbers may stand for any contents. -/
theorem freshSlot_inv (h : NumberingInv E F m k T a den st) (s : ℕ) (buf : ℕ → V) :
    ∃ den', Extends den st.next den' (st.freshSlot (E.g.len s) s).next ∧
      NumberingInv E F m k (fun t => T t ∨ t = s) (Function.update a s buf) den' (st.freshSlot (E.g.len s) s) := by
  obtain ⟨den', hext, hinv, hn⟩ := each_gives (f := fun _ st => st.fresh)
    (d := fun i => .value (.scalar (buf i))) (l := List.range (E.g.len s)) h
    fun i _ den st _ h => fresh_gives h _
  exact ⟨den', hext, hinv.setSlot fun i hi => getD_of_forall₂_range hn hi⟩

theorem getD_set (l : List Vn) (v : Vn) {n i : ℕ} (hi : i < l.length) :
    (l.set n v).getD i 0 = if i = n then v else l.getD i 0 := by
  rw [List.getD_eq_getElem _ _ (by rwa [List.length_set]), List.getElem_set,
    List.getD_eq_getElem _ _ hi]
  exact if_congr eq_comm rfl rfl

theorem getD_map_range (f : ℕ → Vn) {n i : ℕ} (hi : i < n) :
    ((List.range n).map f).getD i 0 = f i := by
  rw [List.getD_eq_getElem _ _ (by rwa [List.length_map, List.length_range]), List.getElem_map,
    List.getElem_range]

/-- A store of numbers next to the store of what they stand for. -/
theorem writeComb_rel {P : Vn → V → Prop} {start stride n : ℕ} {rhs buf : ℕ → Vn}
    {rhs' buf' : ℕ → V} (hrhs : ∀ j < n, P (rhs j) (rhs' j)) {i : ℕ} (hbuf : P (buf i) (buf' i)) :
    P (writeComb start stride n rhs buf i) (writeComb start stride n rhs' buf' i) := by
  induction n with
  | zero => exact hbuf
  | succ n ih =>
    rw [writeComb_succ, writeComb_succ, Function.update_apply, Function.update_apply]
    split
    · exact hrhs n (Nat.lt_succ_self n)
    · exact ih fun j hj => hrhs j (Nat.lt_succ_of_lt hj)

theorem element_lt {g : Graph U} {s i : ℕ} (h : g.len s = 1 ∨ i < g.len s) :
    element g s i < g.len s := by
  rw [element]
  split <;> omega

/-! ## One op -/

section Step

variable (hrun : Run E F m) (hfills : (E.fills.map Prod.fst).Nodup) (hk : k ≤ E.g.ops.length)

include hrun hfills hk

/-- Asking for elements of one slot, place by place. -/
theorem each_elem (h : NumberingInv E F m k E.IsTracked (m k) den st) {s n : ℕ} {p : ℕ → ℕ}
    (hplace : ∀ i < n, E.g.len s = 1 ∨ p i < E.g.len s) :
    ∃ den', Extends den st.next den' (each (fun i st => E.elem s (p i) st) (List.range n) st).2.next ∧
      NumberingInv E F m k E.IsTracked (m k) den' (each (fun i st => E.elem s (p i) st) (List.range n) st).2 ∧
      ∀ i < n, Names den' (each (fun i st => E.elem s (p i) st) (List.range n) st).2.next
        ((each (fun i st => E.elem s (p i) st) (List.range n) st).1.getD i 0)
        (.value (.scalar (m k s (element E.g s (p i))))) := by
  obtain ⟨den', hext, hinv, hn⟩ := each_gives (f := fun i st => E.elem s (p i) st)
    (d := fun i => .value (.scalar (m k s (element E.g s (p i))))) (l := List.range n) h
    fun i hi den st _ h => elem_gives hrun hfills hk h (element_lt (hplace i (List.mem_range.1 hi)))
  exact ⟨den', hext, hinv, fun i hi => getD_of_forall₂_range hn hi⟩

/-- The numbers of an elementwise op. -/
theorem each_elementwise (h : NumberingInv E F m k E.IsTracked (m k) den st) {op : Op U}
    (hlen : ∀ s ∈ op.ins, E.g.len s = 1 ∨ E.g.len s = E.g.len op.out) {i : ℕ}
    (hi : i < E.g.len op.out) :
    Gives E F m k E.IsTracked (m k) den st
      ((each (fun s st => E.elem s i st) op.ins st).2.intern
        (opKey op.opcode op.variant (each (fun s st => E.elem s i st) op.ins st).1 []))
      (.value (.scalar (F.apply op.opcode op.variant
        (op.ins.map fun s => .scalar (m k s (element E.g s i))) []))) := by
  obtain ⟨den₁, hext₁, hinv₁, hn₁⟩ := each_gives (f := fun s st => E.elem s i st)
    (d := fun s => .value (.scalar (m k s (element E.g s i)))) (l := op.ins) h
    fun s hs den st _ h => elem_gives hrun hfills hk h
      (element_lt ((hlen s hs).imp id fun h => by omega))
  obtain ⟨den₂, hext₂, hinv₂, hn₂⟩ := intern_gives hrun hinv₁
    (.op op.opcode op.variant _ _ (List.forall₂_map_right_iff.2 hn₁) [] rfl)
  exact ⟨den₂, hext₁.trans hext₂, hinv₂, hn₂⟩

/-- The number of a scalar op. -/
theorem pureScalar_gives (h : NumberingInv E F m k E.IsTracked (m k) den st) (op : Op U) :
    Gives E F m k E.IsTracked (m k) den st
      ((each E.operandNumber op.ins st).2.intern
        (opKey op.opcode op.variant (each E.operandNumber op.ins st).1 op.idata))
      (.value (.scalar (F.apply op.opcode op.variant (op.ins.map (operand E.g (m k))) op.idata))) := by
  obtain ⟨den₁, hext₁, hinv₁, hn₁⟩ := each_gives (f := E.operandNumber)
    (d := fun s => .value (operand E.g (m k) s)) (l := op.ins) h
    fun s _ den st _ h => operandNumber_gives hrun hfills hk h s
  obtain ⟨den₂, hext₂, hinv₂, hn₂⟩ := intern_gives hrun hinv₁
    (.op op.opcode op.variant _ _ (List.forall₂_map_right_iff.2 hn₁) op.idata rfl)
  exact ⟨den₂, hext₁.trans hext₂, hinv₂, hn₂⟩

omit hfills in
/-- The key of a row of a matrix of data says what the row and the vector give. -/
theorem matvecKey_means (hfills : (E.fills.map Prod.fst).Nodup) {beta : Vn} {s t rows r : ℕ}
    {x : List V} {bound : Vn} (hx : E.dataOf s = some x)
    (hlen : E.g.len s = rows * E.g.len t) (hr : r < rows)
    (hbeta : Names den bound beta (.value (.whole (contents E.g (m k) t)))) :
    Means E F m den bound (E.matvecKey beta s x rows (E.g.len t) r)
      (.value (.scalar (F.row (matrixRow (m k s) rows (E.g.len t) r) (contents E.g (m k) t)))) := by
  obtain ⟨-, hwrites, hfill⟩ := dataOf_eq_some hx
  have hxlen := (fillOf_of_fullFill hfill).2
  have hxs : (contents E.g (m k) t).length = E.g.len t := by
    rw [contents, List.length_map, List.length_range]
  rw [NumberingEnv.matvecKey]
  split
  · rename_i hmode
    have hrow : matrixRow (m k s) rows (E.g.len t) r =
        matrixRow (m 0 s) (E.g.len s / (contents E.g (m k) t).length)
          (contents E.g (m k) t).length r := by
      rw [hxs, hrun.slot_eq_initial hk hwrites]
      rcases Nat.eq_zero_or_pos (E.g.len t) with hzero | hpos
      · rw [hzero, matrixRow, matrixRow, List.range_zero, List.map_nil, List.map_nil]
      · rw [hlen, Nat.mul_div_cancel _ hpos]
    rw [hrow]
    exact .matvecPlace beta _ s r hbeta hmode rfl
  · rename_i hmode
    apply Means.matvec beta _ _ hbeta (Bool.eq_false_iff.2 hmode)
    congr 2
    rw [matrixRow, List.map_map]
    apply List.map_congr_left
    intro c hc
    have hc := List.mem_range.1 hc
    have hplace : c * rows + r < x.length := by
      rw [hxlen, hlen]
      calc c * rows + r < c * rows + rows := by omega
        _ = (c + 1) * rows := (Nat.succ_mul c rows).symm
        _ ≤ E.g.len t * rows := Nat.mul_le_mul_right rows hc
        _ = rows * E.g.len t := Nat.mul_comm ..
    have hget := List.getElem?_eq_getElem hplace
    rw [hget, Option.map_some, Option.getD_some, Function.comp_apply,
      (dataOf_apply hrun hfills hk hx hget).2]

/-- The numbers of a modelled op's output. -/
theorem numberOut_inv (h : NumberingInv E F m k E.IsTracked (m k) den st) {op : Op U} {shape : Shape}
    (htracked : E.g.len op.out ≠ 0 → E.tracked op.out = true)
    (hshape : Classified E.g op shape) {out : ℕ → V} (hleaves : shape.Leaves F E.g op (m k) out) :
    ∃ den', Extends den st.next den' (E.numberOut op shape st).next ∧
      NumberingInv E F m k (fun t => E.IsTracked t ∨ t = op.out) (Function.update (m k) op.out out) den'
        (E.numberOut op shape st) := by
  cases hshape with
  | fresh => exact freshSlot_inv h op.out out
  | elementwise hlen =>
    obtain ⟨den', hext, hinv, hn⟩ := each_gives (f := fun i st =>
        (each (fun s st => E.elem s i st) op.ins st).2.intern
          (opKey op.opcode op.variant (each (fun s st => E.elem s i st) op.ins st).1 []))
      (d := fun i => .value (.scalar (F.apply op.opcode op.variant
        (op.ins.map fun s => .scalar (m k s (element E.g s i))) [])))
      (l := List.range (E.g.len op.out)) h
      fun i hi den st _ h => each_elementwise hrun hfills hk h hlen (List.mem_range.1 hi)
    refine ⟨den', hext, hinv.setSlot fun i hi => ?_⟩
    rw [hleaves i hi]
    exact getD_of_forall₂_range hn hi
  | gather hin =>
    obtain ⟨den', hext, hinv, hn⟩ := each_elem hrun hfills hk h (s := op.input 0)
      (n := E.g.len op.out) (p := fun i => (op.imm i).toNat) fun i hi => .inr (hin i hi)
    refine ⟨den', hext, hinv.setSlot fun i hi => ?_⟩
    rw [hleaves i hi]
    exact hn i hi
  | index hlen hin =>
    obtain ⟨den', hext, hinv, hn⟩ := elem_gives hrun hfills hk h (element_lt (.inr hin))
    refine ⟨den', hext, hinv.setSlot fun i hi => ?_⟩
    have hi : i = 0 := by omega
    subst hi
    rw [show out 0 = _ from hleaves]
    exact hn
  | store hlen hone =>
    obtain ⟨den₁, hext₁, hinv₁, hn₁⟩ := elem_gives hrun hfills hk h
      (element_lt (s := op.input 1) (i := 0) (.inl hone))
    have hone0 : element E.g (op.input 1) 0 = 0 := if_pos hone
    rw [hone0] at hn₁
    rw [NumberingEnv.numberOut]
    dsimp only
    split
    · rename_i hsame
      refine ⟨den₁, hext₁, hinv₁.setSlot fun i hi => ?_⟩
      rw [hleaves i hi, getD_set _ _ (by rwa [List.length_map, List.length_range]),
        getD_map_range _ hi]
      split
      · exact hn₁
      · have hplace : element E.g (op.input 0) i = i := by
          rw [element]
          split <;> omega
        rw [hplace, hsame]
        exact hinv₁.flat _ i (htracked (by omega)) hi
    · obtain ⟨den₂, hext₂, hinv₂, hn₂⟩ := each_elem hrun hfills hk hinv₁ (s := op.input 0)
        (n := E.g.len op.out) (p := fun i => i) fun i hi => .inr (by omega)
      refine ⟨den₂, hext₁.trans hext₂, hinv₂.setSlot fun i hi => ?_⟩
      rw [hleaves i hi, getD_set _ _ (by rwa [length_each, List.length_range])]
      split
      · exact hn₁.extend hext₂
      · exact hn₂ i hi
  | sliceRead hin =>
    obtain ⟨den', hext, hinv, hn⟩ := each_elem hrun hfills hk h (s := op.input 0)
      (n := E.g.len op.out) (p := fun i => sliceStart op + i * (sliceStride op).toNat)
      fun i hi => .inr (hin i hi)
    refine ⟨den', hext, hinv.setSlot fun i hi => ?_⟩
    rw [hleaves i hi]
    exact hn i hi
  | sliceWrite hlen =>
    obtain ⟨den₁, hext₁, hinv₁, hn₁⟩ := each_elem hrun hfills hk h (s := op.input 0)
      (n := E.g.len op.out) (p := fun i => i) fun i hi => .inr (by omega)
    obtain ⟨den₂, hext₂, hinv₂, hn₂⟩ := each_elem hrun hfills hk hinv₁ (s := op.input 1)
      (n := E.g.len (op.input 1)) (p := fun i => i) fun i hi => .inr hi
    refine ⟨den₂, hext₁.trans hext₂, hinv₂.setSlot fun i hi => ?_⟩
    rw [hleaves i hi, getD_map_range _ hi]
    exact writeComb_rel (P := fun v x => Names den₂ _ v (.value (.scalar x))) hn₂
      ((hn₁ i hi).extend hext₂)
  | matvec hlen =>
    rw [NumberingEnv.numberOut]
    dsimp only
    split
    · rename_i x hx
      have hx : E.dataOf (op.input 0) = some x := by
        split at hx
        · cases hx
        · exact hx
      obtain ⟨den₁, hext₁, hinv₁, hbeta⟩ := wholeSlot_gives hrun hk h (op.input 1)
      generalize st.wholeSlot (op.input 1) = beta at hext₁ hinv₁ hbeta ⊢
      obtain ⟨den₂, hext₂, hinv₂, hn⟩ := each_gives
        (f := fun r st => st.intern
          (E.matvecKey beta.1 (op.input 0) x (E.g.len op.out) (E.g.len (op.input 1)) r))
        (d := fun r => .value (.scalar (out r))) (l := List.range (E.g.len op.out)) hinv₁ (by
          intro r hr den' st' hext hinv
          have hr := List.mem_range.1 hr
          apply intern_gives hrun hinv
          rw [hleaves r hr]
          exact matvecKey_means hrun hk hfills hx hlen hr (hbeta.extend hext))
      exact ⟨den₂, hext₁.trans hext₂, hinv₂.setSlot fun i hi => getD_of_forall₂_range hn hi⟩
    · exact freshSlot_inv h op.out out
  | pureScalar hlen =>
    obtain ⟨den', hext, hinv, hn⟩ := pureScalar_gives hrun hfills hk h op
    refine ⟨den', hext, hinv.setSlot fun i hi => ?_⟩
    have hi : i = 0 := by omega
    subst hi
    rw [show out 0 = _ from hleaves]
    exact hn

/-- One op, at its place in the pass. -/
theorem number_inv (h : NumberingInv E F m k E.IsTracked (m k) den st) {op : Op U}
    (hop : E.g.ops[k]? = some op) :
    ∃ den', Extends den st.next den' (E.number op st).next ∧
      NumberingInv E F m (k + 1) E.IsTracked (m (k + 1)) den' (E.number op st) := by
  have hstep := hrun.step k op hop
  have hwritten : ∀ s ∈ op.outs, E.nWrites s ≠ 0 := by
    intro s hs
    have hmem : s ∈ E.g.ops.flatMap Op.outs :=
      List.mem_flatMap.2 ⟨op, List.mem_of_getElem? hop, hs⟩
    exact (List.count_pos_iff.2 hmem).ne'
  obtain ⟨den₁, hext₁, hinv₁⟩ : ∃ den₁, Extends den st.next den₁
      (if E.inCone op.out = true then
        E.numberOut op (classify E.registered E.makesState E.g op) st else st).next ∧
      NumberingInv E F m k E.IsTracked (Function.update (m k) op.out (m (k + 1) op.out)) den₁
        (if E.inCone op.out = true then
          E.numberOut op (classify E.registered E.makesState E.g op) st else st) := by
    split
    · rename_i hcone
      have htracked : E.g.len op.out ≠ 0 → E.tracked op.out = true := by
        intro hlen
        rw [NumberingEnv.tracked, hcone, decide_eq_true (hwritten op.out (by simp [Op.outs])),
          decide_eq_true hlen]
        rfl
      obtain ⟨den₁, hext₁, hinv₁⟩ := numberOut_inv hrun hfills hk h htracked
        (classified E.registered E.makesState E.g op) hstep.leaves
      exact ⟨den₁, hext₁, hinv₁.mono fun s hs => ⟨.inl hs, fun _ _ => rfl⟩⟩
    · rename_i hcone
      refine ⟨den, Extends.refl den st.next, h.mono fun s hs => ⟨hs, fun i _ => ?_⟩⟩
      rw [Function.update_of_ne]
      rintro rfl
      rw [NumberingEnv.IsTracked, NumberingEnv.tracked, Bool.eq_false_iff.2 hcone] at hs
      cases hs
  rw [NumberingEnv.number]
  generalize (if E.inCone op.out = true then
    E.numberOut op (classify E.registered E.makesState E.g op) st else st) = st₁ at hext₁ hinv₁ ⊢
  cases hout2 : op.out2 with
  | none =>
    refine ⟨den₁, hext₁, (hinv₁.mono fun s hs => ⟨hs, fun i _ => ?_⟩).bump hop⟩
    by_cases hs : s = op.out
    · rw [hs, Function.update_self]
    · rw [Function.update_of_ne hs, hstep.frame s]
      simp [Op.outs, hout2, hs]
  | some t =>
    obtain ⟨den₂, hext₂, hinv₂⟩ := freshSlot_inv hinv₁ t (m (k + 1) t)
    have hframe : ∀ s, s ≠ t → Function.update (m k) op.out (m (k + 1) op.out) s = m (k + 1) s := by
      intro s ht
      by_cases hs : s = op.out
      · rw [hs, Function.update_self]
      · rw [Function.update_of_ne hs, hstep.frame s]
        simp [Op.outs, hout2, hs, ht]
    dsimp only
    split
    · refine ⟨den₂, hext₁.trans hext₂, (hinv₂.mono fun s hs => ⟨.inl hs, fun i _ => ?_⟩).bump hop⟩
      by_cases ht : s = t
      · rw [ht, Function.update_self]
      · rw [Function.update_of_ne ht, hframe s ht]
    · rename_i hcone
      refine ⟨den₁, hext₁, (hinv₁.mono fun s hs => ⟨hs, fun i _ => ?_⟩).bump hop⟩
      rw [hframe]
      rintro rfl
      rw [NumberingEnv.IsTracked, NumberingEnv.tracked, Bool.eq_false_iff.2 hcone] at hs
      cases hs

end Step

end Stanli.Collapse
