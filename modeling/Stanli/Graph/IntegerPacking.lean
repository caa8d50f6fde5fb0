import Stanli.Graph.IntegerStorage

/-!
# Compacting as a packing

The loop of `compact_idata` over a sorted table of bases is a packing of the arrays that are viewed:
the table holds the offsets of the layout, and the published buffer holds every array at its offset.
-/

namespace Stanli

namespace IntStorage

/-! ## Looking up bases -/

lemma isBase_iff {s : IntStorage} {p : IntPtr} :
    s.isBase p = true ↔ p.index = 0 ∧ p.block ∈ s.pool ∧ s.elems p.block ≠ [] := by
  simp [isBase, and_assoc]

/-- The lines of the table of bases. -/
lemma mem_entries {s : IntStorage} {e : PoolEntry} : e ∈ s.entries ↔
    s.pool[e.poolIndex]? = some e.data.block ∧ e.data.index = 0 ∧ s.elems e.data.block ≠ [] ∧
      e.offset = none := by
  simp only [entries, mem_sortByKey, List.mem_map, List.mem_filter, decide_eq_true_eq,
    List.mem_zipIdx_iff_getElem?]
  constructor
  · rintro ⟨q, ⟨hq, hne⟩, rfl⟩
    exact ⟨hq, rfl, hne, rfl⟩
  · rintro ⟨hget, hidx, hne, hoff⟩
    refine ⟨(e.data.block, e.poolIndex), ⟨hget, hne⟩, ?_⟩
    obtain ⟨⟨b, i⟩, k, o⟩ := e
    obtain rfl : i = 0 := hidx
    obtain rfl : o = none := hoff
    rfl

/-- The bases of the table are different. -/
lemma pairwise_entries (s : IntStorage) :
    (s.entries.map PoolEntry.data).Pairwise (· < ·) := by
  refine pairwise_sortByKey ?_
  rw [List.map_map]
  have hfun : PoolEntry.data ∘ (fun e : ℕ × ℕ => ({ data := ⟨e.1, 0⟩, poolIndex := e.2 } : PoolEntry)) =
      (fun b => (⟨b, 0⟩ : IntPtr)) ∘ Prod.fst := rfl
  rw [hfun, ← List.map_map]
  refine List.Nodup.map (fun a b h => by simpa using h) ?_
  have hsub := (List.filter_sublist (l := s.pool.zipIdx)
    (p := fun e => decide (s.elems e.1 ≠ []))).map Prod.fst
  rw [List.zipIdx_map_fst] at hsub
  exact s.pool_nodup.sublist hsub

/-- What a table keeps of its line while offsets are assigned. -/
def PoolEntry.static (e : PoolEntry) : IntPtr × ℕ := (e.data, e.poolIndex)

/-- The search for a base of the pool finds its line. -/
lemma exists_entry {s : IntStorage} {es : List PoolEntry}
    (hes : es.map PoolEntry.static = s.entries.map PoolEntry.static) {p : IntPtr}
    (hp : s.isBase p = true) : ∃ e, es[lowerBound PoolEntry.data es p]? = some e ∧ e.data = p ∧
      s.pool.getD e.poolIndex 0 = p.block := by
  obtain ⟨hidx, hmem, hne⟩ := isBase_iff.1 hp
  obtain ⟨k, hk⟩ := List.getElem?_of_mem hmem
  have hdata : es.map PoolEntry.data = s.entries.map PoolEntry.data := by
    simpa [PoolEntry.static, Function.comp_def] using congrArg (List.map Prod.fst) hes
  have he : (p, k) ∈ es.map PoolEntry.static := by
    rw [hes]
    exact List.mem_map.2 ⟨⟨p, k, none⟩, mem_entries.2 ⟨hk, hidx, hne, rfl⟩, rfl⟩
  obtain ⟨e, hmem, hst⟩ := List.mem_map.1 he
  obtain ⟨hd, hi⟩ := Prod.mk.inj hst
  refine ⟨e, ?_, hd, ?_⟩
  · rw [← hd]
    exact getElem?_lowerBound (by rw [hdata]; exact pairwise_entries s) hmem
  · rw [hi, List.getD_eq_getElem?_getD, hk]
    rfl

/-- The lines of a table are bases of the pool. -/
lemma isBase_of_mem {s : IntStorage} {es : List PoolEntry}
    (hes : es.map PoolEntry.static = s.entries.map PoolEntry.static) {e : PoolEntry} (he : e ∈ es) :
    s.isBase e.data = true ∧ s.pool.getD e.poolIndex 0 = e.data.block := by
  have hmem : e.static ∈ s.entries.map PoolEntry.static := hes ▸ List.mem_map_of_mem he
  obtain ⟨e', he', hst⟩ := List.mem_map.1 hmem
  obtain ⟨hd, hi⟩ := Prod.mk.inj hst
  obtain ⟨hget, hidx, hne, -⟩ := mem_entries.1 he'
  rw [← hd, ← hi]
  refine ⟨isBase_iff.2 ⟨hidx, List.mem_of_getElem? hget, hne⟩, ?_⟩
  rw [List.getD_eq_getElem?_getD, hget]
  rfl

/-! ## The packing loop as a packing -/

/-- One view of the packing loop, on the layout alone. -/
def packView (isBase : IntPtr → Bool) (size : IntPtr → ℕ) (maxSize : ℕ) (P : Packing IntPtr)
    (v : IntView) : Except (Option String) (Packing IntPtr) :=
  match v.idata with
  | none => .ok P
  | some p =>
    if !isBase p then .error none
    else if (size p : ℤ) < v.nIdata then .error none
    else
      match P.offset p with
      | some _ => .ok P
      | none =>
        if maxSize - P.total < size p then .error (some "integer payload storage is too large")
        else .ok (P.place size p)

/-- The table holds a layout of bases. -/
structure Tabulates (s : IntStorage) (st : List PoolEntry × ℕ) (P : Packing IntPtr) : Prop where
  static : st.1.map PoolEntry.static = s.entries.map PoolEntry.static
  offset : ∀ e ∈ st.1, e.offset = P.offset e.data
  total : st.2 = P.total

lemma tabulates_start (s : IntStorage) : s.Tabulates (s.entries, 0) (.start 0) :=
  ⟨rfl, fun _ he => (mem_entries.1 he).2.2.2, rfl⟩

/-- The bases of a table are different. -/
lemma Tabulates.nodup {s : IntStorage} {st : List PoolEntry × ℕ} {P : Packing IntPtr}
    (h : s.Tabulates st P) : (st.1.map PoolEntry.data).Pairwise (· < ·) := by
  have hdata : st.1.map PoolEntry.data = s.entries.map PoolEntry.data := by
    simpa [PoolEntry.static, Function.comp_def] using congrArg (List.map Prod.fst) h.static
  rw [hdata]
  exact pairwise_entries s

/-- Placing a base that the table has. -/
lemma Tabulates.place {s : IntStorage} {st : List PoolEntry × ℕ} {P : Packing IntPtr}
    (h : s.Tabulates st P) {i : ℕ} {e : PoolEntry} (hget : st.1[i]? = some e) :
    s.Tabulates (st.1.set i { e with offset := some st.2 }, st.2 + s.size e.data)
      (P.place s.size e.data) := by
  obtain ⟨hlt, hat⟩ := List.getElem?_eq_some_iff.1 hget
  refine ⟨?_, fun e' he' => ?_, by rw [h.total]; rfl⟩
  · rw [List.map_set, ← h.static]
    refine List.ext_getElem? fun k => ?_
    rw [List.getElem?_set]
    split
    · rename_i hk
      subst hk
      rw [List.getElem?_map, hget]
      simp [PoolEntry.static, hlt]
    · rfl
  · obtain ⟨k, hk⟩ := List.getElem?_of_mem he'
    rw [List.getElem?_set] at hk
    split at hk
    · rename_i hik
      obtain rfl := Option.some.inj hk
      rw [Packing.place_offset_self, h.total]
    · rename_i hik
      -- Another line has another base.
      have hne : e'.data ≠ e.data := by
        intro heq
        have hinj := (List.nodup_iff_injective_getElem.1 (h.nodup.imp ne_of_lt))
        obtain ⟨hk', rfl⟩ := List.getElem?_eq_some_iff.1 hk
        subst hat
        have := @hinj ⟨i, by simpa using hlt⟩ ⟨k, by simpa using hk'⟩ (by simpa using heq.symm)
        exact hik (Fin.mk.inj this)
      rw [Packing.place_offset_of_ne hne]
      exact h.offset e' (List.mem_of_getElem? hk)

/-- A step on the table is a step on the layout. -/
lemma packStep_spec {s : IntStorage} {maxSize : ℕ} {st : List PoolEntry × ℕ} {P : Packing IntPtr}
    (h : s.Tabulates st P) (v : IntView) :
    (∀ m, packView s.isBase s.size maxSize P v = .error m → s.packStep maxSize st v = .error m) ∧
      ∀ P', packView s.isBase s.size maxSize P v = .ok P' →
        ∃ st', s.packStep maxSize st v = .ok st' ∧ s.Tabulates st' P' := by
  unfold packView packStep
  cases hv : v.idata with
  | none =>
    refine ⟨fun m hm => (by simp at hm), fun P' hP => ?_⟩
    obtain rfl := Except.ok.inj hP
    exact ⟨st, rfl, h⟩
  | some p =>
    dsimp only
    cases hbase : s.isBase p with
    | false =>
      refine ⟨fun m hm => ?_, fun P' hP => by simp at hP⟩
      obtain rfl : none = m := by simpa using hm
      cases hget : st.1[lowerBound PoolEntry.data st.1 p]? with
      | none => rfl
      | some e =>
        dsimp only
        rw [if_pos]
        rintro rfl
        have := (isBase_of_mem h.static (List.mem_of_getElem? hget)).1
        simp [hbase] at this
    | true =>
      obtain ⟨e, hget, rfl, hblock⟩ := exists_entry h.static hbase
      have hmem := List.mem_of_getElem? hget
      have hsize : (s.elems (s.pool.getD e.poolIndex 0)).length = s.size e.data := by
        rw [hblock, size]
      simp only [hget, hsize, ne_eq, not_true, if_false, Bool.not_true, Bool.false_eq_true]
      split
      · exact ⟨fun m hm => congrArg _ (Except.error.inj hm), fun P' hP => by simp at hP⟩
      · rw [h.offset e hmem]
        cases hoff : P.offset e.data with
        | some o =>
          refine ⟨fun m hm => (by simp at hm), fun P' hP => ?_⟩
          obtain rfl := Except.ok.inj hP
          exact ⟨st, rfl, h⟩
        | none =>
          dsimp only
          rw [← h.total]
          split
          · exact ⟨fun m hm => congrArg _ (Except.error.inj hm), fun P' hP => by simp at hP⟩
          · refine ⟨fun m hm => (by simp at hm), fun P' hP => ⟨_, rfl, ?_⟩⟩
            obtain rfl := Except.ok.inj hP
            exact h.place hget

/-- The packing loop, on the layout alone. -/
def packViews (s : IntStorage) (maxSize : ℕ) (vs : List IntView) (P : Packing IntPtr) :
    Except (Option String) (Packing IntPtr) :=
  vs.foldlM (packView s.isBase s.size maxSize) P

/-- The packing loop is a packing of bases. -/
lemma packViews_spec {s : IntStorage} {maxSize : ℕ} (vs : List IntView) {st : List PoolEntry × ℕ}
    {P : Packing IntPtr} (h : s.Tabulates st P) :
    (∀ m, s.packViews maxSize vs P = .error m → vs.foldlM (s.packStep maxSize) st = .error m) ∧
      ∀ P', s.packViews maxSize vs P = .ok P' →
        ∃ st', vs.foldlM (s.packStep maxSize) st = .ok st' ∧ s.Tabulates st' P' := by
  induction vs generalizing st P with
  | nil =>
    refine ⟨fun m hm => (by cases hm), fun P' hP => ?_⟩
    obtain rfl := Except.ok.inj hP
    exact ⟨st, rfl, h⟩
  | cons v vs ih =>
    obtain ⟨herr, hok⟩ := packStep_spec h v
    unfold packViews at ih ⊢
    rw [List.foldlM_cons, List.foldlM_cons]
    cases hv : packView s.isBase s.size maxSize P v with
    | error m =>
      rw [herr m hv]
      exact ⟨fun m' hm => congrArg _ (Except.error.inj hm), fun P' hP => by cases hP⟩
    | ok P₁ =>
      obtain ⟨st₁, hst, h₁⟩ := hok P₁ hv
      rw [hst]
      exact ih h₁

/-- A layout of views: every view is a base of the pool that is long enough and has been placed. -/
structure LaysOut (s : IntStorage) (vs : List IntView) (P : Packing IntPtr) : Prop where
  sound : P.Sound s.size 0
  base : ∀ p o, P.offset p = some o → s.isBase p = true
  view : ∀ v ∈ vs, ∀ p, v.idata = some p →
    s.isBase p = true ∧ v.nIdata ≤ s.size p ∧ ∃ o, P.offset p = some o

lemma packView_ok {s : IntStorage} {maxSize : ℕ} {vs : List IntView} {v : IntView}
    {P P' : Packing IntPtr} (h : s.LaysOut vs P)
    (hok : packView s.isBase s.size maxSize P v = .ok P') : s.LaysOut (vs ++ [v]) P' := by
  unfold packView at hok
  have hsnoc : ∀ {Q : Packing IntPtr}, s.LaysOut vs Q → (∀ p, v.idata = some p →
      s.isBase p = true ∧ v.nIdata ≤ s.size p ∧ ∃ o, Q.offset p = some o) → s.LaysOut (vs ++ [v]) Q := by
    refine fun hQ hv => ⟨hQ.sound, hQ.base, fun u hu => ?_⟩
    rcases List.mem_append.1 hu with hu | hu
    · exact hQ.view u hu
    · obtain rfl := List.mem_singleton.1 hu
      exact hv
  cases hv : v.idata with
  | none =>
    rw [hv] at hok
    obtain rfl := Except.ok.inj hok
    exact hsnoc h fun p hp => by simp [hv] at hp
  | some p =>
    rw [hv] at hok
    dsimp only at hok
    split at hok
    · cases hok
    · rename_i hbase
      rw [Bool.not_eq_true, Bool.not_eq_false'] at hbase
      split at hok
      · cases hok
      · rename_i hlen
        rw [not_lt] at hlen
        cases hoff : P.offset p with
        | some o =>
          rw [hoff] at hok
          obtain rfl := Except.ok.inj hok
          refine hsnoc h fun q hq => ?_
          obtain rfl : p = q := Option.some.inj (hv.symm.trans hq)
          exact ⟨hbase, hlen, o, hoff⟩
        | none =>
          rw [hoff] at hok
          dsimp only at hok
          split at hok
          · cases hok
          · obtain rfl := Except.ok.inj hok
            have hmono : ∀ q o, P.offset q = some o → (P.place s.size p).offset q = some o := by
              intro q o hq
              rw [Packing.place_offset_of_ne _ s.size P, hq]
              rintro rfl
              simp [hoff] at hq
            refine hsnoc ⟨h.sound.place p, fun q o hq => ?_, fun u hu q hq => ?_⟩ fun q hq => ?_
            · by_cases hqp : q = p
              · exact hqp ▸ hbase
              · rw [Packing.place_offset_of_ne hqp] at hq
                exact h.base q o hq
            · obtain ⟨h1, h2, o, h3⟩ := h.view u hu q hq
              exact ⟨h1, h2, o, hmono q o h3⟩
            · obtain rfl : p = q := Option.some.inj (hv.symm.trans hq)
              exact ⟨hbase, hlen, P.total, Packing.place_offset_self ..⟩

lemma packViews_ok {s : IntStorage} {maxSize : ℕ} (vs : List IntView) {us : List IntView}
    {P P' : Packing IntPtr} (h : s.LaysOut us P) (hok : s.packViews maxSize vs P = .ok P') :
    s.LaysOut (us ++ vs) P' := by
  induction vs generalizing us P with
  | nil =>
    obtain rfl := Except.ok.inj hok
    simpa using h
  | cons v vs ih =>
    unfold packViews at ih hok
    rw [List.foldlM_cons] at hok
    cases hv : packView s.isBase s.size maxSize P v with
    | error m =>
      rw [hv] at hok
      cases hok
    | ok P₁ =>
      rw [hv] at hok
      have := ih (packView_ok h hv) hok
      rwa [List.append_assoc] at this

lemma laysOut_start (s : IntStorage) : s.LaysOut [] (.start 0) :=
  ⟨Packing.sound_start .., fun _ _ h => by simp [Packing.start] at h, fun _ h => by simp at h⟩

/-! ## The published buffer -/

@[simp] lemma length_copyTo (buf : List ℤ) (o : ℕ) (xs : List ℤ) :
    (copyTo buf o xs).length = buf.length := by
  simp [copyTo]

lemma getElem?_copyTo {buf : List ℤ} {o k : ℕ} {xs : List ℤ} (hk : k < buf.length) :
    (copyTo buf o xs)[k]? =
      if o ≤ k ∧ k < o + xs.length then xs[k - o]? else buf[k]? := by
  unfold copyTo
  rw [List.getElem?_mapIdx, List.getElem?_eq_getElem hk, Option.map_some]
  by_cases hok : o ≤ k
  · by_cases hlt : k < o + xs.length
    · rw [if_pos hok, if_pos ⟨hok, hlt⟩, List.getElem?_eq_getElem (by omega)]
      rfl
    · rw [if_pos hok, if_neg (by omega), List.getElem?_eq_none (by omega)]
      rfl
  · rw [if_neg hok, if_neg (by omega)]

lemma copyEntry_of_none {s : IntStorage} {buf : List ℤ} {e : PoolEntry} (h : e.offset = none) :
    s.copyEntry buf e = buf := by
  simp only [copyEntry, h]

lemma copyEntry_of_some {s : IntStorage} {buf : List ℤ} {e : PoolEntry} {o : ℕ}
    (h : e.offset = some o) :
    s.copyEntry buf e = copyTo buf o (s.elems (s.pool.getD e.poolIndex 0)) := by
  simp only [copyEntry, h]

/-- The buffer holds every placed array at its offset. -/
lemma compactBuffer_spec {s : IntStorage} {st : List PoolEntry × ℕ} {P : Packing IntPtr}
    (h : s.Tabulates st P) (hP : P.Sound s.size 0) {e : PoolEntry} (he : e ∈ st.1) {o k : ℕ}
    (ho : P.offset e.data = some o) (hk : k < s.size e.data) :
    (s.compactBuffer st.1 st.2)[o + k]? = (s.elems e.data.block)[k]? := by
  have hbound : o + k < st.2 := by
    have := (hP.bounded _ _ ho).2
    rw [h.total]
    omega
  -- The arrays copied so far, in the order of the table: the one that covers the cell is the entry's.
  have key : ∀ (l : List PoolEntry) (buf : List ℤ), (∀ e' ∈ l, e' ∈ st.1) → buf.length = st.2 →
      (l.foldl s.copyEntry buf)[o + k]? =
        if ∃ e' ∈ l, e'.data = e.data then (s.elems e.data.block)[k]? else buf[o + k]? := by
    intro l
    induction l with
    | nil => simp
    | cons e' l ih =>
      intro buf hl hlen
      have he' := hl e' (List.mem_cons_self ..)
      have hsub : ∀ a ∈ l, a ∈ st.1 := fun a ha => hl a (List.mem_cons_of_mem _ ha)
      have hblock := (isBase_of_mem h.static he').2
      rw [List.foldl_cons]
      by_cases heq : e'.data = e.data
      · rw [if_pos ⟨e', List.mem_cons_self .., heq⟩,
          copyEntry_of_some (o := o) (by rw [h.offset e' he', heq, ho]), hblock,
          ih _ hsub (by simpa using hlen), heq]
        split
        · rfl
        · rw [getElem?_copyTo (by omega), if_pos ⟨Nat.le_add_right .., Nat.add_lt_add_left hk _⟩,
            Nat.add_sub_cancel_left]
      · have hiff : (∃ a ∈ e' :: l, a.data = e.data) ↔ ∃ a ∈ l, a.data = e.data := by simp [heq]
        simp only [hiff]
        cases hoff : e'.offset with
        | none =>
          rw [copyEntry_of_none hoff]
          exact ih _ hsub hlen
        | some o' =>
          rw [copyEntry_of_some hoff, ih _ hsub (by simpa using hlen), hblock]
          split
          · rfl
          · have := hP.apart _ _ _ _ heq (h.offset e' he' ▸ hoff) ho
            have hsize : (s.elems e'.data.block).length = s.size e'.data := rfl
            rw [getElem?_copyTo (by omega), if_neg (by omega)]
  rw [compactBuffer, key st.1 _ (fun _ h => h) (by simp), if_pos ⟨e, he, rfl⟩]

/-! ## What a call does -/

/-- The cases of a call: nothing to do or a refusal, a pool without views, or a packing. -/
lemma compactIdata_cases (maxSize : ℕ) (s : IntStorage) :
    ((s.compactIdata maxSize).2 = s ∧ (s.compact.isSome ∨ s.pool = [] ∨
      (∃ v ∈ s.ops, malformed v = true) ∨ ∃ m, s.packViews maxSize s.ops (.start 0) = .error m)) ∨
    (s.compact = none ∧ (∀ v ∈ s.ops, v.idata = none ∧ v.nIdata = 0) ∧
      (s.compactIdata maxSize).2 = s.dropPool) ∨
    ∃ st P, s.compact = none ∧ (∃ v ∈ s.ops, v.idata.isSome) ∧ (∀ v ∈ s.ops, malformed v = false) ∧
      s.Tabulates st P ∧ s.packViews maxSize s.ops (.start 0) = .ok P ∧
        (s.compactIdata maxSize).2 = s.publish st.1 st.2 := by
  unfold compactIdata
  split
  · rename_i hstart
    exact Or.inl ⟨rfl, hstart.imp_right Or.inl⟩
  · rename_i hstart
    rw [not_or, Option.not_isSome_iff_eq_none] at hstart
    split
    · rename_i hmal
      exact Or.inl ⟨rfl, Or.inr (Or.inr (Or.inl (List.any_eq_true.1 hmal)))⟩
    · rename_i hmal
      have hwell : ∀ v ∈ s.ops, malformed v = false := by simpa using hmal
      split
      · rename_i hviews
        refine Or.inr (Or.inl ⟨hstart.1, fun v hv => ?_, rfl⟩)
        have hnone : v.idata = none := by
          have hall : ∀ v ∈ s.ops, v.idata = none := by simpa using hviews
          exact hall v hv
        have := hwell v hv
        simp only [malformed, hnone, Option.isNone_none, Bool.and_true, Bool.or_eq_false_iff,
          decide_eq_false_iff_not, not_lt] at this
        exact ⟨hnone, le_antisymm this.2 this.1⟩
      · rename_i hviews
        have hsome : ∃ v ∈ s.ops, v.idata.isSome = true := by
          simpa [Option.isSome_iff_ne_none] using hviews
        obtain ⟨herr, hok⟩ := packViews_spec s.ops s.tabulates_start
        cases hpack : s.packViews maxSize s.ops (.start 0) with
        | error m =>
          rw [herr m hpack]
          exact Or.inl ⟨rfl, Or.inr (Or.inr (Or.inr ⟨m, rfl⟩))⟩
        | ok P =>
          obtain ⟨st, hst, htab⟩ := hok P hpack
          rw [hst]
          exact Or.inr (Or.inr ⟨st, P, hstart.1, hsome, hwell, htab, rfl, rfl⟩)

/-- A packing of all views lays them out. -/
lemma laysOut_of_packViews {s : IntStorage} {maxSize : ℕ} {vs : List IntView} {P : Packing IntPtr}
    (h : s.packViews maxSize vs (.start 0) = .ok P) : s.LaysOut vs P := by
  simpa using packViews_ok vs s.laysOut_start h

/-- Where a published view points. -/
lemma publishView_spec {s : IntStorage} {st : List PoolEntry × ℕ} {P : Packing IntPtr}
    (h : s.Tabulates st P) (hl : s.LaysOut s.ops P) {v : IntView} (hv : v ∈ s.ops) {p : IntPtr}
    (hp : v.idata = some p) : ∃ e ∈ st.1, ∃ o, e.data = p ∧ P.offset p = some o ∧
      publishView st.1 s.next v = { v with idata := some ⟨s.next, o⟩ } := by
  obtain ⟨hbase, -, o, ho⟩ := hl.view v hv p hp
  obtain ⟨e, hget, hdata, -⟩ := exists_entry h.static hbase
  have hmem := List.mem_of_getElem? hget
  refine ⟨e, hmem, o, hdata, ho, ?_⟩
  have hoff : e.offset = some o := by rw [h.offset e hmem, hdata, ho]
  simp only [publishView, hp, hget, hoff, Option.getD_some]

/-- A view keeps its payload when it is published. -/
lemma payload_publish {s : IntStorage} {st : List PoolEntry × ℕ} {P : Packing IntPtr}
    (h : s.Tabulates st P) (hl : s.LaysOut s.ops P) {v : IntView} (hv : v ∈ s.ops) :
    (s.publish st.1 st.2).payload (publishView st.1 s.next v) = s.payload v := by
  cases hp : v.idata with
  | none =>
    have hpub : publishView st.1 s.next v = v := by simp only [publishView, hp]
    rw [hpub]
    simp only [payload, hp, Option.bind_none]
  | some p =>
    obtain ⟨e, he, o, rfl, ho, hpub⟩ := publishView_spec h hl hv hp
    obtain ⟨hbase, hlen, -⟩ := hl.view v hv _ hp
    rw [hpub]
    simp only [payload, hp, Option.bind_some, Prod.mk.injEq, true_and]
    refine List.map_congr_left fun k hk => ?_
    rw [List.mem_range] at hk
    have hks : k < s.size e.data := by omega
    have htotal : st.2 ≠ 0 := by
      have := (hl.sound.bounded _ _ ho).2
      rw [h.total]
      omega
    have hnext : s.next ∉ s.pool := fun hmem => lt_irrefl _ (s.pool_lt _ hmem)
    have helems : (s.publish st.1 st.2).elems s.next = s.compactBuffer st.1 st.2 := by
      simp [elems, publish, hnext, htotal]
    rw [load, load, helems, compactBuffer_spec h hl.sound he ho hks, (isBase_iff.1 hbase).1,
      Nat.zero_add]

/-- A published buffer is not empty. -/
lemma publish_compact {s : IntStorage} {st : List PoolEntry × ℕ} {P : Packing IntPtr}
    (h : s.Tabulates st P) (hl : s.LaysOut s.ops P) (hv : ∃ v ∈ s.ops, v.idata.isSome) :
    (s.publish st.1 st.2).compact = some s.next := by
  obtain ⟨v, hv, hsome⟩ := hv
  obtain ⟨p, hp⟩ := Option.isSome_iff_exists.1 hsome
  obtain ⟨hbase, -, o, ho⟩ := hl.view v hv p hp
  have hpos : 0 < s.size p := List.length_pos_of_ne_nil (isBase_iff.1 hbase).2.2
  have := (hl.sound.bounded _ _ ho).2
  have htotal : st.2 ≠ 0 := by
    rw [h.total]
    omega
  simp only [publish, if_pos htotal]

end IntStorage

end Stanli
