import Mathlib.Logic.Relation
import Stanli.Graph.IntegerPacking

/-!
# The integers of a graph over its whole life

Copies, extensions and calls of `compact_idata` may follow each other in any order.  No step changes
what an op reads, and the views that a call leaves are changed by no later one.
-/

namespace Stanli

namespace IntStorage

/-! ## Rebinding -/

/-- Where the copy constructor takes a pointer. -/
def rebindPtr (s : IntStorage) (p : IntPtr) : IntPtr :=
  if s.isBase p then ⟨s.next + s.pool.idxOf p.block, 0⟩ else p

lemma mem_rebinds {s : IntStorage} {e : IntPtr × IntPtr} : e ∈ s.rebinds ↔
    s.isBase e.1 = true ∧ e.2 = ⟨s.next + s.pool.idxOf e.1.block, 0⟩ := by
  have hzip : ∀ z, z ∈ s.pool.zip s.copiedPool ↔ z.1 ∈ s.pool ∧ z.2 = s.next + s.pool.idxOf z.1 := by
    intro z
    constructor
    · intro hz
      obtain ⟨k, hk⟩ := List.getElem?_of_mem hz
      obtain ⟨h1, h2⟩ := List.getElem?_zip_eq_some.1 hk
      obtain ⟨hlt, hat⟩ := List.getElem?_eq_some_iff.1 h1
      refine ⟨List.mem_of_getElem? h1, ?_⟩
      rw [← hat, s.pool_nodup.idxOf_getElem]
      simp only [copiedPool, List.getElem?_map, List.getElem?_range hlt, Option.map_some,
        Option.some.injEq] at h2
      exact h2.symm
    · rintro ⟨h1, h2⟩
      refine List.mem_of_getElem? (List.getElem?_zip_eq_some.2 ⟨List.getElem?_idxOf h1, ?_⟩)
      simp [copiedPool, List.getElem?_range (List.idxOf_lt_length_of_mem h1), h2]
  simp only [rebinds, mem_sortByKey, List.mem_map, List.mem_filter, hzip, decide_eq_true_eq, isBase_iff]
  constructor
  · rintro ⟨z, ⟨⟨hz, h2⟩, hne⟩, rfl⟩
    exact ⟨⟨rfl, hz, hne⟩, by rw [h2]⟩
  · rintro ⟨⟨hidx, hmem, hne⟩, h2⟩
    refine ⟨(e.1.block, s.next + s.pool.idxOf e.1.block), ⟨⟨hmem, rfl⟩, hne⟩, ?_⟩
    obtain ⟨⟨b, i⟩, q⟩ := e
    obtain rfl : i = 0 := hidx
    rw [Prod.mk.injEq]
    exact ⟨rfl, h2.symm⟩

lemma pairwise_rebinds (s : IntStorage) : (s.rebinds.map Prod.fst).Pairwise (· < ·) := by
  refine pairwise_sortByKey ?_
  rw [List.map_map]
  have hfun : Prod.fst ∘ (fun e : ℕ × ℕ => ((⟨e.1, 0⟩, ⟨e.2, 0⟩) : IntPtr × IntPtr)) =
      (fun b => (⟨b, 0⟩ : IntPtr)) ∘ Prod.fst := rfl
  rw [hfun, ← List.map_map]
  refine List.Nodup.map (fun a b h => by simpa using h) ?_
  have hsub := (List.filter_sublist (l := s.pool.zip s.copiedPool)
    (p := fun e => decide (s.elems e.1 ≠ []))).map Prod.fst
  rw [List.map_fst_zip (by simp [copiedPool])] at hsub
  exact s.pool_nodup.sublist hsub

/-- Exactly the views of the pool are rebound. -/
lemma rebindView_eq (s : IntStorage) (v : IntView) :
    rebindView s.rebinds v = { v with idata := v.idata.map s.rebindPtr } := by
  cases hv : v.idata with
  | none =>
    simp only [rebindView, hv, Option.map_none]
    exact hv ▸ rfl
  | some p =>
    simp only [rebindView, hv, Option.map_some, rebindPtr]
    cases hbase : s.isBase p with
    | true =>
      have hmem : (p, (⟨s.next + s.pool.idxOf p.block, 0⟩ : IntPtr)) ∈ s.rebinds :=
        mem_rebinds.2 ⟨hbase, rfl⟩
      have hget := getElem?_lowerBound (pairwise_rebinds s) hmem
      simp only at hget
      simp only [hget, if_true]
    | false =>
      cases hget : s.rebinds[lowerBound Prod.fst s.rebinds p]? with
      | none =>
        simp only [Bool.false_eq_true, if_false]
        exact hv ▸ rfl
      | some e =>
        have hne : e.1 ≠ p := by
          rintro rfl
          have := (mem_rebinds.1 (mem_of_lowerBound hget)).1
          simp [hbase] at this
        simp only [if_neg hne, Bool.false_eq_true, if_false]
        exact hv ▸ rfl

lemma elems_copyPool_old {s : IntStorage} {b : ℕ} (hb : b < s.next) :
    s.copyPool.elems b = s.elems b := by
  simp only [elems, copyPool, if_neg (not_le.2 hb)]

/-- The copy of an array of the pool has its elements. -/
lemma elems_copyPool_new {s : IntStorage} {b : ℕ} (hb : b ∈ s.pool) :
    s.copyPool.elems (s.next + s.pool.idxOf b) = s.elems b := by
  simp [elems, copyPool, List.getElem?_idxOf hb]

lemma mem_copiedPool {s : IntStorage} {b : ℕ} (hb : b ∈ s.pool) :
    s.next + s.pool.idxOf b ∈ s.copiedPool :=
  List.mem_map.2 ⟨_, List.mem_range.2 (List.idxOf_lt_length_of_mem hb), rfl⟩

lemma le_of_mem_copiedPool {s : IntStorage} {b : ℕ} (hb : b ∈ s.copiedPool) : s.next ≤ b := by
  obtain ⟨k, -, rfl⟩ := List.mem_map.1 hb
  exact Nat.le_add_right ..

/-- A rebound pointer is a base of the copy exactly where it was one of the pool. -/
lemma isBase_rebindPtr {s : IntStorage} {p : IntPtr} (hp : p.block < s.next) :
    s.copyPool.isBase (s.rebindPtr p) = s.isBase p := by
  unfold rebindPtr
  cases hbase : s.isBase p with
  | true =>
    obtain ⟨-, hmem, hne⟩ := isBase_iff.1 hbase
    rw [if_pos rfl, isBase_iff]
    exact ⟨rfl, mem_copiedPool hmem, by rwa [elems_copyPool_new hmem]⟩
  | false =>
    rw [if_neg (by simp), Bool.eq_false_iff]
    intro h
    have := le_of_mem_copiedPool (isBase_iff.1 h).2.1
    omega

lemma size_rebindPtr {s : IntStorage} {p : IntPtr} (hp : p.block < s.next) :
    s.copyPool.size (s.rebindPtr p) = s.size p := by
  unfold rebindPtr size
  split
  · rename_i hbase
    rw [elems_copyPool_new (isBase_iff.1 hbase).2.1]
  · rw [elems_copyPool_old hp]

lemma rebindPtr_inj {s : IntStorage} {p q : IntPtr} (hp : p.block < s.next) (hq : q.block < s.next)
    (h : s.rebindPtr p = s.rebindPtr q) : p = q := by
  unfold rebindPtr at h
  split at h
  · rename_i hbp
    obtain ⟨hip, hmp, -⟩ := isBase_iff.1 hbp
    split at h
    · rename_i hbq
      obtain ⟨hiq, hmq, -⟩ := isBase_iff.1 hbq
      have hidx : s.pool.idxOf p.block = s.pool.idxOf q.block := by
        have := congrArg IntPtr.block h
        simpa using this
      have hblock : p.block = q.block := (List.idxOf_inj hmp).1 hidx
      cases p
      cases q
      simp_all
    · have := congrArg IntPtr.block h
      simp only at this
      omega
  · split at h
    · have := congrArg IntPtr.block h
      simp only at this
      omega
    · exact h

/-- A view keeps its payload in a copy. -/
lemma payload_copyPool {s : IntStorage} {v : IntView} (hv : v ∈ s.ops) :
    s.copyPool.payload (rebindView s.rebinds v) = s.payload v := by
  rw [rebindView_eq]
  cases hp : v.idata with
  | none => simp [payload, hp]
  | some p =>
    have hlt := s.view_lt v hv p hp
    simp only [payload, hp, Option.map_some, Option.bind_some, load, rebindPtr, Prod.mk.injEq,
      true_and]
    refine List.map_congr_left fun k _ => ?_
    split
    · rename_i hbase
      obtain ⟨hidx, hmem, -⟩ := isBase_iff.1 hbase
      rw [elems_copyPool_new hmem, hidx]
    · rw [elems_copyPool_old hlt]

/-! ## What stays refused -/

/-- The packing loop refuses in one storage what it refuses in another one, when pointers are renamed
to pointers of the same kind. -/
lemma packViews_rename {s t : IntStorage} {maxSize : ℕ} {ρ : IntPtr → IntPtr}
    (hbase : ∀ p, p.block < s.next → t.isBase (ρ p) = s.isBase p)
    (hsize : ∀ p, p.block < s.next → t.size (ρ p) = s.size p)
    (hinj : ∀ p q, p.block < s.next → q.block < s.next → ρ p = ρ q → p = q) (vs : List IntView)
    (hvs : ∀ v ∈ vs, ∀ p, v.idata = some p → p.block < s.next) {P Q : Packing IntPtr}
    (htotal : Q.total = P.total) (hoff : ∀ p, p.block < s.next → Q.offset (ρ p) = P.offset p)
    {m : Option String} (hm : s.packViews maxSize vs P = .error m) :
    t.packViews maxSize (vs.map fun v => { v with idata := v.idata.map ρ }) Q = .error m := by
  induction vs generalizing P Q with
  | nil => cases hm
  | cons v vs ih =>
    have hrest : ∀ u ∈ vs, ∀ p, u.idata = some p → p.block < s.next := fun u hu =>
      hvs u (List.mem_cons_of_mem _ hu)
    unfold packViews at ih hm ⊢
    rw [List.foldlM_cons] at hm
    rw [List.map_cons, List.foldlM_cons]
    cases hv : v.idata with
    | none =>
      simp only [packView, hv, Option.map_none] at hm ⊢
      exact ih hrest htotal hoff hm
    | some p =>
      have hlt := hvs v (List.mem_cons_self ..) p hv
      simp only [packView, hv, Option.map_some, hbase p hlt, hsize p hlt, hoff p hlt, htotal] at hm ⊢
      split at hm
      · rename_i hnot
        rw [if_pos hnot]
        exact congrArg Except.error (Except.error.inj hm)
      · rename_i hnot
        rw [if_neg hnot]
        split at hm
        · rename_i hlong
          rw [if_pos hlong]
          exact congrArg Except.error (Except.error.inj hm)
        · rename_i hlong
          rw [if_neg hlong]
          cases hplaced : P.offset p with
          | some o =>
            rw [hplaced] at hm
            exact ih hrest htotal hoff hm
          | none =>
            rw [hplaced] at hm
            dsimp only at hm ⊢
            split at hm
            · rename_i hbig
              rw [if_pos hbig]
              exact congrArg Except.error (Except.error.inj hm)
            · rename_i hbig
              rw [if_neg hbig]
              refine ih hrest ?_ (fun q hq => ?_) hm
              · simp only [Packing.place, htotal, hsize p hlt]
              · by_cases hqp : q = p
                · rw [hqp, Packing.place_offset_self, Packing.place_offset_self, htotal]
                · rw [Packing.place_offset_of_ne hqp, Packing.place_offset_of_ne fun h =>
                    hqp (hinj q p hq hlt h), hoff q hq]

/-- No call changes the views of the first `n` ops any more: the graph is finalized, or these ops
have no views, or they alone make every call refuse. -/
structure Settled (maxSize n : ℕ) (s : IntStorage) : Prop where
  le : n ≤ s.ops.length
  reason : s.compact.isSome ∨ (∀ v ∈ s.ops.take n, v.idata = none) ∨
    (∃ v ∈ s.ops.take n, malformed v = true) ∨
    ∃ m, s.packViews maxSize (s.ops.take n) (.start 0) = .error m

variable {maxSize n : ℕ} {s : IntStorage}

lemma packViews_append (vs us : List IntView) (P : Packing IntPtr) :
    s.packViews maxSize (vs ++ us) P = (s.packViews maxSize vs P).bind (s.packViews maxSize us) := by
  unfold packViews
  rw [List.foldlM_append]
  rfl

/-- A call settles all views. -/
lemma settled_compactIdata (maxSize : ℕ) (s : IntStorage) :
    Settled maxSize s.ops.length (s.compactIdata maxSize).2 := by
  rcases compactIdata_cases maxSize s with ⟨heq, hreason⟩ | ⟨-, hnone, heq⟩ |
    ⟨st, P, -, hsome, -, htab, hpack, heq⟩
  · rw [heq]
    refine ⟨le_rfl, ?_⟩
    rw [List.take_length]
    rcases hreason with h | hpool | h | h
    · exact Or.inl h
    · -- Without a pool a view that points somewhere is no base.
      by_cases hall : ∀ v ∈ s.ops, v.idata = none
      · exact Or.inr (Or.inl hall)
      · refine Or.inr (Or.inr (Or.inr ?_))
        push Not at hall
        obtain ⟨v, hv, hne⟩ := hall
        obtain ⟨p, hp⟩ := Option.ne_none_iff_exists'.1 hne
        cases hpack : s.packViews maxSize s.ops (.start 0) with
        | error m => exact ⟨m, rfl⟩
        | ok P =>
          have := (isBase_iff.1 ((laysOut_of_packViews hpack).view v hv p hp).1).2.1
          simp [hpool] at this
    · exact Or.inr (Or.inr (Or.inl h))
    · exact Or.inr (Or.inr (Or.inr h))
  · rw [heq]
    refine ⟨le_rfl, Or.inr (Or.inl fun v hv => ?_)⟩
    exact (hnone v (List.mem_of_mem_take hv)).1
  · rw [heq]
    refine ⟨by simp [publish], Or.inl ?_⟩
    rw [publish_compact htab (laysOut_of_packViews hpack) hsome]
    rfl

/-- A call on settled ops leaves their views alone. -/
lemma Settled.take_compactIdata (h : Settled maxSize n s) :
    (s.compactIdata maxSize).2.ops.take n = s.ops.take n := by
  rcases compactIdata_cases maxSize s with ⟨heq, -⟩ | ⟨-, -, heq⟩ |
    ⟨st, P, hcompact, -, hwell, htab, hpack, heq⟩
  · rw [heq]
  · rw [heq]
    rfl
  · rw [heq]
    rcases h.reason with hc | hnone | ⟨v, hv, hmal⟩ | ⟨m, hm⟩
    · simp [hcompact] at hc
    · change (s.ops.map (publishView st.1 s.next)).take n = _
      rw [← List.map_take]
      refine (List.map_congr_left fun v hv => ?_).trans (List.map_id _)
      simp only [publishView, hnone v hv, id]
    · simp [hwell v (List.mem_of_mem_take hv)] at hmal
    · rw [← List.take_append_drop n s.ops, packViews_append, hm] at hpack
      cases hpack

/-- What can be done to a graph: it is copied, an array is added to its pool, an op with a view of
anything that exists is appended, or the graph is finalized. -/
inductive Step (maxSize : ℕ) : IntStorage → IntStorage → Prop
  | copy (s : IntStorage) : Step maxSize s s.copy
  | pushArray (s : IntStorage) (xs : List ℤ) : Step maxSize s (s.pushArray xs)
  | pushOp (s : IntStorage) (v : IntView) (hv : ∀ p, v.idata = some p → p.block < s.next) :
    Step maxSize s (s.pushOp v hv)
  | compactIdata (s : IntStorage) : Step maxSize s (s.compactIdata maxSize).2

/-- `add_op` appends an op, and an array if it is given one. -/
lemma steps_addOp (s : IntStorage) (idata : List ℤ) :
    Relation.ReflTransGen (Step maxSize) s (s.addOp idata) := by
  unfold addOp
  split
  · exact .single (.pushOp ..)
  · exact (Relation.ReflTransGen.single (.pushArray s idata)).tail (.pushOp ..)

/-- Whether two packing loops refuse alike when nothing that existed has changed. -/
lemma packViews_congr {t : IntStorage} (hbase : ∀ p : IntPtr, p.block < s.next → t.isBase p = s.isBase p)
    (hsize : ∀ p : IntPtr, p.block < s.next → t.size p = s.size p) {vs : List IntView}
    (hvs : ∀ v ∈ vs, v ∈ s.ops) {m : Option String}
    (hm : s.packViews maxSize vs (.start 0) = .error m) :
    t.packViews maxSize vs (.start 0) = .error m := by
  have := packViews_rename (t := t) (ρ := id) hbase hsize (fun _ _ _ _ h => h) vs
    (fun v hv => s.view_lt v (hvs v hv)) rfl (fun _ _ => rfl) hm
  simpa using this

/-- Settled views stay settled. -/
lemma Settled.step (h : Settled maxSize n s) {t : IntStorage} (hst : Step maxSize s t) :
    Settled maxSize n t := by
  cases hst with
  | copy =>
    unfold IntStorage.copy
    split
    · exact h
    · refine ⟨by simpa [copyPool] using h.le, ?_⟩
      have htake : s.copyPool.ops.take n =
          (s.ops.take n).map fun v => { v with idata := v.idata.map s.rebindPtr } := by
        change (s.ops.map (rebindView s.rebinds)).take n = _
        rw [← List.map_take]
        exact List.map_congr_left fun v _ => rebindView_eq s v
      rw [htake]
      refine h.reason.imp_right (Or.imp (fun hnone v hv => ?_) (Or.imp ?_ ?_))
      · obtain ⟨u, hu, rfl⟩ := List.mem_map.1 hv
        simp [hnone u hu]
      · rintro ⟨v, hv, hmal⟩
        refine ⟨_, List.mem_map_of_mem hv, ?_⟩
        simpa [malformed] using hmal
      · rintro ⟨m, hm⟩
        exact ⟨m, packViews_rename (fun p hp => isBase_rebindPtr hp) (fun p hp => size_rebindPtr hp)
          (fun p q hp hq hpq => rebindPtr_inj hp hq hpq) _
          (fun v hv => s.view_lt v (List.mem_of_mem_take hv)) rfl (fun _ _ => rfl) hm⟩
  | pushArray xs =>
    refine ⟨h.le, h.reason.imp_right (Or.imp_right (Or.imp_right ?_))⟩
    rintro ⟨m, hm⟩
    have helems : ∀ b < s.next, (s.pushArray xs).elems b = s.elems b := fun b hb => by
      simp only [elems, pushArray, Function.update_of_ne hb.ne]
    refine ⟨m, packViews_congr (s := s) (fun p hp => ?_) (fun p hp => ?_)
      (fun v hv => List.mem_of_mem_take hv) hm⟩
    · have hmem : p.block ∈ (s.pushArray xs).pool ↔ p.block ∈ s.pool := by
        simp only [pushArray, List.mem_append, List.mem_singleton, or_iff_left_iff_imp]
        omega
      simp only [isBase, hmem, helems _ hp]
    · simp only [size, helems _ hp]
  | pushOp v hv =>
    have htake : (s.pushOp v hv).ops.take n = s.ops.take n :=
      List.take_append_of_le_length h.le
    refine ⟨h.le.trans (by simp [IntStorage.pushOp]), ?_⟩
    rw [htake]
    refine h.reason.imp_right (Or.imp_right (Or.imp_right ?_))
    rintro ⟨m, hm⟩
    exact ⟨m, packViews_congr (s := s) (fun _ _ => rfl) (fun _ _ => rfl)
      (fun v hv => List.mem_of_mem_take hv) hm⟩
  | compactIdata =>
    rcases compactIdata_cases maxSize s with ⟨heq, -⟩ | ⟨-, hnone, heq⟩ |
      ⟨st, P, -, hsome, -, htab, hpack, heq⟩
    · rwa [heq]
    · rw [heq]
      exact ⟨h.le, Or.inr (Or.inl fun v hv => (hnone v (List.mem_of_mem_take hv)).1)⟩
    · rw [heq]
      refine ⟨by simpa [publish] using h.le, Or.inl ?_⟩
      rw [publish_compact htab (laysOut_of_packViews hpack) hsome]
      rfl

lemma Settled.steps (h : Settled maxSize n s) {t : IntStorage}
    (hst : Relation.ReflTransGen (Step maxSize) s t) : Settled maxSize n t := by
  induction hst with
  | refl => exact h
  | tail _ hst ih => exact ih.step hst

lemma payload_congr {t : IntStorage} {v : IntView}
    (h : ∀ p, v.idata = some p → t.elems p.block = s.elems p.block) : t.payload v = s.payload v := by
  simp only [payload, Prod.mk.injEq, true_and]
  refine List.map_congr_left fun k _ => ?_
  cases hp : v.idata with
  | none => rfl
  | some p => simp only [Option.bind_some, load, h p hp]

/-- A call keeps every op, and its payload. -/
lemma payload_compactIdata (maxSize : ℕ) (s : IntStorage) :
    ((s.compactIdata maxSize).2.ops.take s.ops.length).map (s.compactIdata maxSize).2.payload =
      s.ops.map s.payload := by
  rcases compactIdata_cases maxSize s with ⟨heq, -⟩ | ⟨-, hnone, heq⟩ |
    ⟨st, P, -, -, -, htab, hpack, heq⟩
  · rw [heq, List.take_length]
  · rw [heq]
    change (s.ops.take s.ops.length).map _ = _
    rw [List.take_length]
    refine List.map_congr_left fun v hv => payload_congr fun p hp => ?_
    simp [(hnone v hv).1] at hp
  · rw [heq]
    change ((s.ops.map _).take s.ops.length).map _ = _
    rw [List.take_of_length_le (by simp), List.map_map]
    exact List.map_congr_left fun v hv => payload_publish htab (laysOut_of_packViews hpack) hv

/-- No step changes the payload of an op that is there. -/
theorem payload_step {t : IntStorage} (hst : Step maxSize s t) :
    (t.ops.take s.ops.length).map t.payload = s.ops.map s.payload := by
  have hframe : ∀ {t : IntStorage}, (∀ b < s.next, t.elems b = s.elems b) →
      s.ops.map t.payload = s.ops.map s.payload := fun helems =>
    List.map_congr_left fun v hv => payload_congr fun p hp => helems _ (s.view_lt v hv p hp)
  cases hst with
  | copy =>
    unfold IntStorage.copy
    split
    · rw [List.take_length]
    · have hlen : s.copyPool.ops.length = s.ops.length := by simp [copyPool]
      rw [← hlen, List.take_length]
      exact (List.map_map ..).trans (List.map_congr_left fun v hv => payload_copyPool hv)
  | pushArray xs =>
    change (s.ops.take s.ops.length).map _ = _
    rw [List.take_length]
    exact hframe fun b hb => by simp only [elems, pushArray, Function.update_of_ne hb.ne]
  | pushOp v hv =>
    change ((s.ops ++ [v]).take s.ops.length).map _ = _
    rw [List.take_left']
    · exact hframe fun _ _ => rfl
    · rfl
  | compactIdata => exact payload_compactIdata maxSize s

/-- No run changes the payload of an op that is there. -/
theorem payload_steps {t : IntStorage} (hst : Relation.ReflTransGen (Step maxSize) s t) :
    (t.ops.take s.ops.length).map t.payload = s.ops.map s.payload := by
  induction hst with
  | refl => rw [List.take_length]
  | @tail t u hrun hst ih =>
    have hlen : s.ops.length ≤ t.ops.length := by
      have := congrArg List.length ih
      simp only [List.length_map, List.length_take] at this
      exact min_eq_left_iff.1 this
    calc (u.ops.take s.ops.length).map u.payload
        = ((u.ops.take t.ops.length).map u.payload).take s.ops.length := by
          rw [← List.map_take, List.take_take, min_eq_left hlen]
      _ = (t.ops.map t.payload).take s.ops.length := by rw [payload_step hst]
      _ = s.ops.map s.payload := by rw [← List.map_take, ih]

/-! ## The contract -/

/-- A view that no packing can carry over: it points between elements or outside the pool, it is longer
than its array, or it has a length and points nowhere. -/
def Foreign (s : IntStorage) (v : IntView) : Prop :=
  match v.idata with
  | none => 0 < v.nIdata
  | some p => p.index ≠ 0 ∨ p.block ∉ s.pool ∨ (s.size p : ℤ) < v.nIdata

/-- A call of `compact_idata`, whatever the graph is: it keeps every op's payload, and so does every run
from it; with a foreign view it changes nothing; ops share their pointer afterwards exactly where they did; a second call does
nothing; and the views that are there when it returns are changed by no later call, whatever copies,
extensions and calls come in between. -/
structure CompactContract (maxSize : ℕ) (s : IntStorage) : Prop where
  payload : (s.compactIdata maxSize).2.ops.map (s.compactIdata maxSize).2.payload =
    s.ops.map s.payload
  run : ∀ t, Relation.ReflTransGen (Step maxSize) s t →
    (t.ops.take s.ops.length).map t.payload = s.ops.map s.payload
  foreign : (∃ v ∈ s.ops, s.Foreign v) → (s.compactIdata maxSize).2 = s
  shared : ∀ (i j : ℕ) (u v u' v' : IntView), s.ops[i]? = some u → s.ops[j]? = some v →
    (s.compactIdata maxSize).2.ops[i]? = some u' → (s.compactIdata maxSize).2.ops[j]? = some v' →
      (u'.idata = v'.idata ↔ u.idata = v.idata)
  again : ((s.compactIdata maxSize).2.compactIdata maxSize).2 = (s.compactIdata maxSize).2
  settled : ∀ t, Relation.ReflTransGen (Step maxSize) (s.compactIdata maxSize).2 t →
    (t.compactIdata maxSize).2.ops.take s.ops.length = t.ops.take s.ops.length

/-- A copy of a graph: views of bases of the pool name the copies of their arrays, all other views are
as they were. -/
structure CopyContract (s : IntStorage) : Prop where
  length : s.copy.ops.length = s.ops.length
  base : ∀ (i : ℕ) (v : IntView) (p : IntPtr), s.ops[i]? = some v → v.idata = some p →
    s.isBase p = true → ∃ k b : ℕ, s.pool[k]? = some p.block ∧ s.copy.pool[k]? = some b ∧ s.next ≤ b ∧
      s.copy.elems b = s.elems p.block ∧ s.copy.ops[i]? = some { v with idata := some ⟨b, 0⟩ }
  other : ∀ (i : ℕ) (v : IntView), s.ops[i]? = some v →
    (∀ p, v.idata = some p → s.isBase p = false) → s.copy.ops[i]? = some v
  payload : s.copy.ops.map s.copy.payload = s.ops.map s.payload

lemma length_compactIdata (maxSize : ℕ) (s : IntStorage) :
    (s.compactIdata maxSize).2.ops.length = s.ops.length := by
  rcases compactIdata_cases maxSize s with ⟨heq, -⟩ | ⟨-, -, heq⟩ | ⟨st, P, -, -, -, -, -, heq⟩
  · rw [heq]
  · rw [heq]
    rfl
  · rw [heq]
    simp [publish]

/-- A foreign view is malformed or refused by the packing loop. -/
lemma Foreign.not_laysOut {v : IntView} (hv : v ∈ s.ops) (h : s.Foreign v)
    (hwell : malformed v = false) {P : Packing IntPtr} (hl : s.LaysOut s.ops P) : False := by
  unfold Foreign at h
  cases hp : v.idata with
  | none =>
    rw [hp] at h
    simp [malformed, hp] at hwell
    exact absurd h (not_lt.2 hwell.2)
  | some p =>
    rw [hp] at h
    obtain ⟨hbase, hlen, -⟩ := hl.view v hv p hp
    obtain ⟨hidx, hmem, -⟩ := isBase_iff.1 hbase
    rcases h with h | h | h
    · exact h hidx
    · exact h hmem
    · exact absurd h (not_lt.2 hlen)

/-- A call changes nothing while there is a foreign view. -/
lemma compactIdata_foreign {v : IntView} (hv : v ∈ s.ops) (h : s.Foreign v) :
    (s.compactIdata maxSize).2 = s := by
  rcases compactIdata_cases maxSize s with ⟨heq, -⟩ | ⟨-, hnone, -⟩ | ⟨st, P, -, -, hwell, -, hpack, -⟩
  · exact heq
  · obtain ⟨hidata, hlen⟩ := hnone v hv
    simp [Foreign, hidata, hlen] at h
  · exact (h.not_laysOut hv (hwell v hv) (laysOut_of_packViews hpack)).elim

/-- Published views share their pointer exactly where the views did. -/
lemma publishView_idata_iff {st : List PoolEntry × ℕ} {P : Packing IntPtr} (h : s.Tabulates st P)
    (hl : s.LaysOut s.ops P) {u v : IntView} (hu : u ∈ s.ops) (hv : v ∈ s.ops) :
    (publishView st.1 s.next u).idata = (publishView st.1 s.next v).idata ↔ u.idata = v.idata := by
  have hnone : ∀ {w : IntView}, w.idata = none → publishView st.1 s.next w = w := fun hw => by
    simp only [publishView, hw]
  cases hp : u.idata with
  | none =>
    rw [hnone hp, hp]
    cases hq : v.idata with
    | none => rw [hnone hq, hq]
    | some q =>
      obtain ⟨-, -, o, -, -, hpub⟩ := publishView_spec h hl hv hq
      simp [hpub]
  | some p =>
    obtain ⟨-, -, o, -, ho, hpub⟩ := publishView_spec h hl hu hp
    rw [hpub]
    cases hq : v.idata with
    | none => simp [hnone hq, hq]
    | some q =>
      obtain ⟨-, -, o', -, ho', hpub'⟩ := publishView_spec h hl hv hq
      rw [hpub']
      simp only [Option.some.injEq, IntPtr.mk.injEq, true_and]
      constructor
      · rintro rfl
        -- Two different arrays are apart, and neither is empty.
        by_contra hne
        have hpos : ∀ {r}, s.isBase r = true → 0 < s.size r := fun hr =>
          List.length_pos_of_ne_nil (isBase_iff.1 hr).2.2
        have := hpos (hl.base p o ho)
        have := hpos (hl.base q o ho')
        have := hl.sound.apart p q o o hne ho ho'
        omega
      · rintro rfl
        exact Option.some.inj (ho.symm.trans ho')

/-- After a call a second one changes nothing. -/
lemma compactIdata_again (maxSize : ℕ) (s : IntStorage) :
    ((s.compactIdata maxSize).2.compactIdata maxSize).2 = (s.compactIdata maxSize).2 := by
  rcases compactIdata_cases maxSize s with ⟨heq, -⟩ | ⟨-, -, heq⟩ | ⟨st, P, -, -, -, -, -, heq⟩
  · rw [heq, heq]
  · rw [heq]
    simp [compactIdata, dropPool]
  · rw [heq]
    simp [compactIdata, publish]

theorem compactContract (maxSize : ℕ) (s : IntStorage) : CompactContract maxSize s where
  payload := by
    have := payload_compactIdata maxSize s
    rwa [← length_compactIdata maxSize s, List.take_length] at this
  run _ ht := payload_steps ht
  foreign h := by
    obtain ⟨v, hv, hforeign⟩ := h
    exact compactIdata_foreign hv hforeign
  shared i j u v u' v' hu hv hu' hv' := by
    rcases compactIdata_cases maxSize s with ⟨heq, -⟩ | ⟨-, -, heq⟩ |
      ⟨st, P, -, -, -, htab, hpack, heq⟩
    · rw [heq] at hu' hv'
      rw [Option.some.inj (hu'.symm.trans hu), Option.some.inj (hv'.symm.trans hv)]
    · rw [heq] at hu' hv'
      rw [Option.some.inj (hu'.symm.trans hu), Option.some.inj (hv'.symm.trans hv)]
    · rw [heq] at hu' hv'
      simp only [publish, List.getElem?_map, hu, hv, Option.map_some, Option.some.injEq] at hu' hv'
      rw [← hu', ← hv']
      exact publishView_idata_iff htab (laysOut_of_packViews hpack) (List.mem_of_getElem? hu)
        (List.mem_of_getElem? hv)
  again := compactIdata_again maxSize s
  settled _ ht := ((settled_compactIdata maxSize s).steps ht).take_compactIdata

/-- A copy rebinds the views one by one. -/
lemma getElem?_copy {i : ℕ} {v : IntView} (hi : s.ops[i]? = some v) :
    s.copy.ops[i]? = some { v with idata := v.idata.map s.rebindPtr } := by
  unfold IntStorage.copy
  split
  · rename_i hpool
    have hsame : ∀ p, s.rebindPtr p = p := fun p => by simp [rebindPtr, isBase, hpool]
    cases hp : v.idata with
    | none => rw [hi, Option.map_none, ← hp]
    | some p => rw [hi, Option.map_some, hsame, ← hp]
  · change (s.ops.map (rebindView s.rebinds))[i]? = _
    rw [List.getElem?_map, hi, Option.map_some, rebindView_eq]

theorem copyContract (s : IntStorage) : CopyContract s where
  length := by
    unfold IntStorage.copy
    split
    · rfl
    · simp [copyPool]
  base i v p hi hp hbase := by
    obtain ⟨-, hmem, -⟩ := isBase_iff.1 hbase
    have hcopy : s.copy = s.copyPool := if_neg (List.ne_nil_of_mem hmem)
    refine ⟨s.pool.idxOf p.block, s.next + s.pool.idxOf p.block, List.getElem?_idxOf hmem, ?_,
      Nat.le_add_right .., ?_, ?_⟩
    · have := List.idxOf_lt_length_of_mem hmem
      simp [hcopy, copyPool, copiedPool, List.getElem?_range this]
    · rw [hcopy, elems_copyPool_new hmem]
    · rw [getElem?_copy hi, hp, Option.map_some, rebindPtr, if_pos hbase]
  other i v hi hv := by
    rw [getElem?_copy hi]
    cases hp : v.idata with
    | none => rw [Option.map_none, ← hp]
    | some p => rw [Option.map_some, rebindPtr, if_neg (by simp [hv p hp]), ← hp]
  payload := by
    unfold IntStorage.copy
    split
    · rfl
    · exact (List.map_map ..).trans (List.map_congr_left fun v hv => payload_copyPool hv)

/-- `Graph::compact_idata` and the copy constructor keep the integers of every graph, and its
ownership of them. -/
theorem compactIdata_contract (maxSize : ℕ) (s : IntStorage) :
    CompactContract maxSize s ∧ CopyContract s :=
  ⟨compactContract maxSize s, copyContract s⟩

end IntStorage

end Stanli
