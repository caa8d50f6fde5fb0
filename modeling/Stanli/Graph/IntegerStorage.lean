import Mathlib.Data.Int.Notation
import Mathlib.Data.List.Nodup
import Mathlib.Data.Prod.Lex
import Stanli.Lib.Packing

/-!
# The integer payloads of a graph

Every op views an array of integers (`idata`, `n_idata`).  While a graph is built the arrays are the
vectors of `idata_pool`; `Graph::compact_idata` of `executor.cpp` packs the ones that are viewed into
one buffer, and the copy constructor of `graph.hpp` copies the pool and rebinds the views into it.

Memory is a map from blocks to the arrays alive in them, a pointer a block and an element.  Views may
point anywhere: into the pool, into another array, between two elements of one, or nowhere.
-/

namespace Stanli

/-! ## Memory -/

/-- A pointer to an integer: the array it points into and the element. -/
structure IntPtr where
  block : ℕ
  index : ℕ
deriving DecidableEq, Repr

/-- The order of `std::less` on pointers: by array, then by element. -/
instance : LinearOrder IntPtr :=
  LinearOrder.lift' (fun p => toLex (p.block, p.index)) fun p q h => by
    have h : (p.block, p.index) = (q.block, q.index) := h
    cases p
    cases q
    simpa using h

/-- `Op::idata` and `Op::n_idata`. -/
structure IntView where
  idata : Option IntPtr := none
  nIdata : ℤ := 0
deriving DecidableEq, Repr

/-- The integer storage of a graph, and the memory around it.  The vectors of the pool are their
blocks.  Blocks from `next` on have never been allocated. -/
structure IntStorage where
  memory : ℕ → Option (List ℤ)
  next : ℕ
  ops : List IntView
  /-- `idata_pool`. -/
  pool : List ℕ
  /-- `compact_idata_`. -/
  compact : Option ℕ
  memory_fresh : ∀ b, next ≤ b → memory b = none
  pool_lt : ∀ b ∈ pool, b < next
  pool_nodup : pool.Nodup
  view_lt : ∀ v ∈ ops, ∀ p, v.idata = some p → p.block < next

namespace IntStorage

/-- The elements of an array. -/
def elems (s : IntStorage) (b : ℕ) : List ℤ := (s.memory b).getD []

/-- What `k` elements behind a pointer hold: nothing outside the array. -/
def load (s : IntStorage) (p : IntPtr) (k : ℕ) : Option ℤ := (s.elems p.block)[p.index + k]?

/-- The payload an op sees: its length and the elements it reads. -/
def payload (s : IntStorage) (v : IntView) : ℤ × List (Option ℤ) :=
  (v.nIdata, (List.range v.nIdata.toNat).map fun k => v.idata.bind fun p => s.load p k)

/-- A pointer is the base of a non-empty array of the pool. -/
def isBase (s : IntStorage) (p : IntPtr) : Bool :=
  decide (p.index = 0) && decide (p.block ∈ s.pool) && decide (s.elems p.block ≠ [])

/-- The length of the array a pointer points into. -/
def size (s : IntStorage) (p : IntPtr) : ℕ := (s.elems p.block).length

/-! ## Compacting -/

/-- A line of the table of bases that `compact_idata` sorts. -/
structure PoolEntry where
  data : IntPtr
  poolIndex : ℕ
  offset : Option ℕ := none
deriving DecidableEq, Repr

/-- The table of bases, sorted by address. -/
def entries (s : IntStorage) : List PoolEntry :=
  sortByKey PoolEntry.data ((s.pool.zipIdx.filter fun e => decide (s.elems e.1 ≠ [])).map fun e =>
    { data := ⟨e.1, 0⟩, poolIndex := e.2 })

/-- The first check: lengths are not negative, and views with a length point somewhere. -/
def malformed (v : IntView) : Bool :=
  decide (v.nIdata < 0) || (decide (0 < v.nIdata) && v.idata.isNone)

/-- One view of the packing loop, from the table and the fill so far.  An error with a text is thrown,
one without is a plain return. -/
def packStep (s : IntStorage) (maxSize : ℕ) (st : List PoolEntry × ℕ) (v : IntView) :
    Except (Option String) (List PoolEntry × ℕ) :=
  match v.idata with
  | none => .ok st
  | some p =>
    let i := lowerBound PoolEntry.data st.1 p
    match st.1[i]? with
    | none => .error none
    | some e =>
      if e.data ≠ p then .error none
      else
        let size := (s.elems (s.pool.getD e.poolIndex 0)).length
        if (size : ℤ) < v.nIdata then .error none
        else
          match e.offset with
          | some _ => .ok st
          | none =>
            if maxSize - st.2 < size then .error (some "integer payload storage is too large")
            else .ok (st.1.set i { e with offset := some st.2 }, st.2 + size)

/-- `std::copy` of an array to an offset of a buffer. -/
def copyTo (buf : List ℤ) (offset : ℕ) (xs : List ℤ) : List ℤ :=
  buf.mapIdx fun k x => if offset ≤ k then (xs[k - offset]?).getD x else x

/-- The array of a line is copied to its offset. -/
def copyEntry (s : IntStorage) (buf : List ℤ) (e : PoolEntry) : List ℤ :=
  match e.offset with
  | none => buf
  | some o => copyTo buf o (s.elems (s.pool.getD e.poolIndex 0))

/-- The contents of the compact buffer. -/
def compactBuffer (s : IntStorage) (es : List PoolEntry) (total : ℕ) : List ℤ :=
  es.foldl s.copyEntry (List.replicate total 0)

/-- The view of an op once the buffer is published. -/
def publishView (es : List PoolEntry) (buffer : ℕ) (v : IntView) : IntView :=
  match v.idata with
  | none => v
  | some p =>
    match es[lowerBound PoolEntry.data es p]? with
    | none => v
    | some e => { v with idata := some ⟨buffer, e.offset.getD 0⟩ }

/-- The pool is released. -/
def dropPool (s : IntStorage) : IntStorage where
  memory b := if b ∈ s.pool then none else s.memory b
  next := s.next
  ops := s.ops
  pool := []
  compact := s.compact
  memory_fresh b hb := by
    split
    · rfl
    · exact s.memory_fresh b hb
  pool_lt b hb := by simp at hb
  pool_nodup := List.nodup_nil
  view_lt := s.view_lt

/-- The buffer is published and the pool is released. -/
def publish (s : IntStorage) (es : List PoolEntry) (total : ℕ) : IntStorage where
  memory b :=
    if b ∈ s.pool then none
    else if total ≠ 0 ∧ b = s.next then some (s.compactBuffer es total)
    else s.memory b
  next := s.next + 1
  ops := s.ops.map (publishView es s.next)
  pool := []
  compact := if total ≠ 0 then some s.next else none
  memory_fresh b hb := by
    split
    · rfl
    · rw [if_neg (by omega)]
      exact s.memory_fresh b (by omega)
  pool_lt b hb := by simp at hb
  pool_nodup := List.nodup_nil
  view_lt v hv p hp := by
    obtain ⟨u, hu, rfl⟩ := List.mem_map.1 hv
    unfold publishView at hp
    split at hp
    · rename_i hnone
      simp [hnone] at hp
    · rename_i q hq
      split at hp
      · have := s.view_lt u hu p hp
        omega
      · obtain rfl := Option.some.inj hp
        exact Nat.lt_succ_self _

/-- `Graph::compact_idata`: what it throws, and the storage afterwards. -/
def compactIdata (maxSize : ℕ) (s : IntStorage) : Option String × IntStorage :=
  if s.compact.isSome ∨ s.pool = [] then (none, s)
  else if s.ops.any malformed then (none, s)
  else if !s.ops.any (fun v => v.idata.isSome) then (none, s.dropPool)
  else
    match s.ops.foldlM (s.packStep maxSize) (s.entries, 0) with
    | .error thrown => (thrown, s)
    | .ok (es, total) => (none, s.publish es total)

/-! ## Copying and extending -/

/-- The copies of the vectors of the pool. -/
def copiedPool (s : IntStorage) : List ℕ := (List.range s.pool.length).map (s.next + ·)

/-- The table the copy constructor rebinds views with: bases of the pool and of its copy, sorted by
the first. -/
def rebinds (s : IntStorage) : List (IntPtr × IntPtr) :=
  sortByKey Prod.fst (((s.pool.zip s.copiedPool).filter fun e => decide (s.elems e.1 ≠ [])).map
    fun e => (⟨e.1, 0⟩, ⟨e.2, 0⟩))

/-- The view of an op in a copy. -/
def rebindView (table : List (IntPtr × IntPtr)) (v : IntView) : IntView :=
  match v.idata with
  | none => v
  | some p =>
    match table[lowerBound Prod.fst table p]? with
    | none => v
    | some e => if e.1 = p then { v with idata := some e.2 } else v

lemma rebindView_lt {s : IntStorage} {v : IntView} (hv : v ∈ s.ops) {p : IntPtr}
    (hp : (rebindView s.rebinds v).idata = some p) : p.block < s.next + s.pool.length := by
  have hold : ∀ {q : IntPtr}, v.idata = some q → q.block < s.next + s.pool.length := fun hq =>
    (s.view_lt v hv _ hq).trans_le (Nat.le_add_right ..)
  unfold rebindView at hp
  split at hp
  · exact hold hp
  · split at hp
    · exact hold hp
    · rename_i e hget
      split at hp
      · obtain rfl := Option.some.inj hp
        have hmem := mem_of_lowerBound hget
        simp only [rebinds, mem_sortByKey, List.mem_map, List.mem_filter] at hmem
        obtain ⟨z, ⟨hz, -⟩, rfl⟩ := hmem
        obtain ⟨k, hk, hzk⟩ := List.mem_map.1 (List.of_mem_zip hz).2
        have := List.mem_range.1 hk
        change z.2 < _
        omega
      · exact hold hp

/-- The copy constructor, of a graph whose pool is not empty: the vectors are copied, the compact
buffer is shared, and the views of the pool are rebound.  The arrays of the copied graph live on. -/
def copyPool (s : IntStorage) : IntStorage where
  memory b := if s.next ≤ b then (s.pool[b - s.next]?).bind s.memory else s.memory b
  next := s.next + s.pool.length
  ops := s.ops.map (rebindView s.rebinds)
  pool := s.copiedPool
  compact := s.compact
  memory_fresh b hb := by
    rw [if_pos (by omega), List.getElem?_eq_none (by omega), Option.bind_none]
  pool_lt b hb := by
    obtain ⟨k, hk, rfl⟩ := List.mem_map.1 hb
    have := List.mem_range.1 hk
    omega
  pool_nodup := List.nodup_range.map (fun a b h => Nat.add_left_cancel h)
  view_lt v hv p hp := by
    obtain ⟨u, hu, rfl⟩ := List.mem_map.1 hv
    exact rebindView_lt hu hp

/-- `Graph::Graph(const Graph&)`. -/
def copy (s : IntStorage) : IntStorage := if s.pool = [] then s else s.copyPool

/-- Append an op with a view of anything that exists. -/
def pushOp (s : IntStorage) (v : IntView) (hv : ∀ p, v.idata = some p → p.block < s.next) :
    IntStorage where
  memory := s.memory
  next := s.next
  ops := s.ops ++ [v]
  pool := s.pool
  compact := s.compact
  memory_fresh := s.memory_fresh
  pool_lt := s.pool_lt
  pool_nodup := s.pool_nodup
  view_lt u hu := by
    rcases List.mem_append.1 hu with hu | hu
    · exact s.view_lt u hu
    · obtain rfl := List.mem_singleton.1 hu
      exact hv

/-- `idata_pool.push_back` of a new array. -/
def pushArray (s : IntStorage) (xs : List ℤ) : IntStorage where
  memory := Function.update s.memory s.next (some xs)
  next := s.next + 1
  ops := s.ops
  pool := s.pool ++ [s.next]
  compact := s.compact
  memory_fresh b hb := by
    rw [Function.update_of_ne (by omega)]
    exact s.memory_fresh b (by omega)
  pool_lt b hb := by
    rcases List.mem_append.1 hb with hb | hb
    · exact (s.pool_lt b hb).trans (Nat.lt_succ_self _)
    · rw [List.mem_singleton.1 hb]
      exact Nat.lt_succ_self _
  pool_nodup := by
    rw [List.nodup_append]
    refine ⟨s.pool_nodup, List.nodup_singleton _, fun a ha b hb => ?_⟩
    rw [List.mem_singleton.1 hb]
    exact (s.pool_lt a ha).ne
  view_lt v hv p hp := (s.view_lt v hv p hp).trans (Nat.lt_succ_self _)

/-- `Graph::add_op`, as far as integers are concerned. -/
def addOp (s : IntStorage) (idata : List ℤ) : IntStorage :=
  if idata = [] then s.pushOp {} (fun _ h => by simp at h)
  else
    (s.pushArray idata).pushOp { idata := some ⟨s.next, 0⟩, nIdata := idata.length } fun _ h => by
      obtain rfl := Option.some.inj h
      exact Nat.lt_succ_self _

end IntStorage

end Stanli
