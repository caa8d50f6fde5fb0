import Stanli.Program.Augmented

/-!
# The instructions the backward runs

The trail names the segments of the visited blocks, and a block is visited as a whole; so
`run_adjoint` runs the adjoint instructions of the visited instructions, the last one first
(`runAdjoint_visited`).
-/

namespace Stanli

open Program

namespace IslandProg

variable {V E S : Type*} {R : Registry} {p : IslandProg V} {keep : Bool} {es : List Emitted}

/-! ## Segments -/

/-- The adjoint instructions of the visited instructions, in the order of the visits. -/
def visitedAdj (es : List Emitted) (vs : List (ℕ × File V S)) : List AdjInstr :=
  vs.filterMap fun v => (es[v.1]?).bind Emitted.adj

/-- The adjoint instructions of the positions from `lo` to `hi`. -/
def adjBetween (es : List Emitted) (lo hi : ℕ) : List AdjInstr :=
  ((es.take hi).drop lo).filterMap Emitted.adj

/-- The adjoint instructions of block `b`. -/
def blockAdj (p : IslandProg V) (es : List Emitted) (b : ℕ) : List AdjInstr :=
  adjBetween es (p.leaders.getD b p.code.length) (p.leaders.getD (b + 1) p.code.length)

lemma adjBetween_eq_nil {lo hi : ℕ} (h : hi ≤ lo) : adjBetween es lo hi = [] := by
  rw [adjBetween, List.drop_eq_nil_of_le (by rw [List.length_take]; omega), List.filterMap_nil]

lemma adjBetween_cons {lo hi : ℕ} (h : lo < hi) {e : Emitted} (he : es[lo]? = some e) :
    adjBetween es lo hi = e.adj.toList ++ adjBetween es (lo + 1) hi := by
  obtain ⟨hlt, rfl⟩ := List.getElem?_eq_some_iff.1 he
  have hlen : lo < (es.take hi).length := by
    rw [List.length_take]
    omega
  rw [adjBetween, List.drop_eq_getElem_cons hlen, List.getElem_take, List.filterMap_cons]
  cases es[lo].adj <;> rfl

lemma take_append_between {lo hi : ℕ} (h : lo ≤ hi) :
    es.take lo ++ (es.take hi).drop lo = es.take hi := by
  conv_rhs => rw [← List.take_append_drop lo (es.take hi), List.take_take, min_eq_left h]

/-- The adjoint instructions before, in and behind a range of positions. -/
lemma filterMap_adj_split (es : List Emitted) {lo hi : ℕ} (h : lo ≤ hi) : es.filterMap Emitted.adj =
    (es.take lo).filterMap Emitted.adj ++ (adjBetween es lo hi ++
      (es.drop hi).filterMap Emitted.adj) := by
  rw [← List.append_assoc, adjBetween, ← List.filterMap_append, take_append_between h,
    ← List.filterMap_append, List.take_append_drop]

lemma length_filterMap_take (es : List Emitted) {lo hi : ℕ} (h : lo ≤ hi) :
    ((es.take hi).filterMap Emitted.adj).length =
      ((es.take lo).filterMap Emitted.adj).length + (adjBetween es lo hi).length := by
  rw [adjBetween, ← List.length_append, ← List.filterMap_append, take_append_between h]

/-- A range of a list, found in the reversed list. -/
lemma take_drop_reverse {α : Type*} (as bs cs : List α) :
    ((as ++ (bs ++ cs)).reverse.drop cs.length).take bs.length = bs.reverse := by
  rw [List.reverse_append, List.reverse_append, List.append_assoc, List.drop_append_of_le_length
    (by rw [List.length_reverse]), ← @List.length_reverse _ cs, List.drop_length,
    List.nil_append, ← @List.length_reverse _ bs, List.take_append_of_le_length le_rfl,
    List.take_length]

variable [Field V] {M : StanMath V E S}

/-- The segment of a block runs the adjoint instructions of the block, the last one first. -/
lemma runSegment_segment {b : ℕ}
    (h : p.leaders.getD b p.code.length ≤ p.leaders.getD (b + 1) p.code.length) (val adj : ℕ → V) :
    runSegment M (p.assemble R keep es).toProgram (p.assemble R keep es).adj val (p.segment es b)
      adj = (p.blockAdj es b).foldr
        (fun J adj => adjStep M (p.assemble R keep es).toProgram val J adj) adj := by
  have hsplit := filterMap_adj_split es h
  have hnext : p.adjStart es (b + 1) = p.adjStart es b + (p.blockAdj es b).length :=
    length_filterMap_take es h
  have hcode : (p.assemble R keep es).adj.code = (es.filterMap Emitted.adj).reverse := rfl
  unfold runSegment segment
  dsimp only
  split
  · have htotal : (es.filterMap Emitted.adj).length = p.adjStart es b + ((p.blockAdj es b).length +
        ((es.drop (p.leaders.getD (b + 1) p.code.length)).filterMap Emitted.adj).length) := by
      conv_lhs => rw [hsplit]
      rw [List.length_append, List.length_append]
      rfl
    have hrange : ((es.filterMap Emitted.adj).reverse.drop
        ((es.filterMap Emitted.adj).length - p.adjStart es (b + 1))).take
          ((es.filterMap Emitted.adj).length - p.adjStart es b -
            ((es.filterMap Emitted.adj).length - p.adjStart es (b + 1))) =
        (p.blockAdj es b).reverse := by
      have := take_drop_reverse ((es.take (p.leaders.getD b p.code.length)).filterMap Emitted.adj)
        (p.blockAdj es b) ((es.drop (p.leaders.getD (b + 1) p.code.length)).filterMap Emitted.adj)
      rw [← this, htotal, hnext]
      unfold blockAdj
      rw [← hsplit]
      congr 1
      · omega
      · congr 1
        omega
    rw [hcode, hrange, List.foldl_reverse]
  · rename_i heq
    have hnil : p.blockAdj es b = [] := by
      refine List.eq_nil_of_length_eq_zero ?_
      omega
    rw [hnil]
    simp

/-! ## Blocks -/

omit [Field V] in
lemma leaders_pairwise (p : IslandProg V) : p.leaders.Pairwise (· < ·) :=
  List.pairwise_lt_range.filter _

omit [Field V] in
lemma lt_of_mem_leaders {k : ℕ} (h : k ∈ p.leaders) : k < p.code.length :=
  List.mem_range.1 (List.mem_filter.1 h).1

omit [Field V] in
/-- Behind a jump a block starts, and so one does where it goes to. -/
lemma leader_of_jump {k j : ℕ} {I : Instr} (hI : p.code[k]? = some I) (hj : I.isJump = true)
    (hk : j = k + 1 ∨ j = I.dst) : j ∈ p.leaders ∨ p.code.length ≤ j := by
  rcases lt_or_ge j p.code.length with hlt | hge
  · refine Or.inl (List.mem_filter.2 ⟨List.mem_range.2 hlt, ?_⟩)
    rw [Bool.or_eq_true, List.any_eq_true]
    refine Or.inr ⟨(I, k), List.mem_zipIdx_iff_getElem?.2 hI, ?_⟩
    rcases hk with rfl | rfl <;> simp [hj]
  · exact Or.inr hge

omit [Field V] in
lemma block_eq (p : IslandProg V) (k : ℕ) : p.block k = p.leaders.countP (· ≤ k) - 1 := by
  rw [block, List.countP_eq_length_filter]

omit [Field V] in
/-- The block of a leader goes from it to the next one. -/
lemma blockAdj_block {k : ℕ} (hk : k ∈ p.leaders) : p.blockAdj es (p.block k) =
    adjBetween es k (nextCut p.leaders p.code.length k) := by
  obtain ⟨hpos, hget⟩ := getD_countP_of_mem (n := p.code.length) (leaders_pairwise p) hk
  rw [blockAdj, block_eq, hget, Nat.sub_add_cancel hpos]
  rfl

omit [Field V] in
/-- A block without a segment has no adjoint instructions. -/
lemma blockAdj_eq_nil (hseg : p.lostSegment R keep es = false) {k : ℕ} (hk : k ∈ p.leaders)
    (h : p.segmentOf R keep (p.block k) = none) : p.blockAdj es (p.block k) = [] := by
  obtain ⟨hpos, hget⟩ := getD_countP_of_mem (n := p.code.length) (leaders_pairwise p) hk
  have hblock : p.block k < p.leaders.length := by
    have := List.countP_le_length (p := (· ≤ k)) (l := p.leaders)
    rw [block_eq]
    omega
  have heq : p.adjStart es (p.block k) = p.adjStart es (p.block k + 1) := by
    by_contra hne
    have := List.any_eq_false.1 hseg _ (List.mem_range.2 hblock)
    simp [hne, h] at this
  have hle : p.leaders.getD (p.block k) p.code.length ≤
      p.leaders.getD (p.block k + 1) p.code.length := by
    rw [block_eq, hget, Nat.sub_add_cancel hpos]
    exact (lt_nextCut (leaders_pairwise p) (lt_of_mem_leaders hk)).le
  have := length_filterMap_take es hle
  refine List.eq_nil_of_length_eq_zero ?_
  unfold adjStart at heq
  unfold blockAdj
  omega

omit [Field V] in
/-- The adjoint instructions of the segments taken. -/
def takenAdj (R : Registry) (p : IslandProg V) (keep : Bool) (es : List Emitted) (segs : List ℕ) :
    List AdjInstr :=
  segs.flatMap fun s => p.blockAdj es ((p.segmentBlocks R keep).getD s 0)

/-- What is left of a block that has been entered. -/
def restAdj (p : IslandProg V) (es : List Emitted) (k : ℕ) : List AdjInstr :=
  if k ∈ p.leaders ∨ p.code.length ≤ k then []
  else adjBetween es k (nextCut p.leaders p.code.length k)

omit [Field V] in
/-- Entering a block takes its segment, if it has one. -/
lemma takenAdj_concat (hseg : p.lostSegment R keep es = false) {vs : List (ℕ × File V S)} {k : ℕ}
    (hk : k < p.code.length) (s : File V S)
    (h : visitedAdj es vs ++ p.restAdj es k = p.takenAdj R keep es (segmentsTaken R p keep vs)) :
    visitedAdj es vs ++ adjBetween es k (nextCut p.leaders p.code.length k) =
      p.takenAdj R keep es (segmentsTaken R p keep (vs ++ [(k, s)])) := by
  rw [segmentsTaken_concat, takenAdj, List.flatMap_append, ← takenAdj, ← h, restAdj]
  by_cases hlead : k ∈ p.leaders
  · rw [if_pos hlead, if_pos (Or.inl hlead), List.append_nil, ← blockAdj_block hlead]
    congr 1
    cases hs : p.segmentOf R keep (p.block k) with
    | none => simp [blockAdj_eq_nil hseg hlead hs]
    | some m =>
      have := segmentOf_spec hs
      simp [List.getD_eq_getElem?_getD, this]
  · have hrest : ¬(k ∈ p.leaders ∨ p.code.length ≤ k) := by
      rw [not_or, not_le]
      exact ⟨hlead, hk⟩
    rw [if_neg hlead, if_neg hrest]
    simp

/-- Behind an instruction, what is left of its block is what is left where control goes. -/
lemma restAdj_next {k : ℕ} {I : Instr} (hI : p.code[k]? = some I) (s : File V S) :
    adjBetween es (k + 1) (nextCut p.leaders p.code.length k) = p.restAdj es (I.next M k s) := by
  have hk := (List.getElem?_eq_some_iff.1 hI).1
  have hend : k + 1 ∈ p.leaders ∨ p.code.length ≤ k + 1 →
      adjBetween es (k + 1) (nextCut p.leaders p.code.length k) = [] := by
    rintro (hlead | hge)
    · rw [nextCut_of_mem (leaders_pairwise p) hlead]
      exact adjBetween_eq_nil le_rfl
    · rw [nextCut_of_last (fun a ha => lt_of_mem_leaders ha) hge]
      exact adjBetween_eq_nil hge
  have hstraight : adjBetween es (k + 1) (nextCut p.leaders p.code.length k) =
      p.restAdj es (k + 1) := by
    rw [restAdj]
    split
    · exact hend ‹_›
    · rename_i h
      rw [not_or] at h
      rw [nextCut_of_notMem h.1]
  by_cases hj : I.isJump = true
  · have hnext : I.next M k s = k + 1 ∨ I.next M k s = I.dst := by
      simp only [Instr.isJump, decide_eq_true_eq] at hj
      unfold Instr.next
      rcases hj with hj | hj <;> simp only [hj]
      · split
        · exact Or.inr rfl
        · exact Or.inl rfl
      · exact Or.inr trivial
    rw [hend (leader_of_jump hI hj (Or.inl rfl)), restAdj, if_pos (leader_of_jump hI hj hnext)]
  · rw [next_of_not_jump (Bool.not_eq_true _ ▸ hj), hstraight]

/-- A run that does not fail visits the blocks of the segments it takes as a whole. -/
lemma visitedAdj_eq_takenAdj (hd : Differentiated R p keep es) (hc : p.control = true)
    {s t : File V S} {vs : List (ℕ × File V S)} {nx : ℕ}
    (hrun : (p.machine M).sweep 0 p.code 0 s = (vs, .ok (nx, t))) :
    visitedAdj es vs = p.takenAdj R keep es (segmentsTaken R p keep vs) := by
  have hstart : p.restAdj es 0 = [] := by
    refine if_pos ?_
    rcases Nat.eq_zero_or_pos p.code.length with h | h
    · exact Or.inr h.le
    · exact Or.inl (List.mem_filter.2 ⟨List.mem_range.2 h, by simp⟩)
  have := Branching.sweep_invariant_start (B := p.machine M)
    (I := fun k nx vs _ => visitedAdj es vs ++ p.restAdj es (max nx k) =
      p.takenAdj R keep es (segmentsTaken R p keep vs))
    (fun k nx I vs s s' hI hle h he => by
      obtain ⟨e, hek, -⟩ := hd.emit hI
      have hk := (List.getElem?_eq_some_iff.1 hI).1
      have hlt : k < I.next M k s := forward_of_accepts hd.accepts M k I s hI
      rw [max_eq_right hle] at h
      change visitedAdj es (vs ++ [(k, s)]) ++ p.restAdj es (max (I.next M k s) (k + 1)) = _
      rw [max_eq_left hlt, ← takenAdj_concat (hd.segments hc) hk s h,
        ← restAdj_next hI s,
        adjBetween_cons (lt_nextCut (leaders_pairwise p) hk) hek, ← List.append_assoc]
      congr 1
      rw [visitedAdj, List.filterMap_append, ← visitedAdj]
      congr 1
      cases hadj : e.adj <;> simp [hek, hadj])
    (fun k nx vs s hlt h => by
      rw [max_eq_left hlt.le] at h
      rw [max_eq_left (Nat.succ_le_of_lt hlt)]
      exact h)
    (by simp [visitedAdj, hstart, takenAdj, segmentsTaken])
    hrun
  rw [restAdj, if_pos (Or.inr (by omega)), List.append_nil] at this
  simpa using this

/-- A run of a program without branches that does not fail visits every instruction. -/
lemma visitedAdj_straight (hd : Differentiated R p keep es) (hc : p.control = false)
    {s t : File V S} {vs : List (ℕ × File V S)} {nx : ℕ}
    (hrun : (p.machine M).sweep 0 p.code 0 s = (vs, .ok (nx, t))) :
    visitedAdj es vs = es.filterMap Emitted.adj := by
  have := Branching.sweep_invariant_start (B := p.machine M)
    (I := fun k nx vs _ => nx ≤ k ∧ visitedAdj es vs = (es.take k).filterMap Emitted.adj)
    (fun k nx I vs s s' hI hle h he => by
      obtain ⟨e, hek, -⟩ := hd.emit hI
      obtain ⟨hlt, hek'⟩ := List.getElem?_eq_some_iff.1 hek
      have hj : I.isJump = false := by
        have := List.any_eq_false.1 hc I (List.mem_of_getElem? hI)
        simpa using this
      refine ⟨(next_of_not_jump hj k s).le, ?_⟩
      rw [visitedAdj, List.filterMap_append, ← visitedAdj, h.2,
        List.take_succ_eq_append_getElem hlt, List.filterMap_append, hek']
      congr 1
      cases hadj : e.adj <;> simp [hek, hadj])
    (fun k nx vs s hlt h => absurd h.1 (by omega))
    ⟨le_rfl, by simp [visitedAdj]⟩ hrun
  rw [List.take_of_length_le (by rw [hd.length_eq])] at this
  exact this.2

/-! ## The whole backward -/

omit [Field V] in
lemma foldr_range_getD {α β : Type*} (f : α → β → β) (l : List α) (d : α) (b : β) :
    (List.range l.length).foldr (fun k b => f (l.getD k d) b) b = l.foldr f b := by
  have : (List.range l.length).map (fun k => l.getD k d) = l := by
    refine List.ext_getElem (by simp) fun k h h' => ?_
    rw [List.getElem_map, List.getElem_range, List.getD_eq_getElem _ _ h']
  conv_rhs => rw [← this, List.foldr_map]

/-- A program without a segment has no adjoint instructions. -/
lemma filterMap_adj_eq_nil (hd : Differentiated R p keep es) (hc : p.control = true)
    (h : p.segmentCount R keep = 0) : es.filterMap Emitted.adj = [] := by
  have hblocks : p.segmentBlocks R keep = [] := by
    rw [segmentCount, if_pos hc] at h
    exact List.eq_nil_of_length_eq_zero h
  have hconst : ∀ b ≤ p.leaders.length, p.adjStart es b = p.adjStart es 0 := by
    intro b
    induction b with
    | zero => exact fun _ => rfl
    | succ b ih =>
      intro hb
      rw [← ih (by omega)]
      by_contra hne
      have hseg := List.any_eq_false.1 (hd.segments hc) b (List.mem_range.2 hb)
      simp [Ne.symm hne, segmentOf, hblocks] at hseg
  have hlast : p.adjStart es p.leaders.length = (es.filterMap Emitted.adj).length := by
    rw [adjStart, List.getD_eq_default _ _ le_rfl, List.take_of_length_le hd.length_eq.le]
  have hfirst : p.adjStart es 0 = 0 := by
    have hzero : p.leaders.getD 0 p.code.length = 0 := by
      rcases Nat.eq_zero_or_pos p.code.length with h | h
      · simp [leaders, h]
      · have hmem : 0 ∈ p.leaders := List.mem_filter.2 ⟨List.mem_range.2 h, by simp⟩
        obtain ⟨l₁, l₂, heq, hlt, -⟩ := exists_append_of_mem (leaders_pairwise p) hmem
        obtain rfl : l₁ = [] := List.eq_nil_iff_forall_not_mem.2 fun a ha => by
          have := hlt a ha
          omega
        simp [heq]
    rw [adjStart, hzero]
    rfl
  exact List.eq_nil_of_length_eq_zero (by rw [← hlast, hconst _ le_rfl, hfirst])

/-- `run_adjoint` runs the adjoint instructions of the visited instructions, the last one first. -/
theorem runAdjoint_visited (hd : Differentiated R p keep es) {s t : File V S}
    {vs : List (ℕ × File V S)} {nx : ℕ}
    (hrun : (p.machine M).sweep 0 p.code 0 s = (vs, .ok (nx, t))) {val : ℕ → V}
    (htrail : p.hasTrail R keep = true →
      TrailHolds M p.nRegs (segmentsTaken R p keep vs) val) (adj : ℕ → V) :
    runAdjoint M (p.assemble R keep es).toProgram (p.assemble R keep es).adj val adj =
      (visitedAdj es vs).foldr
        (fun J adj => adjStep M (p.assemble R keep es).toProgram val J adj) adj := by
  by_cases ht : p.hasTrail R keep = true
  · obtain ⟨hc, hpos⟩ := Bool.and_eq_true _ _ ▸ ht
    rw [decide_eq_true_eq] at hpos
    obtain ⟨hcount, hentry⟩ := htrail ht
    have hsegs : (p.assemble R keep es).adj.segments = (p.segmentBlocks R keep).map (p.segment es) :=
      if_pos ht
    have htr : (p.assemble R keep es).adj.trail = p.nRegs := if_pos ht
    have hne : (p.assemble R keep es).adj.segments ≠ [] := by
      rw [segmentCount, if_pos hc] at hpos
      rw [hsegs]
      simpa using List.ne_nil_of_length_pos hpos
    rw [runAdjoint, if_neg hne, htr, hcount, Int.toNat_natCast, hsegs,
      visitedAdj_eq_takenAdj hd hc hrun, takenAdj]
    have hstep : ∀ m s, (segmentsTaken R p keep vs)[m]? = some s → ∀ adj : ℕ → V,
        runSegment M (p.assemble R keep es).toProgram (p.assemble R keep es).adj val
          (((p.segmentBlocks R keep).map (p.segment es)).getD
            (M.toInt (val (p.nRegs + 1 + m))).toNat (0, 0)) adj =
        (p.blockAdj es ((p.segmentBlocks R keep).getD s 0)).foldr
          (fun J adj => adjStep M (p.assemble R keep es).toProgram val J adj) adj := by
      intro m s hm adj
      obtain ⟨v, -, hv⟩ := List.mem_filterMap.1 (List.mem_of_getElem? hm)
      split at hv
      · rename_i hlead
        have hspec := segmentOf_spec hv
        have hle : p.leaders.getD (p.block v.1) p.code.length ≤
            p.leaders.getD (p.block v.1 + 1) p.code.length := by
          obtain ⟨hpos, hget⟩ :=
            getD_countP_of_mem (n := p.code.length) (leaders_pairwise p) hlead
          rw [block_eq, hget, Nat.sub_add_cancel hpos]
          exact (lt_nextCut (leaders_pairwise p) (lt_of_mem_leaders hlead)).le
        rw [hentry m s hm, Int.toNat_natCast, List.getD_eq_getElem?_getD, List.getElem?_map, hspec,
          List.getD_eq_getElem?_getD, hspec]
        exact runSegment_segment hle val adj
      · simp at hv
    rw [List.foldr_flatMap, ← foldr_range_getD _ (segmentsTaken R p keep vs) 0]
    refine List.foldr_ext _ _ _ fun m hm adj => ?_
    rw [List.mem_range] at hm
    refine hstep m _ ?_ adj
    rw [List.getD_eq_getElem _ _ hm, List.getElem?_eq_getElem hm]
  · have hsegs : (p.assemble R keep es).adj.segments = [] := if_neg ht
    have hcode : (p.assemble R keep es).adj.code = (es.filterMap Emitted.adj).reverse := rfl
    have hvisited : visitedAdj es vs = es.filterMap Emitted.adj := by
      cases hc : p.control with
      | false => exact visitedAdj_straight hd hc hrun
      | true =>
        have hzero : p.segmentCount R keep = 0 := by
          rw [hasTrail, hc, Bool.true_and, decide_eq_true_eq] at ht
          omega
        have hnil := filterMap_adj_eq_nil hd hc hzero
        rw [hnil]
        refine List.filterMap_eq_nil_iff.2 fun v _ => ?_
        cases he : es[v.1]? with
        | none => rfl
        | some e => exact List.filterMap_eq_nil_iff.1 hnil e (List.mem_of_getElem? he)
    rw [runAdjoint, if_pos hsegs, runSegment, List.drop_zero, Nat.sub_zero, List.take_length, hcode,
      hvisited, List.foldl_reverse]

end IslandProg

end Stanli
