import Mathlib.Data.List.Induction
import Stanli.Program.Emitted

/-!
# The augmented forward program

The emitted forward code simulates the original one instruction by instruction: the registers of the
original file hold the same values, the fresh registers hold what the saves of the visited
instructions saved, and the trail lists the segments of the visited blocks.
-/

namespace Stanli

open Program

namespace IslandProg

variable {V E S : Type*} {R : Registry} {p : IslandProg V} {keep : Bool} {es : List Emitted}

/-! ## Blocks -/

/-- A position before a leader is in an earlier block. -/
lemma block_lt {j k : ℕ} (hk : k ∈ p.leaders) (hjk : j < k) : p.block j < p.block k := by
  have hzero : 0 ∈ p.leaders := by
    rw [leaders, List.mem_filter, List.mem_range] at hk ⊢
    exact ⟨by omega, by simp⟩
  have hlt : (p.leaders.filter (· ≤ j)).length < (p.leaders.filter (· ≤ k)).length := by
    rw [← List.countP_eq_length_filter, ← List.countP_eq_length_filter]
    refine countP_lt_of_forall (fun a ha => ?_) ⟨k, hk, by simp, by simpa using hjk⟩
    simp only [decide_eq_true_eq] at ha ⊢
    omega
  have hpos : 0 < (p.leaders.filter (· ≤ j)).length :=
    List.length_pos_of_mem (List.mem_filter.2 ⟨hzero, by simp⟩)
  unfold block
  omega

lemma segmentOf_spec {b s : ℕ} (h : p.segmentOf R keep b = some s) :
    (p.segmentBlocks R keep)[s]? = some b := by
  unfold segmentOf at h
  rw [List.idxOf?, List.findIdx?_eq_some_iff_getElem] at h
  obtain ⟨hlt, heq, -⟩ := h
  rw [List.getElem?_eq_getElem hlt, Option.some.injEq]
  simpa using heq

/-- Segments are numbered in the order of their blocks. -/
lemma segmentOf_lt {b b' s s' : ℕ} (hb : b < b') (h : p.segmentOf R keep b = some s)
    (h' : p.segmentOf R keep b' = some s') : s < s' := by
  have hsorted : (p.segmentBlocks R keep).Pairwise (· < ·) :=
    List.pairwise_lt_range.filter _
  obtain ⟨hlt, hs⟩ := List.getElem?_eq_some_iff.1 (segmentOf_spec h)
  obtain ⟨hlt', hs'⟩ := List.getElem?_eq_some_iff.1 (segmentOf_spec h')
  by_contra hcon
  rcases (not_lt.1 hcon).eq_or_lt with rfl | hgt
  · omega
  · have := List.pairwise_iff_getElem.1 hsorted s' s hlt' hlt hgt
    omega

lemma segmentOf_lt_count {b s : ℕ} (hc : p.control = true) (h : p.segmentOf R keep b = some s) :
    s < p.segmentCount R keep := by
  rw [segmentCount, if_pos hc]
  exact (List.getElem?_eq_some_iff.1 (segmentOf_spec h)).1

/-- The segments of the blocks whose leaders are visited, in order. -/
def segmentsTaken (R : Registry) (p : IslandProg V) (keep : Bool) (vs : List (ℕ × File V S)) :
    List ℕ :=
  vs.filterMap fun v => if v.1 ∈ p.leaders then p.segmentOf R keep (p.block v.1) else none

/-- A list of naturals that grows is at most as long as its last entry. -/
lemma length_le_of_pairwise_lt {l : List ℕ} {a : ℕ} (h : (l ++ [a]).Pairwise (· < ·)) :
    l.length ≤ a := by
  induction l using List.reverseRecOn generalizing a with
  | nil => exact Nat.zero_le a
  | append_singleton l b ih =>
    have hab : b < a := by
      rw [List.pairwise_append] at h
      exact h.2.2 b (by simp) a (by simp)
    have := ih (List.Pairwise.sublist (List.sublist_append_left _ _) h)
    rw [List.length_append, List.length_singleton]
    omega

/-- What the visited blocks add to the trail stays in order. -/
lemma segmentsTaken_append {vs : List (ℕ × File V S)} {k : ℕ} {s : File V S}
    (hvs : ∀ v ∈ vs, v.1 < k) (h : (segmentsTaken R p keep vs).Pairwise (· < ·)) :
    (segmentsTaken R p keep (vs ++ [(k, s)])).Pairwise (· < ·) := by
  unfold segmentsTaken at h ⊢
  rw [List.filterMap_append, List.pairwise_append]
  refine ⟨h, ?_, fun a ha b hb => ?_⟩
  · rw [List.filterMap_cons]
    split <;> simp
  · obtain ⟨v, hv, hva⟩ := List.mem_filterMap.1 ha
    obtain ⟨w, hw, hwb⟩ := List.mem_filterMap.1 hb
    obtain rfl : w = (k, s) := by simpa using hw
    split at hva
    · split at hwb
      · rename_i hlead
        exact segmentOf_lt (block_lt hlead (hvs v hv)) hva hwb
      · simp at hwb
    · simp at hva

variable [Field V] {M : StanMath V E S}

/-! ## Saves -/

lemma exec_save (M : StanMath V E S) (q : Program V) (c : Save) (hfresh : c.src + c.len ≤ c.dst)
    (t : File V S) : ∃ t', q.exec M c.instr t = .ok t' ∧ t'.eff = t.eff ∧
      (∀ r, r < c.dst ∨ c.dst + c.len ≤ r → t'.reg r = t.reg r) ∧
      ∀ j < c.len, t'.reg (c.dst + j) = t.reg (c.src + j) := by
  by_cases hone : c.len = 1
  · refine ⟨t.set c.dst (t.reg c.src), by simp [exec, Save.instr, hone, Except.map], rfl, ?_, ?_⟩
    · intro r hr
      exact Function.update_of_ne (by omega) ..
    · intro j hj
      obtain rfl : j = 0 := by omega
      exact Function.update_self ..
  · have hloop : ∀ n (x : ℕ → V), ∃ x', writeLoop (E := E)
        (fun k reg => .ok (reg (c.src + k))) c.dst n x = .ok x' := by
      intro n x
      induction n with
      | zero => exact ⟨x, rfl⟩
      | succ n ih =>
        obtain ⟨x', hx'⟩ := ih
        rw [writeLoop_succ, hx']
        exact ⟨_, rfl⟩
    obtain ⟨x', hx'⟩ := hloop c.len t.reg
    refine ⟨⟨x', t.eff⟩, ?_, rfl, fun r hr => writeLoop_frame hx' hr, fun j hj => ?_⟩
    · simp only [exec, Save.instr, hone, if_false]
      rw [File.withReg, hx']
      rfl
    · have hv := writeLoop_value (fun k hk x y hxy => by rw [hxy _ (by omega)]) hx' hj
      exact (Except.ok.inj hv).symm

/-- A list of allocated saves copies the values of its sources. -/
lemma run_saves (q : Program V) {cs : List Save} {n : ℕ} (hcs : Allocated n cs)
    (hsrc : SourcesBelow p.nRegs cs) (hn : p.nRegs ≤ n) (t : File V S) :
    ∃ t', (cs.map Save.instr).foldlM (fun t I => q.exec M I t) t = .ok t' ∧ t'.eff = t.eff ∧
      (∀ r, r < n ∨ n + savedCells cs ≤ r → t'.reg r = t.reg r) ∧
      ∀ c ∈ cs, ∀ j < c.len, t'.reg (c.dst + j) = t.reg (c.src + j) := by
  induction cs generalizing n t with
  | nil => exact ⟨t, rfl, rfl, fun _ _ => rfl, by simp⟩
  | cons c cs ih =>
    obtain ⟨rfl, hcs⟩ := hcs
    have hsrc' : SourcesBelow p.nRegs cs := fun d hd => hsrc d (List.mem_cons_of_mem _ hd)
    have hc := hsrc c (List.mem_cons_self ..)
    obtain ⟨t₁, hexec, heff, hframe, hcopy⟩ := exec_save M q c (by omega) t
    obtain ⟨t', hrun, heff', hframe', hcopy'⟩ := ih hcs hsrc' (by omega) t₁
    have hcells : savedCells (c :: cs) = c.len + savedCells cs := by simp [savedCells]
    refine ⟨t', ?_, heff'.trans heff, fun r hr => ?_, fun d hd j hj => ?_⟩
    · rw [List.map_cons, List.foldlM_cons, hexec]
      exact hrun
    · rw [hframe' r (by omega), hframe r (by omega)]
    · rcases List.mem_cons.1 hd with rfl | hd
      · rw [hframe' _ (by omega), hcopy j hj]
      · have := hsrc' d hd
        rw [hcopy' d hd j hj, hframe _ (by omega)]

/-! ## What the fresh registers hold -/

/-- The saves of an instruction that found the registers `x` and left `y` hold in `t`. -/
structure SavesHold (e : Emitted) (x y t : ℕ → V) : Prop where
  before : ∀ c ∈ e.before, ∀ j < c.len, t (c.dst + j) = x (c.src + j)
  after : ∀ c ∈ e.after, ∀ j < c.len, t (c.dst + j) = y (c.src + j)

/-- The trail at register `n0` holds a list of segments. -/
structure TrailHolds (M : StanMath V E S) (n0 : ℕ) (segs : List ℕ) (t : ℕ → V) : Prop where
  count : M.toInt (t n0) = segs.length
  entry : ∀ m s : ℕ, segs[m]? = some s → M.toInt (t (n0 + 1 + m)) = (s : ℤ)

end IslandProg

/-- Values hold the small integers exactly. -/
structure StanMath.ExactInts {V E S : Type*} [Field V] (M : StanMath V E S) : Prop where
  zero : M.toInt 0 = 0
  ofInt : ∀ k : ℕ, M.toInt (M.ofInt k) = k

namespace IslandProg

variable {V E S : Type*} {R : Registry} {p : IslandProg V} {keep : Bool} {es : List Emitted}
  [Field V] {M : StanMath V E S}

/-- The original and the augmented program in front of instruction `k`, after the visits `vs` and
`ws`. -/
structure AugmentedRel (M : StanMath V E S) (R : Registry) (p : IslandProg V) (keep : Bool)
    (es : List Emitted) (k : ℕ) (vs ws : List (ℕ × File V S)) (s t : File V S) : Prop where
  same : SameBelow p.nRegs s t
  before : ∀ v ∈ vs, v.1 < k
  saved : ∀ v ∈ vs, ∀ I e s', p.code[v.1]? = some I → es[v.1]? = some e →
    p.exec M I v.2 = .ok s' → SavesHold e v.2.reg s'.reg t.reg
  sorted : (segmentsTaken R p keep vs).Pairwise (· < ·)
  trail : p.hasTrail R keep = true → TrailHolds M p.nRegs (segmentsTaken R p keep vs) t.reg
  branches : p.branches M vs = (p.assemble R keep es).branches M ws

/-- `PATH` adds a segment to the trail. -/
lemma exec_path (hM : M.ExactInts) (q : Program V) {n0 s l : ℕ} {segs : List ℕ} {t : File V S}
    (ht : TrailHolds M n0 segs t.reg) :
    ∃ t', q.exec M { code := .path, dst := n0, a := s, len := l } t = .ok t' ∧ t'.eff = t.eff ∧
      (∀ r, r < n0 ∨ n0 + 1 + segs.length < r → t'.reg r = t.reg r) ∧
      TrailHolds M n0 (segs ++ [s]) t'.reg := by
  refine ⟨_, rfl, rfl, fun r hr => ?_, ?_, fun m s' hm => ?_⟩
  · dsimp only [File.set]
    rw [ht.count, Int.toNat_natCast, Function.update_of_ne (by omega),
      Function.update_of_ne (by omega)]
  · dsimp only [File.set]
    rw [ht.count, Function.update_self, List.length_append, List.length_singleton,
      ← hM.ofInt (segs.length + 1)]
    push_cast
    rfl
  · dsimp only [File.set]
    have hlt := (List.getElem?_eq_some_iff.1 hm).1
    rw [List.length_append, List.length_singleton] at hlt
    rw [ht.count, Int.toNat_natCast, Function.update_of_ne (by omega)]
    rcases Nat.lt_succ_iff_lt_or_eq.1 hlt with hlt | rfl
    · rw [Function.update_of_ne (by omega)]
      exact ht.entry m s' (by rwa [List.getElem?_append_left hlt] at hm)
    · obtain rfl : s = s' := by simpa using hm
      rw [Function.update_self]
      exact hM.ofInt s

/-! ## The emitted instruction -/

omit [Field V] in
lemma retarget_of_not_jump {f : ℕ → ℕ} {I : Instr} (h : I.isJump = false) : retarget f I = I := by
  simp [retarget, h]

omit [Field V] in
lemma retarget_code (f : ℕ → ℕ) (I : Instr) : (retarget f I).code = I.code := by
  unfold retarget
  split <;> rfl

omit [Field V] in
lemma retarget_a (f : ℕ → ℕ) (I : Instr) : (retarget f I).a = I.a := by
  unfold retarget
  split <;> rfl

lemma pool_getD (p : IslandProg V) (keep : Bool) (es : List Emitted) (k : ℕ) :
    (p.assemble R keep es).pool.getD k 0 = p.pool.getD k 0 := by
  change (if p.hasTrail R keep then p.pool ++ [0] else p.pool).getD k 0 = _
  split
  · rw [List.getD_eq_getElem?_getD, List.getD_eq_getElem?_getD]
    rcases lt_trichotomy k p.pool.length with h | rfl | h
    · rw [List.getElem?_append_left h]
    · simp
    · rw [List.getElem?_eq_none (by simp; omega), List.getElem?_eq_none (by omega)]
  · rfl

/-- The emitted instruction does in the assembled program what the original does. -/
lemma exec_emitted (hd : Differentiated R p keep es) {k : ℕ} {I : Instr} {e : Emitted}
    (hI : p.code[k]? = some I) (he : es[k]? = some e) (f : ℕ → ℕ) (t : File V S) :
    (p.assemble R keep es).exec M (retarget f e.instr) t = p.exec M I t := by
  obtain ⟨e', he', hemit⟩ := hd.emit hI
  obtain rfl : e = e' := Option.some.inj (he.symm.trans he')
  have hch := hd.checked hI
  obtain ⟨-, -, hplain, hcall, -⟩ := emit_forward hch hemit
  by_cases hc : I.code = .call
  · obtain ⟨call, hget, -⟩ := hch.call hc
    have hof : p.callOf I = some call := by rw [callOf, if_pos hc, hget]
    obtain ⟨hinstr, bound, hbound, hshape, hfwd, hins, hout, hscratch⟩ := hcall call hof
    have hget' : (p.assemble R keep es).calls[callAt es k]? = some bound :=
      callAt_getElem? he hbound
    rw [retarget_of_not_jump (by simp [hinstr, Instr.isJump, hc]), hinstr]
    simp only [exec, hc, hget, hget', hshape, hfwd, hins, hout, hscratch]
  · rw [(hplain hc).1]
    by_cases hj : I.isJump = true
    · have hcode := retarget_code f I
      simp only [Instr.isJump, decide_eq_true_eq] at hj
      rcases hj with hj | hj <;> rw [hj] at hcode <;> simp only [exec, hcode, hj]
    · rw [retarget_of_not_jump (Bool.not_eq_true _ ▸ hj)]
      have hpool := pool_getD (R := R) p keep es
      have hmessages : (p.assemble R keep es).messages = p.messages := rfl
      cases hch.plain.kind with
      | scalar h => rw [exec_of_isScalar M _ h, exec_of_isScalar M _ h]
      | call h => exact absurd h hc
      | _ h => simp only [exec, h, hpool, hmessages]

/-- A block of the emitted code: straight code, the instruction, straight code. -/
lemma emittedBlock_straight (R : Registry) (p : IslandProg V) (keep : Bool) {M : StanMath V E S}
    (i : ℕ) (e : Emitted) :
    (∀ J ∈ p.pathInstr R keep i ++ e.before.map Save.instr, J.isJump = false ∧
      ∀ pc (s : File V S), J.next M pc s = pc + 1) ∧
    ∀ J ∈ e.after.map Save.instr, J.isJump = false ∧
      ∀ pc (s : File V S), J.next M pc s = pc + 1 := by
  have hsave : ∀ c : Save, c.instr.isJump = false ∧
      ∀ pc (s : File V S), c.instr.next M pc s = pc + 1 := by
    intro c
    unfold Save.instr Instr.isJump Instr.next
    split <;> simp
  have hsaves : ∀ cs : List Save, ∀ J ∈ cs.map Save.instr, J.isJump = false ∧
      ∀ pc (s : File V S), J.next M pc s = pc + 1 := by
    intro cs J hJ
    obtain ⟨c, -, rfl⟩ := List.mem_map.1 hJ
    exact hsave c
  refine ⟨fun J hJ => ?_, hsaves _⟩
  rcases List.mem_append.1 hJ with hJ | hJ
  · unfold pathInstr at hJ
    split at hJ
    · split at hJ
      · obtain rfl := List.mem_singleton.1 hJ
        simp [Instr.isJump, Instr.next]
      · simp at hJ
    · simp at hJ
  · exact hsaves _ J hJ

/-! ## The trail -/

omit [Field V] in
lemma segmentsTaken_concat (vs : List (ℕ × File V S)) (k : ℕ) (s : File V S) :
    segmentsTaken R p keep (vs ++ [(k, s)]) = segmentsTaken R p keep vs ++
      (if k ∈ p.leaders then p.segmentOf R keep (p.block k) else none).toList := by
  unfold segmentsTaken
  rw [List.filterMap_append, List.filterMap_cons, List.filterMap_nil]
  congr 1

omit [Field V] in
/-- There is a place in the trail for every segment taken. -/
lemma length_segmentsTaken {vs : List (ℕ × File V S)} (hc : p.control = true)
    (h : (segmentsTaken R p keep vs).Pairwise (· < ·)) :
    (segmentsTaken R p keep vs).length ≤ p.segmentCount R keep := by
  refine length_le_of_pairwise_lt (List.pairwise_append.2 ⟨h, List.pairwise_singleton .., ?_⟩)
  intro a ha b hb
  obtain rfl := List.mem_singleton.1 hb
  obtain ⟨v, -, hv⟩ := List.mem_filterMap.1 ha
  split at hv
  · exact segmentOf_lt_count hc hv
  · simp at hv

omit [Field V] in
lemma TrailHolds.congr {n0 : ℕ} {segs : List ℕ} {x y : ℕ → V} (h : TrailHolds M n0 segs x)
    (hxy : ∀ r, n0 ≤ r → r < n0 + 1 + segs.length → y r = x r) : TrailHolds M n0 segs y := by
  refine ⟨?_, fun m s hm => ?_⟩
  · rw [hxy n0 le_rfl (by omega)]
    exact h.count
  · have := (List.getElem?_eq_some_iff.1 hm).1
    rw [hxy _ (by omega) (by omega)]
    exact h.entry m s hm

omit [Field V] in
/-- A trail ends in front of the saves. -/
lemma trailEnd_of_hasTrail (h : p.hasTrail R keep = true) :
    p.trailEnd R keep = p.nRegs + 1 + p.segmentCount R keep := by
  rw [trailEnd, h]
  simp only [if_true]
  omega

omit [Field V] in
lemma nRegs_le_trailEnd : p.nRegs ≤ p.trailEnd R keep := by
  unfold trailEnd
  omega

/-- In front of a block that produces an adjoint its segment is added to the trail. -/
lemma path_runs (hM : M.ExactInts) (q : Program V) {k : ℕ} {vs ws : List (ℕ × File V S)}
    {s t : File V S} (h : AugmentedRel M R p keep es k vs ws s t) :
    ∃ t', (p.pathInstr R keep k).foldlM (fun t I => q.exec M I t) t = .ok t' ∧ t'.eff = t.eff ∧
      (∀ r, r < p.nRegs ∨ p.trailEnd R keep ≤ r → t'.reg r = t.reg r) ∧
      (p.hasTrail R keep = true →
        TrailHolds M p.nRegs (segmentsTaken R p keep (vs ++ [(k, s)])) t'.reg) := by
  have hsame : p.hasTrail R keep = true →
      (if k ∈ p.leaders then p.segmentOf R keep (p.block k) else none) = none →
      TrailHolds M p.nRegs (segmentsTaken R p keep (vs ++ [(k, s)])) t.reg := by
    intro htrail hnone
    rw [segmentsTaken_concat, hnone, Option.toList_none, List.append_nil]
    exact h.trail htrail
  unfold pathInstr
  split
  · rename_i hlead
    rw [Bool.and_eq_true, decide_eq_true_eq] at hlead
    cases hseg : p.segmentOf R keep (p.block k) with
    | none => exact ⟨t, rfl, rfl, fun _ _ => rfl, fun htrail => hsame htrail (by simp [hseg])⟩
    | some m =>
      have hm := segmentOf_lt_count hlead.1 hseg
      have htrail : p.hasTrail R keep = true := by
        rw [hasTrail, Bool.and_eq_true, decide_eq_true_eq]
        exact ⟨hlead.1, by omega⟩
      have hsorted := segmentsTaken_append (s := s) h.before h.sorted
      have hconcat : segmentsTaken R p keep (vs ++ [(k, s)]) = segmentsTaken R p keep vs ++ [m] := by
        rw [segmentsTaken_concat, if_pos hlead.2, hseg]
        rfl
      have hlen := length_segmentsTaken hlead.1 hsorted
      rw [hconcat, List.length_append, List.length_singleton] at hlen
      obtain ⟨t', hexec, heff, hframe, htrail'⟩ :=
        exec_path hM q (s := m) (l := p.segmentCount R keep + 1) (h.trail htrail)
      refine ⟨t', ?_, heff, fun r hr => ?_, fun _ => hconcat ▸ htrail'⟩
      · dsimp only
        rw [List.foldlM_cons, hexec]
        rfl
      · have := trailEnd_of_hasTrail htrail
        exact hframe r (by omega)
  · rename_i hlead
    refine ⟨t, rfl, rfl, fun _ _ => rfl, fun htrail => hsame htrail ?_⟩
    rw [hasTrail, Bool.and_eq_true] at htrail
    rw [htrail.1, Bool.true_and, decide_eq_true_eq] at hlead
    exact if_neg hlead

/-! ## One block -/

/-- What stands in front of the emitted instruction runs through. -/
lemma prefix_runs (hd : Differentiated R p keep es) (hM : M.ExactInts) (q : Program V) {k : ℕ}
    {I : Instr} {e : Emitted} (hI : p.code[k]? = some I) (he : es[k]? = some e)
    {vs ws : List (ℕ × File V S)} {s t : File V S} (h : AugmentedRel M R p keep es k vs ws s t) :
    ∃ t', (p.pathInstr R keep k ++ e.before.map Save.instr).foldlM (fun t I => q.exec M I t) t =
        .ok t' ∧ SameBelow p.nRegs s t' ∧
      (∀ r, p.trailEnd R keep ≤ r → r < regAt (p.trailEnd R keep) es k → t'.reg r = t.reg r) ∧
      (p.hasTrail R keep = true →
        TrailHolds M p.nRegs (segmentsTaken R p keep (vs ++ [(k, s)])) t'.reg) ∧
      ∀ c ∈ e.before, ∀ j < c.len, t'.reg (c.dst + j) = s.reg (c.src + j) := by
  obtain ⟨e', he', hemit⟩ := hd.emit hI
  obtain rfl : e = e' := Option.some.inj (he.symm.trans he')
  obtain ⟨hall, hsrc, -⟩ := emit_forward (hd.checked hI) hemit
  have hall := (allocated_append.1 hall).1
  have hsrc : SourcesBelow p.nRegs e.before := fun c hc => hsrc c (List.mem_append_left _ hc)
  have hbase : p.trailEnd R keep ≤ regAt (p.trailEnd R keep) es k := Nat.le_add_right ..
  have hnRegs : p.nRegs ≤ p.trailEnd R keep := nRegs_le_trailEnd
  obtain ⟨t₀, hpath, heff₀, hframe₀, htrail₀⟩ := path_runs hM q h
  obtain ⟨t', hsaves, heff', hframe', hcopy'⟩ := run_saves (M := M) q hall hsrc (by omega) t₀
  refine ⟨t', ?_, ⟨fun r hr => ?_, ?_⟩, fun r hr hlt => ?_, fun htrail => ?_, fun c hc j hj => ?_⟩
  · rw [List.foldlM_append, hpath]
    exact hsaves
  · rw [hframe' r (by omega), hframe₀ r (by omega)]
    exact h.same.1 r hr
  · rw [heff', heff₀]
    exact h.same.2
  · rw [hframe' r (by omega), hframe₀ r (by omega)]
  · have hsorted := segmentsTaken_append (s := s) h.before h.sorted
    have hend := trailEnd_of_hasTrail htrail
    have hc : p.control = true := (Bool.and_eq_true _ _ ▸ htrail).1
    have hlen := length_segmentsTaken hc hsorted
    exact (htrail₀ htrail).congr fun r _ hlt => hframe' r (by omega)
  · have := hsrc c hc
    rw [hcopy' c hc j hj, hframe₀ _ (by omega), h.same.1 _ (by omega)]

/-- The blocks of the assembled code. -/
def assembledBlocks (R : Registry) (p : IslandProg V) (keep : Bool) (es : List Emitted) :
    List (List Instr) :=
  (p.emittedBlocks R keep es).map (List.map (retarget (p.pcMap R keep es)))

lemma assemble_code (p : IslandProg V) (keep : Bool) (es : List Emitted) :
    (p.assemble R keep es).code = p.clearTrail R keep ++ (assembledBlocks R p keep es).flatten := by
  change (p.clearTrail R keep ++ _).map _ = _
  rw [List.map_append, assembledBlocks, List.map_flatten]
  congr 1
  unfold clearTrail
  split <;> simp [retarget, Instr.isJump]

omit [Field V] in
lemma pcMap_eq (p : IslandProg V) (keep : Bool) (es : List Emitted) : p.pcMap R keep es =
    Branching.blockPos (p.clearTrail R keep).length (assembledBlocks R p keep es) := by
  funext k
  rw [assembledBlocks, Branching.blockPos_map]
  rfl

/-- The block of an instruction, as it stands in the assembled code. -/
lemma assembledBlocks_getElem? (R : Registry) (p : IslandProg V) (keep : Bool)
    {M : StanMath V E S} {k : ℕ} {e : Emitted} (he : es[k]? = some e) :
    (assembledBlocks R p keep es)[k]? = some ((p.pathInstr R keep k ++ e.before.map Save.instr) ++
      retarget (p.pcMap R keep es) e.instr :: e.after.map Save.instr) := by
  obtain ⟨hbefore, hafter⟩ := emittedBlock_straight R p keep (M := M) k e
  have hblock : (p.emittedBlocks R keep es)[k]? = some (p.emittedBlock R keep e k) := by
    simp [emittedBlocks, he]
  rw [assembledBlocks, List.getElem?_map, hblock, Option.map_some, emittedBlock, List.map_append,
    List.map_cons]
  congr 2
  · exact (List.map_congr_left fun J hJ => retarget_of_not_jump (hbefore J hJ).1).trans (List.map_id' _)
  · congr 1
    exact (List.map_congr_left fun J hJ => retarget_of_not_jump (hafter J hJ).1).trans (List.map_id' _)

/-! ## Branches -/

lemma branches_append (q : Program V) (vs ws : List (ℕ × File V S)) :
    q.branches M (vs ++ ws) = q.branches M vs ++ q.branches M ws := List.filterMap_append

lemma branches_eq_nil {q : Program V} {vs : List (ℕ × File V S)}
    (h : ∀ v ∈ vs, ∀ J, q.code[v.1]? = some J → J.isJump = false) : q.branches M vs = [] := by
  refine List.filterMap_eq_nil_iff.2 fun v hv => ?_
  cases hJ : q.code[v.1]? with
  | none => rfl
  | some J =>
    have : J.code ≠ .jz := by
      intro hc
      simpa [Instr.isJump, hc] using h v hv J hJ
    simp [this]

lemma branches_congr {q : Program V} {k k' : ℕ} {I I' : Instr} {s t : File V S}
    (hI : p.code[k]? = some I) (hI' : q.code[k']? = some I') (hcode : I'.code = I.code)
    (ha : I.code = .jz → t.reg I'.a = s.reg I.a) :
    p.branches M [(k, s)] = q.branches M [(k', t)] := by
  simp only [branches, List.filterMap_cons, List.filterMap_nil, hI, hI', Option.bind_some, hcode]
  by_cases hc : I.code = .jz
  · rw [if_pos hc, if_pos hc, ha hc]
  · rw [if_neg hc, if_neg hc]

/-- A visit of the emitted instruction is the only branch of its block. -/
lemma branches_block (hd : Differentiated R p keep es) {k : ℕ} {I : Instr} {e : Emitted}
    (hI : p.code[k]? = some I) (he : es[k]? = some e) {s t : File V S}
    (hst : SameBelow p.nRegs s t) {base : ℕ}
    (hbase : base = p.pcMap R keep es k + (p.pathInstr R keep k ++ e.before.map Save.instr).length)
    {us us' : List (ℕ × File V S)}
    (hus : ∀ v ∈ us, p.pcMap R keep es k ≤ v.1 ∧ v.1 < base)
    (hus' : ∀ v ∈ us', base + 1 ≤ v.1 ∧ v.1 < base + 1 + (e.after.map Save.instr).length) :
    (p.assemble R keep es).branches M (us ++ (base, t) :: us') = p.branches M [(k, s)] := by
  obtain ⟨e', he', hemit⟩ := hd.emit hI
  obtain rfl : e = e' := Option.some.inj (he.symm.trans he')
  have hch := hd.checked hI
  obtain ⟨-, -, hplain, hcall, -⟩ := emit_forward hch hemit
  obtain ⟨hbefore, hafter⟩ := emittedBlock_straight R p keep (M := M) k e
  have hblock := assembledBlocks_getElem? R p keep (M := M) he
  have hget : ∀ {j J}, ((p.pathInstr R keep k ++ e.before.map Save.instr) ++
      retarget (p.pcMap R keep es) e.instr :: e.after.map Save.instr)[j]? = some J →
      (p.assemble R keep es).code[p.pcMap R keep es k + j]? = some J := by
    intro j J hJ
    rw [assemble_code, pcMap_eq]
    exact Branching.getElem?_blockPos hblock hJ
  have hself : (p.assemble R keep es).code[base]? = some (retarget (p.pcMap R keep es) e.instr) := by
    rw [hbase]
    exact hget (by simp)
  have hlast : (p.assemble R keep es).branches M us' = [] := by
    refine branches_eq_nil fun v hv J hJ => ?_
    obtain ⟨h1, h2⟩ := hus' v hv
    have hlt : v.1 - (base + 1) < (e.after.map Save.instr).length := by omega
    have := hget (j := v.1 - p.pcMap R keep es k) (J := (e.after.map Save.instr)[v.1 - (base + 1)]) (by
      rw [List.getElem?_append_right (by omega), List.getElem?_cons, if_neg (by omega),
        show v.1 - p.pcMap R keep es k -
          (p.pathInstr R keep k ++ e.before.map Save.instr).length - 1 = v.1 - (base + 1) by omega]
      exact List.getElem?_eq_getElem hlt)
    rw [Nat.add_sub_cancel' (by omega)] at this
    rw [← Option.some.inj (this.symm.trans hJ)]
    exact (hafter _ (List.getElem_mem hlt)).1
  have hfirst : (p.assemble R keep es).branches M us = [] := by
    refine branches_eq_nil fun v hv J hJ => ?_
    obtain ⟨h1, h2⟩ := hus v hv
    have hlt : v.1 - p.pcMap R keep es k <
        (p.pathInstr R keep k ++ e.before.map Save.instr).length := by omega
    have := hget (j := v.1 - p.pcMap R keep es k) (J := (p.pathInstr R keep k ++
        e.before.map Save.instr)[v.1 - p.pcMap R keep es k]) (by
      rw [List.getElem?_append_left hlt]
      exact List.getElem?_eq_getElem hlt)
    rw [Nat.add_sub_cancel' h1] at this
    rw [← Option.some.inj (this.symm.trans hJ)]
    exact (hbefore _ (List.getElem_mem hlt)).1
  rw [branches_append, hfirst, List.nil_append, ← List.singleton_append, branches_append, hlast,
    List.append_nil]
  refine (branches_congr hI hself ?_ fun hc => ?_).symm
  · rw [retarget_code]
    by_cases hc : I.code = .call
    · obtain ⟨call, hget, -⟩ := hch.call hc
      rw [(hcall call (by rw [callOf, if_pos hc, hget])).1]
    · rw [(hplain hc).1]
  · rw [retarget_a, (hplain (by simp [hc])).1]
    have := hch.operand (by simp [hc]) (by simp [hc]) (by simp [Instr.isRangedDensity, hc])
      (by simp [Instr.rule, hc, Code.has, Code.flags]) 0
    exact (hst.1 _ this).symm

/-! ## The simulation -/

/-- Behind its block the emitted instruction goes to the block of where the original goes. -/
lemma next_emitted (hd : Differentiated R p keep es) {k : ℕ} {I : Instr} {e : Emitted}
    (hI : p.code[k]? = some I) (he : es[k]? = some e) {s t : File V S}
    (hst : SameBelow p.nRegs s t) :
    let base := p.pcMap R keep es k + (p.pathInstr R keep k ++ e.before.map Save.instr).length
    let i := retarget (p.pcMap R keep es) e.instr
    (e.after.map Save.instr ≠ [] → i.next M base t = base + 1) ∧
      (if e.after.map Save.instr = [] then i.next M base t
        else base + 1 + (e.after.map Save.instr).length) = p.pcMap R keep es (I.next M k s) := by
  intro base i
  obtain ⟨e', he', hemit⟩ := hd.emit hI
  obtain rfl : e = e' := Option.some.inj (he.symm.trans he')
  have hch := hd.checked hI
  obtain ⟨-, -, hplain, hcall, hsilent⟩ := emit_forward hch hemit
  have hsucc : p.pcMap R keep es (k + 1) = base + 1 + (e.after.map Save.instr).length := by
    rw [pcMap_eq, Branching.blockPos_succ (assembledBlocks_getElem? R p keep (M := M) he), ← pcMap_eq]
    simp only [base, List.length_append, List.length_cons, List.length_map]
    omega
  by_cases hj : I.isJump = true
  · obtain ⟨hb, ha⟩ := hsilent hj
    have hc : I.code ≠ .call := by
      intro hc
      simp [Instr.isJump, hc] at hj
    have hi : i = { I with dst := p.pcMap R keep es I.dst } := by
      simp only [i, (hplain hc).1, retarget, hj, if_true]
    rw [ha, List.map_nil, List.length_nil] at hsucc
    rw [ha, List.map_nil, if_pos rfl]
    refine ⟨fun hne => absurd rfl hne, ?_⟩
    simp only [Instr.isJump, decide_eq_true_eq] at hj
    rcases hj with hj | hj
    · have hlt := hch.operand (by simp [hj]) (by simp [hj]) (by simp [Instr.isRangedDensity, hj])
        (by simp [Instr.rule, hj, Code.has, Code.flags]) 0
      have ha := hst.1 _ hlt
      simp only [Instr.operand] at ha
      simp only [Instr.next, hi, hj, ← ha]
      split
      · rfl
      · exact hsucc.symm
    · simp only [Instr.next, hi, hj]
  · have hi : i.isJump = false := by
      have : (retarget (p.pcMap R keep es) e.instr).code = I.code := by
        rw [retarget_code]
        by_cases hc : I.code = .call
        · obtain ⟨call, hget, -⟩ := hch.call hc
          rw [(hcall call (by rw [callOf, if_pos hc, hget])).1]
        · rw [(hplain hc).1]
      simp only [i, Instr.isJump, this]
      simpa [Instr.isJump] using hj
    rw [next_of_not_jump hi, next_of_not_jump (Bool.not_eq_true _ ▸ hj), hsucc]
    refine ⟨fun _ => rfl, ?_⟩
    split
    · simp_all
    · rfl

/-- One instruction of the original program and its block. -/
lemma augmented_step (hd : Differentiated R p keep es) (hM : M.ExactInts) (hR : M.toRegistry = R)
    {k : ℕ} {I : Instr} {e : Emitted} (hI : p.code[k]? = some I) (he : es[k]? = some e) :
    Branching.BlockStep (p.machine M) ((p.assemble R keep es).machine M)
      (AugmentedRel M R p keep es)
      (fun vs ws => p.branches M vs = (p.assemble R keep es).branches M ws) (p.pcMap R keep es) k I
      ((p.pathInstr R keep k ++ e.before.map Save.instr) ++
        retarget (p.pcMap R keep es) e.instr :: e.after.map Save.instr) := by
  obtain ⟨e', he', hemit⟩ := hd.emit hI
  obtain rfl : e = e' := Option.some.inj (he.symm.trans he')
  have hch := hd.checked hI
  obtain ⟨hall, hsrc, -⟩ := emit_forward hch hemit
  obtain ⟨hallb, halla⟩ := allocated_append.1 hall
  have hsrca : SourcesBelow p.nRegs e.after := fun c hc => hsrc c (List.mem_append_right _ hc)
  obtain ⟨hbefore, hafter⟩ := emittedBlock_straight R p keep (M := M) k e
  have hbase : p.trailEnd R keep ≤ regAt (p.trailEnd R keep) es k := Nat.le_add_right ..
  have hnRegs : p.nRegs ≤ p.trailEnd R keep := nRegs_le_trailEnd
  refine ⟨fun vs ws s t err h hex => ?_, fun vs ws s t s' h hex => ?_, fun _ vs ws s t h => ?_⟩
  · obtain ⟨t₁, hrun, hsame, -⟩ := prefix_runs hd hM (p.assemble R keep es).toProgram hI he h
    have hex' : ((p.assemble R keep es).machine M).exec (retarget (p.pcMap R keep es) e.instr) t₁ =
        .error err := by
      have halike := exec_congr hch hR hsame
      change p.exec M I s = .error err at hex
      change (p.assemble R keep es).exec M _ t₁ = _
      rw [exec_emitted hd hI he]
      rw [hex] at halike
      cases hq : p.exec M I t₁ with
      | error err' =>
        rw [hq] at halike
        exact congrArg _ (Eq.symm halike)
      | ok t₂ =>
        rw [hq] at halike
        exact halike.elim
    obtain ⟨us, hsweep, hus⟩ := Branching.sweep_around_error
      (fun J hJ => (hbefore J hJ).2) (p.pcMap R keep es k) hrun hex' (e.after.map Save.instr)
    refine ⟨_, hsweep, ?_⟩
    rw [branches_append, branches_append, h.branches]
    congr 1
    exact (branches_block hd hI he hsame rfl hus (fun v hv => absurd hv (List.not_mem_nil))).symm
  · obtain ⟨t₁, hrun, hsame, hold, htrail, hcopy⟩ :=
      prefix_runs hd hM (p.assemble R keep es).toProgram hI he h
    change p.exec M I s = .ok s' at hex
    obtain ⟨t₂, hex₂, hsame₂⟩ : ∃ t₂, p.exec M I t₁ = .ok t₂ ∧ SameBelow p.nRegs s' t₂ := by
      have halike := exec_congr hch hR hsame
      rw [hex] at halike
      cases hq : p.exec M I t₁ with
      | error err' =>
        rw [hq] at halike
        exact halike.elim
      | ok t₂ =>
        rw [hq] at halike
        exact ⟨t₂, rfl, halike⟩
    have hframe₂ : ∀ r, p.nRegs ≤ r → t₂.reg r = t₁.reg r := fun r hr =>
      exec_frame hch.plain hex₂ fun hw => absurd (hch.writes r hw) (by omega)
    have hex' : ((p.assemble R keep es).machine M).exec (retarget (p.pcMap R keep es) e.instr) t₁ =
        .ok t₂ := (exec_emitted hd hI he _ _).trans hex₂
    obtain ⟨t₃, hrun₃, heff₃, hframe₃, hcopy₃⟩ :=
      run_saves (M := M) (p.assemble R keep es).toProgram halla hsrca (by omega) t₂
    obtain ⟨hone, hnext⟩ := next_emitted (M := M) hd hI he hsame
    obtain ⟨us, us', hsweep, hus, hus'⟩ := Branching.sweep_around (B := (p.assemble R keep es).machine M)
      (fun J hJ => (hbefore J hJ).2) (fun J hJ => (hafter J hJ).2) (p.pcMap R keep es k)
      hrun hex' hrun₃ hone
    have hnext' : (if e.after.map Save.instr = [] then
        ((p.assemble R keep es).machine M).next (retarget (p.pcMap R keep es) e.instr)
          (p.pcMap R keep es k + (p.pathInstr R keep k ++ e.before.map Save.instr).length) t₁
        else p.pcMap R keep es k + (p.pathInstr R keep k ++ e.before.map Save.instr).length + 1 +
          (e.after.map Save.instr).length) = p.pcMap R keep es (I.next M k s) := hnext
    rw [hnext'] at hsweep
    refine ⟨_, t₃, hsweep, ?_⟩
    have hlast : ∀ r, r < p.nRegs → t₃.reg r = t₂.reg r := fun r hr => hframe₃ r (by omega)
    -- Between the trail and the saves of this instruction nothing changes.
    have hkeep : ∀ r, p.trailEnd R keep ≤ r → r < regAt (p.trailEnd R keep) es k →
        t₃.reg r = t.reg r := by
      intro r hr hlt
      rw [hframe₃ r (by omega), hframe₂ r (by omega), hold r hr hlt]
    refine ⟨⟨fun r hr => ?_, ?_⟩, ?_, ?_, ?_, fun ht => ?_, ?_⟩
    · rw [hlast r hr]
      exact hsame₂.1 r hr
    · rw [heff₃]
      exact hsame₂.2
    · intro v hv
      rcases List.mem_append.1 hv with hv | hv
      · exact (h.before v hv).trans (Nat.lt_succ_self k)
      · obtain rfl := List.mem_singleton.1 hv
        exact Nat.lt_succ_self k
    · intro v hv J e' s'' hJ he' hexJ
      rcases List.mem_append.1 hv with hv | hv
      · obtain ⟨hsb, hsa⟩ := h.saved v hv J e' s'' hJ he' hexJ
        obtain ⟨e'', he'', hemit'⟩ := hd.emit hJ
        obtain rfl : e' = e'' := Option.some.inj (he'.symm.trans he'')
        obtain ⟨hall', -⟩ := emit_forward (hd.checked hJ) hemit'
        have hcell : ∀ d ∈ e'.before ++ e'.after, ∀ j < d.len,
            t₃.reg (d.dst + j) = t.reg (d.dst + j) := by
          intro d hdm j hj
          have hmem := hall'.mem hdm
          have hmono : regAt (p.trailEnd R keep) es (v.1 + 1) ≤ regAt (p.trailEnd R keep) es k :=
            regAt_mono _ _ (h.before v hv)
          rw [regAt_succ he', Emitted.cells, ← savedCells_append] at hmono
          have hlow : p.trailEnd R keep ≤ regAt (p.trailEnd R keep) es v.1 := Nat.le_add_right ..
          exact hkeep _ (by omega) (by omega)
        refine ⟨fun d hdm j hj => ?_, fun d hdm j hj => ?_⟩
        · rw [hcell d (List.mem_append_left _ hdm) j hj]
          exact hsb d hdm j hj
        · rw [hcell d (List.mem_append_right _ hdm) j hj]
          exact hsa d hdm j hj
      · obtain rfl := List.mem_singleton.1 hv
        obtain rfl : I = J := Option.some.inj (hI.symm.trans hJ)
        obtain rfl : e = e' := Option.some.inj (he.symm.trans he')
        obtain rfl : s' = s'' := Except.ok.inj (hex.symm.trans hexJ)
        refine ⟨fun d hdm j hj => ?_, fun d hdm j hj => ?_⟩
        · have hmem := hallb.mem hdm
          rw [hframe₃ _ (by omega), hframe₂ _ (by omega)]
          exact hcopy d hdm j hj
        · rw [hcopy₃ d hdm j hj]
          have := hsrca d hdm
          exact (hsame₂.1 _ (by omega)).symm
    · exact segmentsTaken_append h.before h.sorted
    · have hsorted := segmentsTaken_append (s := s) h.before h.sorted
      have hend := trailEnd_of_hasTrail ht
      have hlen := length_segmentsTaken (Bool.and_eq_true _ _ ▸ ht).1 hsorted
      refine (htrail ht).congr fun r hr hlt => ?_
      rw [hframe₃ r (by omega), hframe₂ r hr]
    · rw [branches_append, branches_append, h.branches]
      congr 1
      exact (branches_block hd hI he hsame rfl hus hus').symm
  · exact ⟨h.same, fun v hv => (h.before v hv).trans (Nat.lt_succ_self k), h.saved, h.sorted,
      h.trail, h.branches⟩

/-- The augmented program only branches forward. -/
lemma assembled_forward (hd : Differentiated R p keep es) (M : StanMath V E S) :
    ((p.assemble R keep es).machine M).Forward (p.assemble R keep es).code := by
  have hplain : ∀ {J : Instr} {pc : ℕ} {s : File V S}, J.isJump = false → pc < J.next M pc s :=
    fun hJ => (Nat.lt_succ_self _).trans_eq (next_of_not_jump hJ _ _).symm
  intro pc J s hJ
  change pc < J.next M pc s
  rw [assemble_code] at hJ
  rcases Branching.exists_block hJ with hpre | ⟨k, b, j, hk, hj, rfl⟩
  · refine hplain ?_
    unfold clearTrail at hpre
    split at hpre
    · obtain rfl := List.mem_singleton.1 (List.mem_of_getElem? hpre)
      rfl
    · simp at hpre
  · have hklt : k < es.length := by
      have := (List.getElem?_eq_some_iff.1 hk).1
      simpa [assembledBlocks, emittedBlocks] using this
    have he : es[k]? = some es[k] := List.getElem?_eq_getElem hklt
    generalize es[k] = e at he
    obtain ⟨I, hI⟩ : ∃ I, p.code[k]? = some I :=
      ⟨_, List.getElem?_eq_getElem (hd.length_eq ▸ hklt)⟩
    obtain ⟨e', he', hemit⟩ := hd.emit hI
    obtain rfl : e = e' := Option.some.inj (he.symm.trans he')
    have hch := hd.checked hI
    obtain ⟨-, -, hinstr, hcall, hsilent⟩ := emit_forward hch hemit
    obtain ⟨hbefore, hafter⟩ := emittedBlock_straight R p keep (M := M) k e
    have hblock := assembledBlocks_getElem? R p keep (M := M) he
    obtain rfl := Option.some.inj (hblock.symm.trans hk)
    rcases List.mem_append.1 (List.mem_of_getElem? hj) with hmem | hmem
    · exact hplain (hbefore J hmem).1
    · rcases List.mem_cons.1 hmem with rfl | hmem
      · by_cases hjump : I.isJump = true
        · have hc : I.code ≠ .call := by
            intro hc
            simp [Instr.isJump, hc] at hjump
          have hlt := (List.getElem?_eq_some_iff.1 hj).1
          rw [(hsilent hjump).2, List.map_nil, List.length_append, List.length_singleton] at hlt
          have htarget : p.pcMap R keep es (k + 1) ≤ p.pcMap R keep es I.dst := by
            rw [pcMap_eq]
            exact Branching.blockPos_mono _ _ (hch.jump hjump).1
          rw [pcMap_eq, Branching.blockPos_succ hblock, ← pcMap_eq, (hsilent hjump).2, List.map_nil,
            List.length_append, List.length_singleton] at htarget
          rw [← pcMap_eq, (hinstr hc).1, retarget, if_pos hjump]
          simp only [Instr.isJump, decide_eq_true_eq] at hjump
          unfold Instr.next
          rcases hjump with hjump | hjump
          · simp only [hjump]
            split <;> omega
          · simp only [hjump]
            omega
        · refine hplain ?_
          by_cases hc : I.code = .call
          · obtain ⟨call, hget, -⟩ := hch.call hc
            rw [(hcall call (by rw [callOf, if_pos hc, hget])).1]
            simp [Instr.isJump, retarget_code, hc]
          · rw [(hinstr hc).1]
            simpa [Instr.isJump, retarget_code] using hjump
      · exact hplain (hafter J hmem).1

/-- The augmented program runs as the original does: it fails with the same error, or ends with the
same registers and effects, and it takes the same branches. -/
theorem augmented_sweep (hd : Differentiated R p keep es) (hM : M.ExactInts)
    (hR : M.toRegistry = R) {s t : File V S} (hst : SameBelow p.nRegs s t) :
    Branching.EndsAlike (AugmentedRel M R p keep es p.code.length)
      (fun vs ws => p.branches M vs = (p.assemble R keep es).branches M ws)
      ((p.machine M).sweep 0 p.code 0 s)
      (((p.assemble R keep es).machine M).sweep 0 (p.assemble R keep es).code 0 t) := by
  -- The prologue clears the trail.
  obtain ⟨t₀, hrun₀, hst₀, htrail₀⟩ : ∃ t₀, (p.clearTrail R keep).foldlM
      (fun t I => ((p.assemble R keep es).machine M).exec I t) t = .ok t₀ ∧
      SameBelow p.nRegs s t₀ ∧ (p.hasTrail R keep = true → TrailHolds M p.nRegs [] t₀.reg) := by
    unfold clearTrail
    split
    · rename_i htrail
      refine ⟨t.set p.nRegs 0, ?_, ⟨fun r hr => ?_, hst.2⟩, fun _ => ⟨?_, fun m s hm => by simp at hm⟩⟩
      · have hexec : ((p.assemble R keep es).machine M).exec
            { code := .const, dst := p.nRegs, a := p.pool.length } t = .ok (t.set p.nRegs 0) := by
          change Except.ok (t.set p.nRegs _) = _
          rw [pool_getD, List.getD_eq_getElem?_getD, List.getElem?_eq_none le_rfl]
          rfl
        rw [List.foldlM_cons, hexec]
        rfl
      · change s.reg r = Function.update t.reg p.nRegs 0 r
        rw [Function.update_of_ne (by omega)]
        exact hst.1 r hr
      · change M.toInt (Function.update t.reg p.nRegs 0 p.nRegs) = _
        rw [Function.update_self, hM.zero]
        rfl
    · rename_i htrail
      exact ⟨t, rfl, hst, fun h => absurd h htrail⟩
  have hclear : ∀ J ∈ p.clearTrail R keep, J.isJump = false ∧
      ∀ pc (u : File V S), J.next M pc u = pc + 1 := by
    intro J hJ
    unfold clearTrail at hJ
    split at hJ
    · obtain rfl := List.mem_singleton.1 hJ
      simp [Instr.isJump, Instr.next]
    · simp at hJ
  obtain ⟨ws₀, hsweep₀, hpos₀⟩ := Branching.sweep_straight_self
    (B := (p.assemble R keep es).machine M) (fun J hJ => (hclear J hJ).2) 0 hrun₀
  rw [Nat.zero_add] at hsweep₀ hpos₀
  have hbranches₀ : (p.assemble R keep es).branches M ws₀ = [] := by
    refine branches_eq_nil fun v hv J hJ => ?_
    rw [assemble_code, List.getElem?_append_left (hpos₀ v hv).2] at hJ
    exact (hclear J (List.mem_of_getElem? hJ)).1
  have hlen : (assembledBlocks R p keep es).length = p.code.length := by
    simp [assembledBlocks, emittedBlocks, hd.length_eq]
  have hrel : AugmentedRel M R p keep es 0 [] ws₀ s t₀ :=
    ⟨hst₀, by simp, by simp, List.Pairwise.nil, htrail₀, hbranches₀.symm⟩
  have halike := Branching.sweep_blocks_start (B := p.machine M)
    (C := (p.assemble R keep es).machine M) (R := AugmentedRel M R p keep es)
    (E := fun vs ws => p.branches M vs = (p.assemble R keep es).branches M ws)
    (n := (p.clearTrail R keep).length) hlen
    (fun k I b hI hb => by
      obtain ⟨e, he, -⟩ := hd.emit hI
      obtain rfl := Option.some.inj ((assembledBlocks_getElem? R p keep (M := M) he).symm.trans hb)
      rw [← pcMap_eq]
      exact augmented_step hd hM hR hI he) hrel
  rw [assemble_code, Branching.sweep_append, hsweep₀]
  dsimp only
  rw [Nat.zero_add]
  simpa [Branching.EndsAlike] using halike

end IslandProg

end Stanli
