import Stanli.Passes.RerollScan

/-!
# The signature prefilter changes nothing

Lanes that match have equal signatures, so a run of matching lanes is never longer than the run of
signatures the prefilter records (`run_le_laneCap`).  Hence the prefiltered count is the direct one
(`prefilteredLanes_eq`), both scans take the same turns, and each turn consumes the ops it stands at
and no others.
-/

namespace Stanli

namespace Reroll

variable {U σ : Type*} {g : Graph U} {i P : ℕ}

/-! ## Lane counts -/

lemma sig_eq_of_matchAt {k k' d : ℕ} (h : matchAt g k k' d = true) :
    k < (sig g).length ∧ (sig g)[k']? = (sig g)[k]? := by
  unfold matchAt at h
  split at h
  · rename_i a b ha hb
    refine ⟨?_, ?_⟩
    · rw [sig, List.length_map]
      exact (List.getElem?_eq_some_iff.1 ha).1
    · rw [sig, List.getElem?_map, List.getElem?_map, ha, hb, Option.map_some, Option.map_some,
        opSignature_eq_of_opsMatch h]
  · cases h

lemma le_laneCap {fwd ps : List ℕ} {cap l : ℕ} (hcap : l ≤ cap)
    (hfwd : ∀ p ∈ ps, l ≤ fwd.getD (i + p) 0) : l ≤ laneCap fwd i ps cap := by
  induction ps generalizing cap with
  | nil => exact hcap
  | cons p ps ih =>
    rw [laneCap]
    split
    · apply ih
      · exact le_min hcap (hfwd p List.mem_cons_self)
      · exact fun q hq => hfwd q (List.mem_cons_of_mem p hq)
    · exact hcap

/-- The bound of the prefilter, whether its loop ran to the end or not. -/
abbrev signatureCap (g : Graph U) (i P : ℕ) : ℕ :=
  laneCap (periodFwd g P) i (List.range' 1 (P - 1)) ((periodFwd g P).getD i 0)

/-- A run of matching lanes is no longer than the run of their signatures. -/
lemma run_le_signatureCap (hP : 0 < P) {l : ℕ} (hl : 1 ≤ l)
    (hrun : ∀ m, 1 ≤ m → m ≤ l → laneFollows g i P m = true) : l ≤ signatureCap g i P := by
  have hmatch : ∀ p, p < P → ∀ m, 1 ≤ m → m ≤ l → matchAt g (i + p) (i + m * P + p) m = true := by
    intro p hp m h1 hm
    have h := hrun m h1 hm
    rw [laneFollows, Bool.and_eq_true] at h
    exact List.all_eq_true.1 h.2 p (List.mem_range.2 hp)
  have hfwd : ∀ p, p < P → l ≤ (periodFwd g P).getD (i + p) 0 := by
    intro p hp
    apply le_runAhead hP (sig_eq_of_matchAt (hmatch p hp l hl (le_refl l))).1
    intro m hm
    rcases Nat.eq_zero_or_pos m with rfl | hpos
    · rw [Nat.zero_mul, Nat.add_zero]
    · have h := (sig_eq_of_matchAt (hmatch p hp m hpos hm)).2
      rwa [Nat.add_right_comm] at h
  apply le_laneCap
  · exact hfwd 0 hP
  · intro p hp
    have := List.mem_range'_1.1 hp
    exact hfwd p (by omega)

/-- The prefilter keeps every lane count that makes a region, and skips nothing else. -/
lemma prefilteredLanes_eq (hP : 0 < P) : prefilteredLanes g i P = directLanes g i P := by
  have hcap : ∀ l, 1 ≤ l → (∀ m, 1 ≤ m → m ≤ l → laneFollows g i P m = true) →
      l ≤ signatureCap g i P := fun l hl hrun => run_le_signatureCap hP hl hrun
  unfold prefilteredLanes directLanes
  simp only
  split
  · rename_i hskip
    -- too few signatures: the direct count stays below the lanes a region needs
    have hle : countUp (laneFollows g i P) g.ops.length 1 ≤ signatureCap g i P + 1 :=
      countUp_le (by omega) hcap
    rw [enoughLanes, if_pos (lt_of_le_of_lt hle hskip)]
  · congr 1
    apply countUp_capped (le_refl 1)
    · intro m h1 hm
      omega
    · intro l hl hrun
      exact Nat.le_succ_of_le (hcap l hl hrun)

lemma lanes_eq (hP : 0 < P) : lanes true g i P = lanes false g i P := by
  simp [lanes, prefilteredLanes_eq hP]

/-- The triples `check_signature_soundness` looks at: two ops within the window and a lane
distance. -/
def checkedPairs (g : Graph U) (window : ℕ) : List (ℕ × ℕ × ℕ) :=
  (List.range g.ops.length).flatMap fun a =>
    (List.range' (a + 1) (min g.ops.length (a + window + 1) - (a + 1))).flatMap fun b =>
      [b - a, 1, kMinLanes].map fun dist => (a, b, dist)

/-- `check_signature_soundness`: how many of them match under different signatures. -/
def signatureViolations (g : Graph U) (window : ℕ) : ℕ :=
  (checkedPairs g window).countP fun t =>
    decide ((sig g)[t.1]? ≠ (sig g)[t.2.1]?) && matchAt g t.1 t.2.1 t.2.2

/-- The check the tests run finds nothing in any graph. -/
lemma signatureViolations_eq_zero (g : Graph U) (window : ℕ) : signatureViolations g window = 0 := by
  rw [signatureViolations, List.countP_eq_zero]
  intro t _ ht
  rw [Bool.and_eq_true, decide_eq_true_iff] at ht
  exact ht.1 (sig_eq_of_matchAt ht.2).2.symm

/-! ## The two scans -/

variable {next : List ℕ} {rw : Rewriter σ}

lemma tryPeriods_eq {Ps : List ℕ} (hPs : ∀ P ∈ Ps, 0 < P) (st : ScanState σ) :
    tryPeriods true g next rw i Ps st = tryPeriods false g next rw i Ps st := by
  induction Ps generalizing st with
  | nil => rfl
  | cons P Ps ih =>
    have hone : tryPeriod true g next rw st i P = tryPeriod false g next rw st i P := by
      unfold tryPeriod
      rw [lanes_eq (hPs P List.mem_cons_self)]
    have hrest := ih fun Q hQ => hPs Q (List.mem_cons_of_mem P hQ)
    unfold tryPeriods
    rw [hone]
    simp only [hrest]

lemma scanFrom_eq (fuel i : ℕ) (st : ScanState σ) :
    scanFrom true g next rw fuel i st = scanFrom false g next rw fuel i st := by
  induction fuel generalizing i st with
  | zero => rfl
  | succ fuel ih =>
    have hPs : ∀ P ∈ List.range' 1 kMaxPeriod, 0 < P := fun P hP => (List.mem_range'_1.1 hP).1
    unfold scanFrom
    rw [tryPeriods_eq hPs]
    simp only [ih]

/-! ## Every op is visited once -/

/-- A region that fits the op list at `i` and keeps at least a region's lanes. -/
structure Region.Fits (r : Region) (g : Graph U) (i : ℕ) : Prop where
  start : r.start = i
  period : 0 < r.period
  used : kMinLanes ≤ r.used
  used_le : r.used ≤ r.lanes
  inside : i + r.period * r.lanes ≤ g.ops.length

/-- The lanes that are counted fit the op list. -/
lemma inside_of_directLanes {L : ℕ} (hfit : i + 2 * P ≤ g.ops.length)
    (h : directLanes g i P = some L) : i + P * L ≤ g.ops.length := by
  rw [directLanes, enoughLanes] at h
  split at h
  · cases h
  · obtain rfl := Option.some.inj h
    rcases Nat.lt_or_ge 1 (countUp (laneFollows g i P) g.ops.length 1) with hlt | hle
    · have hlast : laneFollows g i P (countUp (laneFollows g i P) g.ops.length 1 - 1) = true :=
        countUp_ok (Nat.le_sub_one_of_lt hlt) (Nat.sub_lt (by omega) Nat.one_pos)
      rw [laneFollows, Bool.and_eq_true, decide_eq_true_iff, Nat.sub_add_cancel hlt.le] at hlast
      rw [Nat.mul_comm]
      exact hlast.1
    · have hone := le_antisymm hle (le_countUp (laneFollows g i P) g.ops.length 1)
      rw [hone, Nat.mul_one]
      omega

/-- A prefix is only selected while it has a region's lanes, and prefixes only shrink. -/
lemma shrink_selected {s emitted : σ} {attempts Luse L : ℕ}
    (h : shrink rw s i P attempts L = (Luse, some emitted)) : kMinLanes ≤ Luse ∧ Luse ≤ L := by
  induction attempts generalizing L with
  | zero => simp [shrink] at h
  | succ attempts ih =>
    rw [shrink] at h
    split at h
    · rename_i hmin
      split at h
      · obtain ⟨rfl, -⟩ := Prod.mk.inj h
        exact ⟨hmin, le_refl _⟩
      · obtain ⟨h4, hle⟩ := ih h
        refine ⟨h4, le_trans hle ?_⟩
        split <;> omega
    · simp at h

lemma tryPeriod_fits {st st' : ScanState σ} {r : Region} (hP : 0 < P)
    (hfit : i + 2 * P ≤ g.ops.length)
    (h : tryPeriod false g next rw st i P = (st', some r)) : r.Fits g i := by
  unfold tryPeriod at h
  split at h
  · simp at h
  split at h
  · simp at h
  split at h
  · simp at h
  · rename_i L hL
    unfold classify at h
    simp only at h
    split at h
    · rename_i Luse emitted hs
      obtain ⟨-, hr⟩ := Prod.mk.inj h
      obtain rfl := Option.some.inj hr
      obtain ⟨h4, hle⟩ := shrink_selected hs
      refine ⟨rfl, hP, h4, le_trans hle ?_, inside_of_directLanes hfit hL⟩
      split
      · exact Nat.zero_le L
      · exact le_refl L
    · simp at h

lemma tryPeriods_fits {Ps : List ℕ} (hPs : ∀ P ∈ Ps, 0 < P) {st st' : ScanState σ} {r : Region}
    (h : tryPeriods false g next rw i Ps st = (st', some r)) : r.Fits g i := by
  induction Ps generalizing st with
  | nil => simp [tryPeriods] at h
  | cons P Ps ih =>
    rw [tryPeriods] at h
    split at h
    · rename_i hfit
      split at h
      · rename_i st₁ r₁ hone
        obtain ⟨-, hr⟩ := Prod.mk.inj h
        obtain rfl := Option.some.inj hr
        exact tryPeriod_fits (hPs P List.mem_cons_self) hfit hone
      · exact ih (fun Q hQ => hPs Q (List.mem_cons_of_mem P hQ)) h
    · simp at h

/-- The region's ops are those from its start to where the scan goes on. -/
lemma Region.Fits.range {r : Region} (h : r.Fits g i) :
    i + r.period * r.used ≤ g.ops.length ∧ 0 < r.period * r.used := by
  refine ⟨?_, ?_⟩
  · have hmul : r.period * r.used ≤ r.period * r.lanes := Nat.mul_le_mul_left _ h.used_le
    have := h.inside
    omega
  · exact Nat.mul_pos h.period (lt_of_lt_of_le (by decide) h.used)

lemma range'_split {n m : ℕ} (h : i + m ≤ n) :
    List.range' i (n - i) = List.range' i m ++ List.range' (i + m) (n - (i + m)) := by
  have hlen : n - i = m + (n - (i + m)) := by omega
  rw [hlen, ← List.range'_append_1]

/-- From op `i` on, the visits consume the rest of the ops in order. -/
lemma flatMap_positions_scanFrom (fuel i : ℕ) (st : ScanState σ) (hfuel : g.ops.length ≤ fuel + i) :
    (scanFrom false g next rw fuel i st).1.flatMap Visit.positions
      = List.range' i (g.ops.length - i) := by
  induction fuel generalizing i st with
  | zero =>
    have hzero : g.ops.length - i = 0 := by omega
    rw [hzero]
    rfl
  | succ fuel ih =>
    have hPs : ∀ P ∈ List.range' 1 kMaxPeriod, 0 < P := fun P hP => (List.mem_range'_1.1 hP).1
    unfold scanFrom
    split
    · rename_i hi
      split
      · rename_i st' r hr
        have hfits := tryPeriods_fits hPs hr
        obtain ⟨hinside, hpos⟩ := hfits.range
        have hrest := ih (i + r.period * r.used) st' (by omega)
        simp only [List.flatMap_cons, Visit.positions, hrest, hfits.start]
        exact (range'_split hinside).symm
      · rename_i st' hr
        have hrest := ih (i + 1) { st' with emitted := rw.copy st'.emitted i } (by omega)
        simp only [List.flatMap_cons, Visit.positions, hrest]
        have hone : i + 1 ≤ g.ops.length := hi
        exact (range'_split hone).symm
    · have hzero : g.ops.length - i = 0 := by omega
      rw [hzero]
      rfl

/-- The signature prefilter never changes the pass.  Ops that match at any lane distance have one
signature; at every op and for every period both scans count the same lanes, or both too few; the
scans make the same visits, so select the same regions, and emit the same; and the visits of either
consume every op exactly once, in order. -/
theorem prefilter_transparent (g : Graph U) :
    (∀ (a b : Op U) (d : ℤ), opsMatch g a b d = true → opSignature g a = opSignature g b) ∧
    (∀ i P, 0 < P → lanes true g i P = lanes false g i P) ∧
    ∀ (termSet : ℕ → Bool) (rw : Rewriter σ) (s : σ),
      scan true g termSet rw s = scan false g termSet rw s ∧
      ∀ prefilter, (scan prefilter g termSet rw s).1.flatMap Visit.positions
        = List.range g.ops.length := by
  refine ⟨fun a b d h => opSignature_eq_of_opsMatch h, fun i P hP => lanes_eq hP, ?_⟩
  intro termSet rw s
  have heq : scan true g termSet rw s = scan false g termSet rw s := scanFrom_eq _ _ _
  have hvisits : (scan false g termSet rw s).1.flatMap Visit.positions
      = List.range g.ops.length := by
    rw [List.range_eq_range']
    exact flatMap_positions_scanFrom _ _ _ (le_refl _)
  refine ⟨heq, fun prefilter => ?_⟩
  cases prefilter with
  | false => exact hvisits
  | true => rwa [heq]

/-- `y[0]` and `y[1]`, read into two slots of their own. -/
def indexLanes : Graph Unit where
  slots := [⟨2, true⟩, ⟨1, false⟩, ⟨1, false⟩]
  ops :=
    [{ opcode := .index, out := 1, ins := [0], idata := [0] },
     { opcode := .index, out := 2, ins := [0], idata := [1] }]

/-- The match lets the index advance with the lane, and the signature leaves it out. -/
theorem indexLanes_signature :
    opSignature indexLanes { opcode := .index, out := 1, ins := [0], idata := [0] }
      = opSignature indexLanes { opcode := .index, out := 2, ins := [0], idata := [1] } :=
  (@prefilter_transparent Unit Unit indexLanes).1 _ _ 1 (by decide)

end Reroll

end Stanli
