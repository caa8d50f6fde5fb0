import Stanli.DynamicIndex.Kernels
import Stanli.DynamicIndex.Prepared

/-!
# What the indexing kernels compute

Each kernel against the positions that `indexPositions` hands on.  An output entry of a read comes
from the base cell at its position; an output cell of an update comes from the right-hand side entry
written there last, or else from the base cell itself.  The backward kernels send each output adjoint
to the cell its value came from; for a selection that cannot repeat the positions grow
(`Validated.pairwise_positions`), which is what lets the ordered loop walk both lists in step.
-/

namespace Stanli

namespace DynamicIndex

open MixedRadix Scatter

variable {V : Type}

/-! ## Sources -/

/-- Where the value of an output cell comes from. -/
inductive Source
  | base (cell : ℕ)
  | rhs (entry : ℕ)

/-- The source of a cell after an update: the entry written there last, or the cell of the base. -/
def updateSource (visited : List ℕ) (cell : ℕ) : Source :=
  (lastIndex visited cell).elim (.base cell) .rhs

/-- Where the adjoint of a source is. -/
def Source.adjoint (baseAdj rhsAdj : Option ℕ) : Source → Option ℕ
  | .base cell => cellOf baseAdj cell
  | .rhs entry => cellOf rhsAdj entry

/-- What an update leaves in its scratch buffer: the entry written last to each cell, or `-1`. -/
def updateScratch (c : Ctx V) (visited : List ℕ) : List ℤ :=
  (List.range (c.input 0).length).map fun cell => (lastIndex visited cell).elim (-1) Int.ofNat

lemma foldl_set_eq_updateScratch (c : Ctx V) (visited : List ℕ) :
    visited.zipIdx.foldl (fun s x => s.set x.1 (x.2 : ℤ)) (List.replicate (c.input 0).length (-1)) =
      updateScratch c visited := by
  apply List.ext_getElem?
  intro k
  by_cases hk : k < (c.input 0).length
  · rw [getElem?_foldl_set (fun i => (i : ℤ)) visited _ (by rwa [List.length_replicate]),
      updateScratch, List.getElem?_map, List.getElem?_range hk, Option.map_some,
      List.getElem?_replicate, if_pos hk]
    cases lastIndex visited k <;> rfl
  · rw [List.getElem?_eq_none, List.getElem?_eq_none]
    · rw [updateScratch, List.length_map, List.length_range]
      exact not_lt.1 hk
    · rw [length_foldl_set, List.length_replicate]
      exact not_lt.1 hk

section Values

variable [Zero V]

/-- The value of a source. -/
def Source.value (base rhs : List V) : Source → V
  | .base cell => base.getD cell 0
  | .rhs entry => rhs.getD entry 0

/-- What an update puts into its output. -/
def updateOutput (c : Ctx V) (rhs : List V) (visited : List ℕ) : List V :=
  (List.range (c.input 0).length).map fun cell => (updateSource visited cell).value (c.input 0) rhs

lemma foldl_set_eq_updateOutput (c : Ctx V) (rhs : List V) (visited : List ℕ) :
    visited.zipIdx.foldl (fun out x => out.set x.1 (rhs.getD x.2 0)) (c.input 0) =
      updateOutput c rhs visited := by
  apply List.ext_getElem?
  intro k
  by_cases hk : k < (c.input 0).length
  · rw [getElem?_foldl_set (fun i => rhs.getD i 0) visited _ hk, updateOutput, List.getElem?_map,
      List.getElem?_range hk, Option.map_some, updateSource]
    cases lastIndex visited k with
    | none => simp [Source.value, hk]
    | some i => rfl
  · rw [List.getElem?_eq_none, List.getElem?_eq_none]
    · rw [updateOutput, List.length_map, List.length_range]
      exact not_lt.1 hk
    · rw [length_foldl_set]
      exact not_lt.1 hk

end Values

variable [Integral V]

/-! ## Loops over the positions -/

/-- A loop that has met no exception anywhere, in closed form. -/
lemma forPositions_eq {σ : Type} {p : DynamicIndexSpec} {rt : Runtime V} {visited : List ℕ}
    (h : selectedPositions p rt = ⟨(), visited, none⟩) (f : σ → ℕ → ℕ → σ) (s : σ) :
    forPositions p rt f s = .ok (visited.zipIdx.foldl (fun s x => f s x.2 x.1) s) := by
  obtain ⟨hlen, hposition⟩ := selectedPosition_of_log h
  have hrun : ∀ n ≤ visited.length,
      (List.range n).foldlM (fun s i => (selectedPosition p rt i).map (f s i)) s =
        .ok ((visited.take n).zipIdx.foldl (fun s x => f s x.2 x.1) s) := by
    intro n
    induction n with
    | zero => exact fun _ => rfl
    | succ n ih =>
      intro hn
      have hlt : n < visited.length := hn
      have hlast : (visited.take n).length = n := by
        rw [List.length_take]
        omega
      rw [List.range_succ, List.foldlM_append, ih (Nat.le_of_lt hlt), ok_bind, List.foldlM_cons,
        hposition n hlt, List.take_succ_eq_append_getElem hlt, List.zipIdx_append, List.foldl_append,
        hlast, Nat.zero_add]
      rfl
  have hall := hrun visited.length (Nat.le_refl _)
  rwa [List.take_length, hlen] at hall

/-- A call whose positions are enumerated has been validated. -/
lemma validated_of_visits {p : DynamicIndexSpec} {c : Ctx V} {update : Bool} {visited : List ℕ}
    (h : indexPositions p c update = ⟨(), visited, none⟩) :
    ∃ rt, validateIndex p c update = .ok rt ∧ selectedPositions p rt = ⟨(), visited, none⟩ := by
  rw [indexPositions_eq_general, generalPositions] at h
  cases hv : validateIndex p c update with
  | error e =>
    rw [hv] at h
    cases h
  | ok rt =>
    rw [hv] at h
    exact ⟨rt, rfl, h⟩

/-- The positions a call hands on are those of its selection. -/
lemma Validated.visited_eq {p : DynamicIndexSpec} {c : Ctx V} {update : Bool} {rt : Runtime V}
    (h : Validated p c update rt) {visited : List ℕ}
    (hv : selectedPositions p rt = ⟨(), visited, none⟩) :
    AllFits p rt ∧ visited = positions (choices p rt) := by
  have hf : AllFits p rt := by
    by_contra hf
    exact h.error_ne_none hf (by rw [hv])
  refine ⟨hf, ?_⟩
  have hsame := hv.symm.trans (h.selectedPositions_eq hf)
  exact congrArg Outcome.log hsame

/-! ## Reading -/

section Forward

variable [Zero V]

/-- What a read puts into its output: the selected cells, and zeros behind them. -/
def readOutput (c : Ctx V) (visited : List ℕ) : List V :=
  (List.range c.outLen).map fun i => visited[i]?.elim 0 fun position => (c.input 0).getD position 0

/-- The one output of a scalar read. -/
lemma scalarIndexForward_eq {p : DynamicIndexSpec} {c : Ctx V} {visited : List ℕ}
    (h : indexPositions p c false = ⟨(), visited, none⟩) (hsize : p.selectedSize = 1)
    (hout : c.outLen = 1) : ∃ position,
      scalarIndexForward p c = .ok (readOutput c visited, position) := by
  have hread : readOutput c visited =
      [visited[0]?.elim 0 fun position => (c.input 0).getD position 0] := by
    rw [readOutput, hout]
    rfl
  have hvisits := h
  rw [indexPositions] at h
  rw [scalarIndexForward, hread]
  cases hfixed : fixedScalarIndex p c false with
  | error e =>
    rw [hfixed] at h
    cases h
  | ok fixed =>
    rw [hfixed] at h
    cases fixed with
    | some position =>
      cases h
      exact ⟨position, rfl⟩
    | none =>
      obtain ⟨rt, hrt, hpositions⟩ := validated_of_visits hvisits
      obtain ⟨hlen, hposition⟩ := selectedPosition_of_log hpositions
      have hroom := (validateIndex_eq_ok hrt).room
      have hshape : ¬ (p.selectedSize ≠ 1 ∨ (c.outLen : ℤ) ≠ 1 ∨ 1 < rt.selected) := by omega
      rw [ok_bind]
      simp only [hrt]
      rw [ok_bind, throwIf_of_not (by omega), ok_bind]
      by_cases h0 : rt.selected = 0
      · rw [if_pos h0]
        rw [h0, List.length_eq_zero_iff] at hlen
        rw [hlen]
        exact ⟨-1, rfl⟩
      · have hlt : 0 < visited.length := by omega
        rw [if_neg h0, hposition 0 hlt, List.getElem?_eq_getElem hlt]
        exact ⟨_, rfl⟩

/-- A scalar read refuses as the loop over the positions does. -/
lemma scalarIndexForward_error {p : DynamicIndexSpec} {c : Ctx V} {e : Exc}
    (h : indexPositions p c false = Visits.thrown e) (hsize : p.selectedSize = 1)
    (hout : c.outLen = 1) : scalarIndexForward p c = .error e := by
  have hgeneral := h
  rw [indexPositions_eq_general, generalPositions] at hgeneral
  rw [indexPositions] at h
  rw [scalarIndexForward]
  cases hfixed : fixedScalarIndex p c false with
  | error e' =>
    rw [hfixed] at h
    cases h
    rfl
  | ok fixed =>
    rw [hfixed] at h
    cases fixed with
    | some position => cases h
    | none =>
      rw [ok_bind]
      cases hrt : validateIndex p c false with
      | error e' =>
        rw [hrt] at hgeneral
        cases hgeneral
        rfl
      | ok rt =>
        rw [hrt] at hgeneral
        have hroom := (validateIndex_eq_ok hrt).room
        have hselected : rt.selected = 1 := by
          rcases Nat.lt_or_ge 0 rt.selected with hpos | hzero
          · omega
          · change selectedPositions p rt = _ at hgeneral
            rw [selectedPositions, Nat.le_zero.1 hzero] at hgeneral
            cases hgeneral
        simp only
        rw [ok_bind, throwIf_of_not (by omega), ok_bind, if_neg (by omega)]
        change (positionMachine p rt).run (List.range rt.selected) () = _ at hgeneral
        rw [hselected, List.range_one] at hgeneral
        cases hposition : selectedPosition p rt 0 with
        | error e' =>
          rw [Machine.run_cons_error (step_error hposition)] at hgeneral
          cases hgeneral
          rfl
        | ok position =>
          rw [Machine.run_cons_ok (step_ok hposition)] at hgeneral
          cases hgeneral

/-- A read, in closed form. -/
theorem indexForward_eq {p : DynamicIndexSpec} {c : Ctx V} {visited : List ℕ}
    (h : indexPositions p c false = ⟨(), visited, none⟩) :
    indexForward p c = .ok (readOutput c visited) := by
  rw [indexForward]
  by_cases hscalar : p.selectedSize = 1 ∧ c.outLen = 1
  · obtain ⟨position, hforward⟩ := scalarIndexForward_eq h hscalar.1 hscalar.2
    rw [if_pos hscalar, hforward]
    rfl
  · obtain ⟨rt, hrt, hpositions⟩ := validated_of_visits h
    rw [if_neg hscalar, hrt, ok_bind, forPositions_eq hpositions]
    congr 1
    apply List.ext_getElem?
    intro k
    by_cases hk : k < c.outLen
    · rw [getElem?_foldl_set_zipIdx (fun position => (c.input 0).getD position 0) visited _
        (by rwa [List.length_replicate]), List.getElem?_replicate, if_pos hk, readOutput,
        List.getElem?_map, List.getElem?_range hk]
      cases hvisited : visited[k]? <;> simp [hvisited]
    · rw [List.getElem?_eq_none, List.getElem?_eq_none]
      · rw [readOutput, List.length_map, List.length_range]
        exact not_lt.1 hk
      · rw [length_foldl_set, List.length_replicate]
        exact not_lt.1 hk

/-- A read at a position computed in advance is the read. -/
theorem preparedIndexRead_eq {p : DynamicIndexSpec} {c₀ c : Ctx V} {rt₀ : Runtime V}
    (hsingle : singleSelection p = true) (hc : SameGeometry c₀ c)
    (h : validateIndex p c₀ false = .ok rt₀) : preparedIndexRead p c = indexForward p c := by
  have hsize := (single_of_singleSelection hsingle).1
  have hout : c.outLen = 1 := by
    have hout := (validateIndex_eq_ok h).out rfl
    rw [hsize, hc.out] at hout
    omega
  have hvisits := preparedPosition_eq_general hsingle hc h
  rw [← indexPositions_eq_general] at hvisits
  rw [preparedIndexRead]
  cases hposition : preparedPosition p c with
  | error e =>
    rw [hposition] at hvisits
    rw [indexForward, if_pos ⟨hsize, hout⟩, scalarIndexForward_error hvisits.symm hsize hout]
    rfl
  | ok position =>
    rw [hposition] at hvisits
    rw [indexForward_eq hvisits.symm, readOutput, hout]
    rfl

/-! ## Updating -/

/-- An update, in closed form. -/
theorem setIndexForward_eq {p : DynamicIndexSpec} {c : Ctx V} {layout : InputLayout}
    {visited : List ℕ} (hlayout : indexInputLayout p true = some layout)
    (h : indexPositions p c true = ⟨(), visited, none⟩) (scratch : List ℤ) :
    setIndexForward p c scratch = .ok (updateOutput c (c.input layout.rhs) visited,
      if selectionIsOrderedUnique p then scratch else updateScratch c visited) := by
  obtain ⟨rt, hrt, hpositions⟩ := validated_of_visits h
  rw [setIndexForward, requireIndexInputLayout_eq_ok.2 hlayout, ok_bind, hrt, ok_bind,
    forPositions_eq hpositions]
  cases hp : selectionIsOrderedUnique p with
  | true =>
    have hpair : ∀ (l : List (ℕ × ℕ)) (s : List V × List ℤ),
        l.foldl (fun s x => (s.1.set x.1 ((c.input layout.rhs).getD x.2 0), s.2)) s =
          (l.foldl (fun out x => out.set x.1 ((c.input layout.rhs).getD x.2 0)) s.1, s.2) := by
      intro l
      induction l with
      | nil => exact fun _ => rfl
      | cons x l ih => exact fun s => ih _
    simp only [Bool.not_true, Bool.false_eq_true, if_false, if_true]
    rw [hpair, foldl_set_eq_updateOutput]
  | false =>
    have hpair : ∀ (l : List (ℕ × ℕ)) (s : List V × List ℤ),
        l.foldl (fun s x => (s.1.set x.1 ((c.input layout.rhs).getD x.2 0), s.2.set x.1 (x.2 : ℤ))) s =
          (l.foldl (fun out x => out.set x.1 ((c.input layout.rhs).getD x.2 0)) s.1,
            l.foldl (fun s x => s.set x.1 (x.2 : ℤ)) s.2) := by
      intro l
      induction l with
      | nil => exact fun _ => rfl
      | cons x l ih => exact fun s => ih _
    simp only [Bool.not_false, Bool.false_eq_true, if_false, if_true]
    rw [hpair, foldl_set_eq_updateOutput, foldl_set_eq_updateScratch]

end Forward

/-! ## Adjoints of a read -/

section Backward

variable {A : Type} [Add A]

/-- The backward of a read adds each output adjoint to that of the cell it was read from. -/
theorem indexBackward_eq {p : DynamicIndexSpec} {c : Ctx V} {visited : List ℕ}
    (h : indexPositions p c false = ⟨(), visited, none⟩) (baseAdj : Option ℕ) (outAdj : ℕ → A)
    (mem : ℕ → A) : indexBackward p c baseAdj outAdj mem =
      .ok (routed c.outLen (fun i => visited[i]?.bind (cellOf baseAdj)) outAdj mem) := by
  obtain ⟨rt, hrt, hpositions⟩ := validated_of_visits h
  have hlen : visited.length ≤ c.outLen := by
    have hv := validateIndex_eq_ok hrt
    have hroom := hv.room
    rw [← hv.out rfl, ← (selectedPosition_of_log hpositions).1] at hroom
    omega
  have hplace : ∀ i, visited.length ≤ i → visited[i]?.bind (cellOf baseAdj) = none := by
    intro i hi
    rw [List.getElem?_eq_none hi]
    rfl
  rw [routed_of_none hlen hplace, indexBackward]
  by_cases hadj : baseAdj = none
  · rw [if_pos hadj, routed_of_none (Nat.zero_le _) (fun i _ => ?_)]
    · rfl
    · rw [hadj]
      cases visited[i]? <;> rfl
  · rw [if_neg hadj]
    have hvisits := h
    rw [indexPositions] at h
    cases hfixed : fixedScalarIndex p c false with
    | error e =>
      rw [hfixed] at h
      cases h
    | ok fixed =>
      rw [hfixed] at h
      rw [ok_bind]
      cases fixed with
      | some position =>
        cases h
        change _ = Except.ok (routed (0 + 1) _ _ _)
        rw [routed_succ]
        rfl
      | none =>
        simp only
        rw [hrt, ok_bind, forPositions_eq hpositions, foldl_addTo_zipIdx]

/-! ## Adjoints of an update -/

/-- A count an axis reads is within its capacity. -/
lemma dynamicAxisCount_le {a : Axis} {c : Ctx V} {count : ℤ}
    (h : dynamicAxisCount a c = .ok count) : count ≤ a.count := by
  rw [dynamicAxisCount] at h
  split at h
  · cases h
    exact Int.le_refl _
  · rw [runtimeCount, bind_eq_ok_iff] at h
    obtain ⟨value, -, h⟩ := h
    have hcheck : ∃ e n, (throwIf (n < 0 ∨ a.count < n) e >>= fun _ => .ok n) = .ok count := by
      dsimp only at h
      split at h
      · obtain ⟨n, -, h⟩ := bind_eq_ok_iff.1 h
        exact ⟨_, n, h⟩
      · exact ⟨_, value, h⟩
    obtain ⟨e, n, hcheck⟩ := hcheck
    rw [throwIf_bind_eq_ok] at hcheck
    obtain ⟨hn, hcheck⟩ := hcheck
    cases hcheck
    omega

/-- The coordinates of an axis that cannot repeat grow. -/
lemma AxisChecked.pairwise_choice {c : Ctx V} {layout : InputLayout} {a : Axis} {r : RuntimeAxis V}
    (h : AxisChecked c layout a r) (ha : a.kind ≠ .multi ∨ a.count ≤ 1)
    (hr : ReadsWithin (a, r)) : (choice (a, r)).1.Pairwise (· < ·) := by
  have hcount : (r.count : ℤ) ≤ a.count := dynamicAxisCount_le h.1.count_eq
  have hfew : r.count ≤ 1 → (choice (a, r)).1.Pairwise (· < ·) := by
    intro hle
    rw [List.pairwise_iff_getElem]
    intro i j hi hj hij
    rw [length_choice] at hj
    change j < r.count at hj
    omega
  have hgrow : (∀ i j, i < j → j < r.count → ∀ d d' : ℕ, rawIndex a r i = some (d + 1 : ℤ) →
      rawIndex a r j = some (d' + 1 : ℤ) → d < d') → (choice (a, r)).1.Pairwise (· < ·) := by
    intro hstep
    rw [List.pairwise_iff_getElem]
    intro i j hi hj hij
    rw [length_choice] at hi hj
    obtain ⟨d, -, hd⟩ := hr i hi
    obtain ⟨d', -, hd'⟩ := hr j hj
    rw [choice_getElem (by rwa [length_choice]) hd, choice_getElem (by rwa [length_choice]) hd']
    exact hstep i j hij hj d d' hd hd'
  cases hk : a.kind with
  | single =>
    apply hfew
    have hone : ¬ (a.kind = .single ∧ a.count ≠ 1) := fun hs =>
      h.1.shape (.inr (.inr (.inr (.inl hs))))
    have hone : a.count = 1 := not_not.1 fun hne => hone ⟨hk, hne⟩
    omega
  | multi =>
    apply hfew
    have hle : a.count ≤ 1 := ha.resolve_left (by simp [hk])
    omega
  | all =>
    apply hgrow
    intro i j hij hj d d' hd hd'
    simp only [rawIndex, hk, Option.some_inj] at hd hd'
    omega
  | range =>
    apply hgrow
    intro i j hij hj d d' hd hd'
    simp only [rawIndex, hk] at hd hd'
    obtain ⟨raw, hraw, hd⟩ := Option.map_eq_some_iff.1 hd
    rw [hraw, Option.map_some, Option.some_inj] at hd'
    omega

/-- The positions of a selection that cannot repeat grow. -/
theorem Validated.pairwise_positions {p : DynamicIndexSpec} {c : Ctx V} {update : Bool}
    {rt : Runtime V} (h : Validated p c update rt) (hf : AllFits p rt)
    (hp : selectionIsOrderedUnique p = true) : (positions (choices p rt)).Pairwise (· < ·) := by
  rw [h.positions_choices, List.pairwise_map]
  rcases hf with h0 | hf
  · rw [h0]
    exact .nil
  · have hinc : Increasing (choices p rt) := by
      intro s hs
      obtain ⟨x, hx, rfl⟩ := List.mem_map.1 hs
      rw [mem_listed] at hx
      obtain ⟨layout, hall⟩ := h.checked
      apply (hall x hx).pairwise_choice ?_ (h.readsWithin hf x hx)
      rw [selectionIsOrderedUnique, List.all_eq_true] at hp
      have hx := hp x.1 (List.of_mem_zip hx).1
      rwa [Bool.or_eq_true, decide_eq_true_eq, decide_eq_true_eq] at hx
    refine List.pairwise_lt_range.imp_of_mem fun _ hn hmn => ?_
    apply entryAt_strictMono (h.inside_choices hf) hinc hmn
    rw [h.size_choices]
    exact List.mem_range.1 hn

/-- What holds when the ordered loop has come to the cell `n`: it has met the positions below `n`, and
the adjoints of the cells before have gone where they belong. -/
structure Walked (visited : List ℕ) (baseAdj rhsAdj : Option ℕ) (outAdj mem : ℕ → A) (n : ℕ)
    (s : Ordered A) : Prop where
  le : s.selected ≤ visited.length
  met : ∀ j, (h : j < visited.length) → j < s.selected → visited[j] < n
  left : ∀ j, (h : j < visited.length) → s.selected ≤ j → n ≤ visited[j]
  next : (h : s.selected < visited.length) → s.selectedAt = visited[s.selected]
  mem_eq : s.mem = routed n (fun i => (updateSource visited i).adjoint baseAdj rhsAdj) outAdj mem

/-- One round of the ordered loop. -/
lemma Walked.step {p : DynamicIndexSpec} {rt : Runtime V} {visited : List ℕ}
    (hpositions : selectedPositions p rt = ⟨(), visited, none⟩) (hinc : visited.Pairwise (· < ·))
    {baseAdj rhsAdj : Option ℕ} {outAdj mem : ℕ → A} {n : ℕ} {s : Ordered A}
    (h : Walked visited baseAdj rhsAdj outAdj mem n s) :
    ∃ s', orderedStep p rt baseAdj rhsAdj outAdj s n = .ok s' ∧
      Walked visited baseAdj rhsAdj outAdj mem (n + 1) s' := by
  obtain ⟨hlen, hposition⟩ := selectedPosition_of_log hpositions
  have hgrow := List.pairwise_iff_getElem.1 hinc
  rw [orderedStep, ← hlen]
  by_cases hsel : s.selected < visited.length ∧ (n : ℤ) = s.selectedAt
  · obtain ⟨hlt, hat⟩ := hsel
    have hn : visited[s.selected] = n := by
      have := h.next hlt
      omega
    have hsource : updateSource visited n = .rhs s.selected := by
      have hnodup : visited.Nodup := hinc.imp fun hlt => Nat.ne_of_lt hlt
      rw [updateSource, lastIndex_of_nodup hnodup
        (List.getElem?_eq_some_iff.2 ⟨hlt, hn⟩)]
      rfl
    have hmem : addTo s.mem (cellOf rhsAdj s.selected) (outAdj n) =
        routed (n + 1) (fun i => (updateSource visited i).adjoint baseAdj rhsAdj) outAdj mem := by
      rw [routed_succ, ← h.mem_eq, hsource]
      rfl
    have hmet : ∀ j, (hj : j < visited.length) → j < s.selected + 1 → visited[j] < n + 1 := by
      intro j hj hjs
      rcases Nat.lt_succ_iff_lt_or_eq.1 hjs with hlow | rfl
      · exact Nat.lt_succ_of_lt (h.met j hj hlow)
      · omega
    have hleft : ∀ j, (hj : j < visited.length) → s.selected + 1 ≤ j → n + 1 ≤ visited[j] := by
      intro j hj hjs
      have := hgrow s.selected j hlt hj hjs
      omega
    rw [if_pos ⟨hlt, hat⟩]
    by_cases hmore : s.selected + 1 < visited.length
    · rw [if_pos hmore, hposition _ hmore]
      exact ⟨_, rfl, hlt, hmet, hleft, fun _ => rfl, hmem⟩
    · rw [if_neg hmore]
      exact ⟨_, rfl, hlt, hmet, hleft, fun h => absurd h hmore, hmem⟩
  · rw [if_neg hsel]
    have hnone : ∀ j, (hj : j < visited.length) → visited[j] ≠ n := by
      intro j hj hjn
      rcases Nat.lt_trichotomy j s.selected with hlow | rfl | hhigh
      · have := h.met j hj hlow
        omega
      · exact hsel ⟨hj, by rw [h.next hj, hjn]⟩
      · have hlt : s.selected < visited.length := by omega
        have hge := h.left s.selected hlt (Nat.le_refl _)
        have := hgrow s.selected j hlt hj hhigh
        omega
    have hsource : updateSource visited n = .base n := by
      have hnot : n ∉ visited := by
        intro hmem
        obtain ⟨j, hj, hjn⟩ := List.getElem_of_mem hmem
        exact hnone j hj hjn
      rw [updateSource, lastIndex_eq_none_iff.2 hnot]
      rfl
    refine ⟨_, rfl, h.le, fun j hj hjs => Nat.lt_succ_of_lt (h.met j hj hjs), fun j hj hjs => ?_,
      h.next, ?_⟩
    · have hge := h.left j hj hjs
      have hne := hnone j hj
      omega
    · rw [routed_succ, ← h.mem_eq, hsource]
      rfl

/-- The ordered loop, up to a cell. -/
lemma Walked.run {p : DynamicIndexSpec} {rt : Runtime V} {visited : List ℕ}
    (hpositions : selectedPositions p rt = ⟨(), visited, none⟩) (hinc : visited.Pairwise (· < ·))
    {baseAdj rhsAdj : Option ℕ} {outAdj mem : ℕ → A} {s : Ordered A}
    (h : Walked visited baseAdj rhsAdj outAdj mem 0 s) (n : ℕ) :
    ∃ s', (List.range n).foldlM (orderedStep p rt baseAdj rhsAdj outAdj) s = .ok s' ∧
      Walked visited baseAdj rhsAdj outAdj mem n s' := by
  induction n with
  | zero => exact ⟨s, rfl, h⟩
  | succ n ih =>
    obtain ⟨s₁, hrun, h₁⟩ := ih
    obtain ⟨s₂, hstep, h₂⟩ := h₁.step hpositions hinc
    refine ⟨s₂, ?_, h₂⟩
    rw [List.range_succ, List.foldlM_append, hrun, ok_bind, List.foldlM_cons, hstep, ok_bind]
    rfl

/-- The ordered backward sends each output adjoint to its source. -/
lemma orderedBackward_eq {p : DynamicIndexSpec} {c : Ctx V} {visited : List ℕ}
    (h : indexPositions p c true = ⟨(), visited, none⟩) (hp : selectionIsOrderedUnique p = true)
    (baseAdj rhsAdj : Option ℕ) (outAdj mem : ℕ → A) :
    orderedBackward p c baseAdj rhsAdj outAdj mem = .ok (routed c.outLen
      (fun i => (updateSource visited i).adjoint baseAdj rhsAdj) outAdj mem) := by
  obtain ⟨rt, hrt, hpositions⟩ := validated_of_visits h
  have hv := validateIndex_eq_ok hrt
  obtain ⟨hlen, hposition⟩ := selectedPosition_of_log hpositions
  obtain ⟨hf, hvisited⟩ := hv.visited_eq hpositions
  have hinc : visited.Pairwise (· < ·) := by
    rw [hvisited]
    exact hv.pairwise_positions hf hp
  have hinside : ∀ j, (hj : j < visited.length) → visited[j] < c.outLen := by
    intro j hj
    rw [hv.base rfl]
    apply hv.position_lt hf
    rw [← hvisited]
    exact List.getElem_mem hj
  have hstart : ∃ selectedAt : ℤ,
      firstSelected p rt = .ok selectedAt ∧
        Walked visited baseAdj rhsAdj outAdj mem 0 ⟨0, selectedAt, mem⟩ := by
    rw [firstSelected]
    by_cases h0 : 0 < visited.length
    · rw [if_pos (by omega), hposition 0 h0]
      exact ⟨_, rfl, Nat.zero_le _, fun j _ hj => absurd hj (Nat.not_lt_zero j),
        fun _ _ _ => Nat.zero_le _, fun _ => rfl, rfl⟩
    · rw [if_neg (by omega)]
      exact ⟨_, rfl, Nat.zero_le _, fun j _ hj => absurd hj (Nat.not_lt_zero j),
        fun _ _ _ => Nat.zero_le _, fun hlt => absurd hlt h0, rfl⟩
  obtain ⟨selectedAt, hat, hwalked⟩ := hstart
  obtain ⟨s, hrun, hs⟩ := hwalked.run hpositions hinc c.outLen
  have hall : s.selected = rt.selected := by
    by_contra hne
    have hlt : s.selected < visited.length := Nat.lt_of_le_of_ne hs.le (by rwa [hlen])
    exact absurd (hinside _ hlt) (not_lt.2 (hs.left _ hlt (Nat.le_refl _)))
  rw [orderedBackward, hrt, ok_bind, hat, ok_bind, hrun, ok_bind, throwIf_of_not (not_not.2 hall),
    ok_bind, hs.mem_eq]
  rfl

/-- The backward of an update sends each output adjoint to its source: the entry written last, or the
cell of the base. -/
theorem setIndexBackward_eq {p : DynamicIndexSpec} {c : Ctx V} {visited : List ℕ} {scratch : List ℤ}
    (h : indexPositions p c true = ⟨(), visited, none⟩)
    (hscratch : selectionIsOrderedUnique p = false → scratch = updateScratch c visited)
    (baseAdj rhsAdj : Option ℕ) (outAdj mem : ℕ → A) :
    setIndexBackward p c scratch baseAdj rhsAdj outAdj mem = .ok (routed c.outLen
      (fun i => (updateSource visited i).adjoint baseAdj rhsAdj) outAdj mem) := by
  obtain ⟨rt, hrt, hpositions⟩ := validated_of_visits h
  have hv := validateIndex_eq_ok hrt
  obtain ⟨layout, hlayout, hins⟩ := validateIndex_layout hrt
  rw [setIndexBackward, requireIndexInputLayout_eq_ok.2 hlayout, ok_bind,
    throwIf_of_not (not_not.2 hins), ok_bind]
  cases hp : selectionIsOrderedUnique p with
  | true =>
    rw [if_pos rfl]
    exact orderedBackward_eq h hp baseAdj rhsAdj outAdj mem
  | false =>
    rw [if_neg (by decide), hscratch hp, ← foldl_addTo_range]
    congr 1
    apply List.foldl_ext
    intro mem i hi
    rw [List.mem_range, hv.base rfl] at hi
    have hentry : (updateScratch c visited).getD i 0 = (lastIndex visited i).elim (-1) Int.ofNat := by
      rw [updateScratch, List.getD_eq_getElem?_getD, List.getElem?_map, List.getElem?_range hi]
      rfl
    rw [scratchStep, updateSource, hentry]
    cases lastIndex visited i with
    | none => rfl
    | some j => exact if_neg (not_lt.2 (Int.natCast_nonneg j))

end Backward

end DynamicIndex

end Stanli
