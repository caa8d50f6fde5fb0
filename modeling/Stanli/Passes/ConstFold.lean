import Stanli.Graph.Evaluate
import Stanli.Lib.Scan

/-!
# Constant folding over the op graph

`const_fold` of `constfold.cpp`.  It finds the ops no parameter reaches, runs them once in an executor
over a sub-graph of their own, and replaces them by fills.

Folding replaces a slot by its final value, so `mark_constant_ops` refuses the slots that a surviving
op reads before a constant op overwrites them, and those a surviving read-modify-write op updates; each
refusal makes more ops survive, and the rounds go on until nothing changes.
-/

namespace Stanli

variable {U V S W : Type*}

/-! ## Marking -/

/-- An op is constant: it has inputs, no effect, and neither touches a slot that carries a
parameter's influence nor writes a refused slot. -/
def constOp (K : Kernels U V S W) (noFold live : ℕ → Bool) (op : Op U) : Bool :=
  !op.ins.isEmpty && !K.hasEffect op.call && op.ins.all (fun s => !live s) &&
    op.outs.all fun s => !noFold s

/-- The slots that carry a parameter's influence after an op. -/
def liveAfter (isConst : Bool) (op : Op U) (live : ℕ → Bool) : ℕ → Bool :=
  if isConst then live else fun s => live s || decide (s ∈ op.outs)

/-- One pass over the ops: which of them are constant. -/
def classify (K : Kernels U V S W) (noFold : ℕ → Bool) : (ℕ → Bool) → List (Op U) → List Bool
  | _, [] => []
  | live, op :: ops =>
    let c := constOp K noFold live op
    c :: classify K noFold (liveAfter c op live) ops

/-- The last constant op that writes each slot, or `-1`. -/
def lastWrites (ops : List (Op U)) (isConst : List Bool) : ℕ → ℤ :=
  lastPositions (fun p s => p.2 && decide (s ∈ p.1.outs)) (ops.zip isConst)

/-- The slots a pass refuses: a surviving op reads them before a constant op overwrites them, or
updates them in place. -/
def refused (ops : List (Op U)) (isConst : List Bool) (noFold : ℕ → Bool) : List ℕ :=
  let lastWrite := lastWrites ops isConst
  (ops.zip isConst).zipIdx.flatMap fun p =>
    if p.1.2 then [] else p.1.1.ins.filter fun s =>
      !noFold s && (decide ((p.2 : ℤ) < lastWrite s) || decide (s = p.1.1.out ∧ 0 ≤ lastWrite s))

/-- The rounds of `mark_constant_ops`. -/
def markRounds (K : Kernels U V S W) (g : Graph U) : ℕ → (ℕ → Bool) → List Bool
  | 0, noFold => classify K noFold g.isParam g.ops
  | fuel + 1, noFold =>
    let isConst := classify K noFold g.isParam g.ops
    let new := refused g.ops isConst noFold
    if new.isEmpty then isConst
    else markRounds K g fuel fun s => noFold s || decide (s ∈ new)

/-- `mark_constant_ops`.  A round that changes something refuses a slot some op reads, so there are
at most as many as there are inputs. -/
def markConstantOps (K : Kernels U V S W) (g : Graph U) : List Bool :=
  markRounds K g (g.ops.flatMap Op.ins).length fun _ => false

/-! ## Folding -/

/-- The folded ops. -/
def foldedOps (g : Graph U) (isConst : List Bool) : List (Op U) := applyMask isConst g.ops

/-- The slots the folded ops touch, in the order the sub-graph numbers them. -/
def touchedSlots (g : Graph U) (isConst : List Bool) : List ℕ :=
  ((foldedOps g isConst).flatMap fun op => op.ins ++ op.outs).eraseDups

/-- The sub-graph of the folded ops. -/
def constGraph (g : Graph U) (isConst : List Bool) : Graph U :=
  let touched := touchedSlots g isConst
  { slots := touched.map fun s => ⟨g.len s, false⟩
    ops := (foldedOps g isConst).map (Op.rename fun s => touched.idxOf s)
    resultSlot := some 0 }

/-- The fills of the sub-graph. -/
def constFills (g : Graph U) (isConst : List Bool) (fills : Fills V) : Fills V :=
  let touched := touchedSlots g isConst
  (fills.filter fun f => decide (f.1 ∈ touched)).map fun f => (touched.idxOf f.1, f.2)

/-- Bind and run the sub-graph: the values it leaves, or `none` where binding or a kernel throws.
`w₀` is the state a sweep without one runs in. -/
def runConstants [Zero V] (K : Kernels U V S W) (w₀ : W) (g : Graph U) (isConst : List Bool)
    (fills : Fills V) : Option (Arena V) :=
  let sub := constGraph g isConst
  if sub.ops.all fun op => K.registered op.opcode then
    let r := sub.forward K (sub.arena (constFills g isConst fills) fun _ _ => 0) w₀
    match r.error with
    | some _ => none
    | none => some fun s => r.state.mem ((touchedSlots g isConst).idxOf s)
  else none

/-- A surviving op, a root or the result reads the slot. -/
def foldNeeds (g : Graph U) (isConst : List Bool) (roots : List ℕ) (s : ℕ) : Bool :=
  decide (s ∈ roots) || decide (s ∈ (applyMask (isConst.map not) g.ops).flatMap Op.ins) ||
    decide (g.resultSlot = some s)

/-- The fills that replace the folded ops. -/
def newFills (g : Graph U) (isConst : List Bool) (roots : List ℕ) (m : Arena V) : Fills V :=
  (((foldedOps g isConst).flatMap Op.outs).eraseDups.filter (foldNeeds g isConst roots)).map fun s =>
    (s, (List.range (g.len s)).map (m s))

/-- The fills after folding: a computed value supersedes the fill a slot had. -/
def foldedFills (fills new : Fills V) : Fills V :=
  (fills.filter fun f => !decide (f.1 ∈ new.map Prod.fst)) ++ new

/-- What `const_fold` leaves: the graph and its fills, and the counts of `ConstFoldStats`. -/
structure ConstFold (U V : Type*) where
  graph : Graph U
  fills : Fills V
  opsRemoved : ℕ
  slotsFolded : ℕ

/-- `const_fold`. -/
def constFold [Zero V] (K : Kernels U V S W) (w₀ : W) (g : Graph U) (fills : Fills V)
    (roots : List ℕ) : ConstFold U V :=
  let isConst := markConstantOps K g
  if isConst.all not then ⟨g, fills, 0, 0⟩
  else
    match runConstants K w₀ g isConst fills with
    | none => ⟨g, fills, 0, 0⟩
    | some m =>
      let new := newFills g isConst roots m
      { graph := { g with ops := applyMask (isConst.map not) g.ops }
        fills := foldedFills fills new
        opsRemoved := (foldedOps g isConst).length
        slotsFolded := new.length }

/-! ## What the marks say -/

/-- The marks `isConst` of the ops are consistent: a constant op reads nothing that a parameter or a
surviving op before it has written, and a surviving op reads a slot only after the last constant op
that writes it, and never writes it itself. -/
structure ConstMarks (K : Kernels U V S W) (g : Graph U) (isConst : List Bool) : Prop where
  length : isConst.length = g.ops.length
  const : ∀ (i : ℕ) (op : Op U), g.ops[i]? = some op → isConst[i]? = some true →
    op.ins ≠ [] ∧ K.hasEffect op.call = false ∧ ∀ s ∈ op.ins, g.isParam s = false ∧
      ∀ (j : ℕ) (o : Op U), j < i → g.ops[j]? = some o → isConst[j]? = some false → s ∉ o.outs
  reads : ∀ (i : ℕ) (op : Op U) (j : ℕ) (o : Op U) (s : ℕ), g.ops[i]? = some op → isConst[i]? = some false → s ∈ op.ins →
    g.ops[j]? = some o → isConst[j]? = some true → s ∈ o.outs → j < i ∧ s ≠ op.out

section Marks

variable {K : Kernels U V S W} {noFold live : ℕ → Bool} {ops : List (Op U)}

lemma classify_length : (classify K noFold live ops).length = ops.length := by
  induction ops generalizing live with
  | nil => rfl
  | cons op ops ih => simp [classify, ih]

/-- What a pass has checked of a constant op. -/
lemma classify_const {i : ℕ} {op : Op U} (hop : ops[i]? = some op)
    (hc : (classify K noFold live ops)[i]? = some true) :
    op.ins ≠ [] ∧ K.hasEffect op.call = false ∧ (∀ s ∈ op.outs, noFold s = false) ∧
      ∀ s ∈ op.ins, live s = false ∧ ∀ j o, j < i → ops[j]? = some o →
        (classify K noFold live ops)[j]? = some false → s ∉ o.outs := by
  induction ops generalizing i live with
  | nil => simp at hop
  | cons o ops ih =>
    cases i with
    | zero =>
      obtain rfl : o = op := by simpa using hop
      have hc' : constOp K noFold live o = true := by simpa [classify] using hc
      simp only [constOp, Bool.and_eq_true, Bool.not_eq_true', List.isEmpty_eq_false_iff,
        List.all_eq_true] at hc'
      obtain ⟨⟨⟨hne, heff⟩, hin⟩, hout⟩ := hc'
      exact ⟨hne, heff, hout, fun s hs => ⟨hin s hs, fun j o hj => absurd hj (by omega)⟩⟩
    | succ i =>
      obtain ⟨hne, heff, hout, hin⟩ := ih (by simpa using hop) (by simpa [classify] using hc)
      refine ⟨hne, heff, hout, fun s hs => ?_⟩
      obtain ⟨hl, hj⟩ := hin s hs
      have hlive : live s = false ∧ (constOp K noFold live o = false → s ∉ o.outs) := by
        unfold liveAfter at hl
        by_cases hco : constOp K noFold live o = true
        · rw [if_pos hco] at hl
          exact ⟨hl, fun h => absurd h (by simp [hco])⟩
        · rw [if_neg hco] at hl
          simp only [Bool.or_eq_false_iff, decide_eq_false_iff_not] at hl
          exact ⟨hl.1, fun _ => hl.2⟩
      refine ⟨hlive.1, fun j o' hji ho' hc' => ?_⟩
      cases j with
      | zero =>
        obtain rfl : o = o' := by simpa using ho'
        exact hlive.2 (by simpa [classify] using hc')
      | succ j => exact hj j o' (by omega) (by simpa using ho') (by simpa [classify] using hc')

/-- A pass that refuses nothing leaves consistent marks. -/
lemma constMarks_of_refused {g : Graph U}
    (h : refused g.ops (classify K noFold g.isParam g.ops) noFold = []) :
    ConstMarks K g (classify K noFold g.isParam g.ops) := by
  set c := classify K noFold g.isParam g.ops with hc
  refine ⟨classify_length, fun i op hop hci => ?_, fun i op j o s hop hci hs ho hcj hso => ?_⟩
  · obtain ⟨h1, h2, -, h4⟩ := classify_const hop hci
    exact ⟨h1, h2, h4⟩
  · obtain ⟨-, -, hnf, -⟩ := classify_const ho hcj
    have hzip : (g.ops.zip c)[i]? = some (op, false) := by
      rw [List.getElem?_zip_eq_some]
      exact ⟨hop, hci⟩
    have hzipj : (g.ops.zip c)[j]? = some (o, true) := by
      rw [List.getElem?_zip_eq_some]
      exact ⟨ho, hcj⟩
    have hlast : (j : ℤ) ≤ lastWrites g.ops c s := le_lastPositions hzipj (by simp [hso])
    have hnot : s ∉ refused g.ops c noFold := by
      rw [h]
      simp
    simp only [refused, List.mem_flatMap, not_exists, not_and] at hnot
    have := hnot ((op, false), i) (List.mem_zipIdx_iff_getElem?.2 hzip)
    simp only [Bool.false_eq_true, if_false, List.mem_filter, hs, true_and, hnf s hso,
      Bool.not_false, Bool.true_and] at this
    have h1 : ¬ (i : ℤ) < lastWrites g.ops c s := fun h1 =>
      this (Bool.or_eq_true_iff.2 (.inl (decide_eq_true h1)))
    have h2 : ¬ (s = op.out ∧ 0 ≤ lastWrites g.ops c s) := fun h2 =>
      this (Bool.or_eq_true_iff.2 (.inr (decide_eq_true h2)))
    have hne : j ≠ i := by
      rintro rfl
      rw [hci] at hcj
      cases hcj
    exact ⟨by omega, fun heq => h2 ⟨heq, by omega⟩⟩

/-- Refused slots are inputs that were not refused before. -/
lemma mem_refused {isConst : List Bool} {s : ℕ} (h : s ∈ refused ops isConst noFold) :
    s ∈ ops.flatMap Op.ins ∧ noFold s = false := by
  simp only [refused, List.mem_flatMap] at h
  obtain ⟨⟨⟨op, c⟩, i⟩, hp, hs⟩ := h
  have hop := (List.getElem?_zip_eq_some.1 (List.mem_zipIdx_iff_getElem?.1 hp)).1
  by_cases hc : c = true
  · simp [hc] at hs
  · simp only [hc, Bool.false_eq_true, if_false, List.mem_filter, Bool.and_eq_true,
      Bool.not_eq_true'] at hs
    exact ⟨List.mem_flatMap.2 ⟨op, List.mem_of_getElem? hop, hs.1⟩, hs.2.1⟩

/-- `mark_constant_ops` reaches a pass that refuses nothing. -/
lemma markRounds_marks {g : Graph U} {fuel : ℕ}
    (h : (g.ops.flatMap Op.ins).countP (fun s => !noFold s) ≤ fuel) :
    ConstMarks K g (markRounds K g fuel noFold) := by
  have hlt : ∀ noFold, refused g.ops (classify K noFold g.isParam g.ops) noFold ≠ [] →
      (g.ops.flatMap Op.ins).countP (fun s => !(noFold s ||
        decide (s ∈ refused g.ops (classify K noFold g.isParam g.ops) noFold))) <
      (g.ops.flatMap Op.ins).countP fun s => !noFold s := by
    intro noFold hne
    obtain ⟨s, hs⟩ := List.exists_mem_of_ne_nil _ hne
    obtain ⟨hin, hnf⟩ := mem_refused hs
    refine countP_lt_of_forall (fun a ha => ?_) ⟨s, hin, by simp [hnf], by simp [hs]⟩
    simp only [Bool.not_eq_true', Bool.or_eq_false_iff] at ha ⊢
    exact ha.1
  induction fuel generalizing noFold with
  | zero =>
    refine constMarks_of_refused ?_
    by_contra hne
    have := hlt noFold hne
    omega
  | succ fuel ih =>
    unfold markRounds
    by_cases hne : (refused g.ops (classify K noFold g.isParam g.ops) noFold).isEmpty = true
    · simp only [hne, if_true]
      exact constMarks_of_refused (List.isEmpty_iff.1 hne)
    · simp only [hne, Bool.false_eq_true, if_false]
      refine ih ?_
      have := hlt noFold fun heq => hne (by simp [heq])
      omega

/-- `mark_constant_ops` leaves consistent marks. -/
lemma markConstantOps_marks (K : Kernels U V S W) (g : Graph U) :
    ConstMarks K g (markConstantOps K g) :=
  markRounds_marks List.countP_le_length

end Marks

end Stanli
