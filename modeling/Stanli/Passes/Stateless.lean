import Stanli.Passes.ConstFoldSound
import Stanli.Passes.InplaceShape

/-!
# Repeated evaluation after folding

Folding turns a slot an op writes into one that is filled when the executor is bound.  If a surviving op
still writes the slot, what it writes is there for the next evaluation, and an op that reads the slot
before it is written again sees it.  `mark_constant_ops` refuses to fold behind ops that update the slot
in place; it takes ops that overwrite it to be safe.  When each folded slot is overwritten before it is
read, the folded graph is `SelfContained`, and no evaluation sees an earlier one; otherwise an op reads
what the evaluation before has left (`constFold_leftover`).
-/

namespace Stanli

variable {U V S W : Type*}

/-- The ops that are not folded. -/
def survivingOps (g : Graph U) (marks : List Bool) : List (Op U) := applyMask (marks.map not) g.ops

/-- A surviving op that reads a folded slot comes after a surviving op that writes it, if there is one at
all. -/
def OverwrittenFirst (g : Graph U) (marks : List Bool) : Prop :=
  ∀ (n s : ℕ) (op : Op U), FoldedSlot g marks s → (survivingOps g marks)[n]? = some op → s ∈ op.ins →
    ∀ j, Writes (survivingOps g marks) s j → ∃ i < n, Writes (survivingOps g marks) s i

/-- The surviving ops may be in evaluation order for all slots. -/
lemma OverwrittenFirst.of_evalOrder {g : Graph U} {marks : List Bool}
    (h : EvalOrder (survivingOps g marks)) : OverwrittenFirst g marks :=
  fun _ _ _ _ hop hs _ hw => h.writes_lt hop hs hw

section Fold

variable {K : Kernels U V S W} {g : Graph U} {marks : List Bool}

lemma getElem?_map_not {i : ℕ} : (marks.map not)[i]? = some true ↔ marks[i]? = some false := by
  rw [List.getElem?_map]
  cases marks[i]? with
  | none => simp
  | some b => cases b <;> simp

lemma mem_ops_of_survives {op : Op U} (hop : op ∈ survivingOps g marks) : op ∈ g.ops := by
  obtain ⟨i, hi, -⟩ := mem_applyMask.1 hop
  exact List.mem_of_getElem? hi

/-- Folding keeps a graph self-contained when each folded slot is overwritten first. -/
lemma SelfContained.fold (hg : SelfContained g) (hm : ConstMarks K g marks)
    (hfirst : OverwrittenFirst g marks) : SelfContained { g with ops := survivingOps g marks } := by
  refine ⟨fun n s op hop hs j hw => ?_, fun op hop => hg.inplace op (mem_ops_of_survives hop),
    fun op hop => hg.load_len op (mem_ops_of_survives hop),
    fun op hop => hg.inBounds op (mem_ops_of_survives hop),
    fun op hop => hg.noPrimal op (mem_ops_of_survives hop)⟩
  by_cases hf : FoldedSlot g marks s
  · exact hfirst n s op hf hop hs j hw
  · -- no folded op writes the slot, so the op that wrote it before still does
    obtain ⟨i, hi, -, hbefore⟩ := getElem?_applyMask hop
    obtain ⟨o, ho, hso⟩ := hw
    obtain ⟨k, hk, -⟩ := mem_applyMask.1 (List.mem_of_getElem? ho)
    obtain ⟨l, hl, o', ho', hso'⟩ := hg.order i s op hi hs k ⟨o, hk, hso⟩
    have hcl : marks[l]? = some false :=
      (hm.isConst_lt ho').resolve_left fun hc => hf ⟨l, o', ho', hc, hso'⟩
    obtain ⟨m, hmn, hm⟩ := hbefore l o' hl ho' (getElem?_map_not.2 hcl)
    exact ⟨m, hmn, o', hm, hso'⟩

/-- The surviving ops, where a folded slot is read before it is overwritten. -/
lemma leftover_of_not_overwrittenFirst [AddCommMonoid V] {fills : Fills V} (hg : SelfContained g)
    (hm : ConstMarks K g marks)
    (hbase : ∀ op ∈ g.ops, op.opcode.isInplaceStore = true → op.out = op.input 0)
    (hnot : ¬ OverwrittenFirst g marks)
    (hsame : Graph.Stateless K { g with ops := survivingOps g marks } fills) :
    ∃ (n s j : ℕ) (op : Op U), FoldedSlot g marks s ∧ (survivingOps g marks)[n]? = some op ∧
      s ∈ op.ins ∧ n ≤ j ∧ Writes (survivingOps g marks) s j ∧
      let g' : Graph U := { g with ops := survivingOps g marks }
      ∀ θ w k, n < (g'.forward K (g'.arena fills (θ k)) (g'.session K fills θ w k).2).log.length →
        g'.bind.read (g'.setParams (θ k) (g'.session K fills θ w k).1) s =
          g'.bind.read (g'.arena fills (θ k)) s := by
  simp only [OverwrittenFirst, not_forall, not_exists, not_and] at hnot
  obtain ⟨n, s, op, hf, hop, hs, j, hw, hfirst⟩ := hnot
  obtain ⟨k, hk⟩ := List.mem_iff_getElem?.1 hs
  obtain ⟨i, hi, hci, -⟩ := getElem?_applyMask hop
  obtain ⟨i', o, ho, hco, hso⟩ := hf
  refine ⟨n, s, j, op, ⟨i', o, ho, hco, hso⟩, hop, hs, Nat.le_of_not_lt fun hj => hfirst j hj hw, hw,
    fun θ w l hreach => ?_⟩
  refine hsame.leftover (fun op hop => hg.noPrimal op (mem_ops_of_survives hop)) hop hk ?_ hfirst θ w l
    hreach
  -- a surviving store in place does not update a folded slot
  rintro hip rfl
  have hout : s = op.out := by
    rw [hbase op (List.mem_of_getElem? hi) hip, Op.input, List.getD_eq_getElem?_getD, hk, Option.getD_some]
  exact (hm.reads i op i' o s hi (getElem?_map_not.1 hci) hs ho hco hso).2 hout

end Fold

/-- `const_fold` leaves the graph as it is when the constant ops throw, and else the surviving ops. -/
lemma constFold_graph_cases [Zero V] (K : Kernels U V S W) (w₀ : W) (g : Graph U) (fills : Fills V)
    (roots : List ℕ) :
    (runConstants K w₀ g (markConstantOps K g) fills = none ∧
      (constFold K w₀ g fills roots).graph = g) ∨
    (runConstants K w₀ g (markConstantOps K g) fills ≠ none ∧
      (constFold K w₀ g fills roots).graph =
        { g with ops := survivingOps g (markConstantOps K g) }) := by
  have hlen := (markConstantOps_marks K g).length
  unfold constFold
  cases hrun : runConstants K w₀ g (markConstantOps K g) fills with
  | none => exact .inl ⟨rfl, by simp only [hrun, ite_self]⟩
  | some m =>
    refine .inr ⟨Option.some_ne_none m, ?_⟩
    by_cases hall : (markConstantOps K g).all not = true
    · -- nothing is constant, and all ops survive
      have hmap : (markConstantOps K g).map not = List.replicate g.ops.length true := by
        refine List.eq_replicate_iff.2 ⟨by rw [List.length_map, hlen], fun b hb => ?_⟩
        obtain ⟨c, hc, rfl⟩ := List.mem_map.1 hb
        exact List.all_eq_true.1 hall c hc
      simp only [hall, if_true, survivingOps, hmap, applyMask_replicate_true]
    · simp only [hall, hrun, Bool.false_eq_true, if_false]
      rfl

section Evaluations

variable [AddCommMonoid V] (K : Kernels U V S W) (w₀ : W) (g : Graph U) (roots : List ℕ)
  (hg : OwnedGraph g roots) (fills : Fills V)

include hg

/-- Repeated evaluation is stateless after `make_inplace_updates` and `const_fold`, when the folding does
not go through or each folded slot is overwritten before it is read. -/
theorem constFold_stateless
    (hfirst : runConstants K w₀ (makeInplaceUpdates g roots).1
        (markConstantOps K (makeInplaceUpdates g roots).1) fills ≠ none →
      OverwrittenFirst (makeInplaceUpdates g roots).1
        (markConstantOps K (makeInplaceUpdates g roots).1)) :
    (constFold K w₀ (makeInplaceUpdates g roots).1 fills roots).graph.Stateless K
      (constFold K w₀ (makeInplaceUpdates g roots).1 fills roots).fills := by
  refine SelfContained.stateless ?_ _
  rcases constFold_graph_cases K w₀ (makeInplaceUpdates g roots).1 fills roots with
    ⟨-, hgraph⟩ | ⟨hrun, hgraph⟩
  · rw [hgraph]
    exact hg.selfContained
  · rw [hgraph]
    exact hg.selfContained.fold (markConstantOps_marks K _) (hfirst hrun)

/-- Where a folded slot is read before it is overwritten, the op finds in it what the evaluation before
has left: no evaluation can be told from a fresh one only if that is the folded value again. -/
theorem constFold_leftover
    (hrun : runConstants K w₀ (makeInplaceUpdates g roots).1
      (markConstantOps K (makeInplaceUpdates g roots).1) fills ≠ none)
    (hnot : ¬ OverwrittenFirst (makeInplaceUpdates g roots).1
      (markConstantOps K (makeInplaceUpdates g roots).1))
    (hsame : (constFold K w₀ (makeInplaceUpdates g roots).1 fills roots).graph.Stateless K
      (constFold K w₀ (makeInplaceUpdates g roots).1 fills roots).fills) :
    let F := constFold K w₀ (makeInplaceUpdates g roots).1 fills roots
    ∃ (n s j : ℕ) (op : Op U), F.graph.ops[n]? = some op ∧ s ∈ op.ins ∧ n ≤ j ∧
      Writes F.graph.ops s j ∧ ∀ θ w k,
        n < (F.graph.forward K (F.graph.arena F.fills (θ k))
          (F.graph.session K F.fills θ w k).2).log.length →
        F.graph.bind.read (F.graph.setParams (θ k) (F.graph.session K F.fills θ w k).1) s =
          F.graph.bind.read (F.graph.arena F.fills (θ k)) s := by
  rcases constFold_graph_cases K w₀ (makeInplaceUpdates g roots).1 fills roots with
    ⟨hnone, -⟩ | ⟨-, hgraph⟩
  · exact absurd hnone hrun
  · simp only [hgraph] at hsame ⊢
    obtain ⟨n, s, j, op, -, hleft⟩ := leftover_of_not_overwrittenFirst hg.selfContained
      (markConstantOps_marks K _) (fun op => hg.inplace_base) hnot hsame
    exact ⟨n, s, j, op, hleft⟩

end Evaluations

/-! ## An overwritten constant -/

/-- Kernels of three scalar ops: negation, addition, and the square for every other op. -/
def scalarKernels : Kernels Unit ℤ Unit Unit where
  registered _ := true
  makesState _ := false
  islandHasEffect _ := false
  forward call _ _ ins :=
    let x := (ins.getD 0 []).getD 0 0
    let y := (ins.getD 1 []).getD 0 0
    let v := if call.opcode = .neg then -x else if call.opcode = .add then x + y else x * x
    .ok ⟨fun _ => v, fun _ => 0, ()⟩
  effect _ _ _ _ _ := .error "no effects"
  backward _ _ _ _ _ _ _ _ _ _ := 0
  backward_valueFree _ _ _ _ _ _ _ _ _ _ _ _ _ _ _ := rfl

/-- A constant in a slot that is overwritten before it is read, and once more behind; a store that is
rewritten in place reads it. -/
def refreshedConstantGraph : Graph Unit where
  slots := [⟨1, false⟩, ⟨1, true⟩, ⟨1, false⟩, ⟨2, false⟩, ⟨2, false⟩, ⟨1, false⟩]
  ops :=
    [{ opcode := .neg, out := 2, ins := [0] },
     { opcode := .square, out := 2, ins := [1] },
     { opcode := .add, out := 3, ins := [2, 1] },
     { opcode := .setIndex, out := 4, ins := [3, 2], idata := [0] },
     { opcode := .square, out := 2, ins := [1] },
     { opcode := .add, out := 5, ins := [4, 2] }]
  resultSlot := some 5

/-- The constant is folded, and every evaluation reads the square. -/
theorem refreshedConstantGraph_stateless :
    (constFold scalarKernels () (makeInplaceUpdates refreshedConstantGraph []).1 [(0, [5])] []).opsRemoved =
      1 ∧
    (constFold scalarKernels () (makeInplaceUpdates refreshedConstantGraph []).1 [(0, [5])]
      []).graph.Stateless scalarKernels
        (constFold scalarKernels () (makeInplaceUpdates refreshedConstantGraph []).1 [(0, [5])]
          []).fills :=
  ⟨by decide, constFold_stateless scalarKernels () refreshedConstantGraph []
    (.of_fresh ⟨by decide, by decide, by decide, by decide⟩ (by decide)) [(0, [5])]
    fun _ => .of_evalOrder (by decide)⟩

/-- A constant in a slot that is read, and then overwritten by an op of a parameter. -/
def overwrittenConstantGraph : Graph Unit where
  slots := [⟨1, false⟩, ⟨1, true⟩, ⟨1, false⟩, ⟨1, false⟩, ⟨1, false⟩]
  ops :=
    [{ opcode := .neg, out := 2, ins := [0] },
     { opcode := .add, out := 3, ins := [2, 1] },
     { opcode := .square, out := 2, ins := [1] },
     { opcode := .add, out := 4, ins := [3, 2] }]
  resultSlot := some 4

/-- No op updates its input, and yet the second evaluation reads what the first one wrote. -/
theorem overwrittenConstantGraph_not_stateless :
    EvalOrder overwrittenConstantGraph.ops ∧
    (∀ op ∈ overwrittenConstantGraph.ops, op.out ∉ op.ins) ∧
    ¬ (constFold scalarKernels () (makeInplaceUpdates overwrittenConstantGraph []).1 [(0, [5])]
      []).graph.Stateless scalarKernels
        (constFold scalarKernels () (makeInplaceUpdates overwrittenConstantGraph []).1 [(0, [5])]
          []).fills := by
  refine ⟨by decide, by decide, fun h => ?_⟩
  have hread := (h (fun _ _ _ => 3) () 1).read_eq (by decide) 4
  revert hread
  decide

end Stanli
