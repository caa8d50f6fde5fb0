import Mathlib.Algebra.Order.Ring.Nat
import Mathlib.Data.Finset.Card
import Mathlib.Data.Finset.Range
import Mathlib.Tactic.Common

/-!
# Must-analyses

A forward must-analysis over a control flow graph: every node has a set of facts behind it, computed
from the facts that all its predecessors agree on and the facts it adds.  The sets start full and are
recomputed node by node until a pass changes nothing (`settle`).  They only shrink, so this ends
(`Flow.solve_fixed`), and at the end every fact in front of a node has been added on every path that
leads to the node (`Flow.sound`).
-/

namespace Stanli

/-! ## Repeating until nothing changes -/

section Settle

variable {σ : Type*} [DecidableEq σ]

/-- Repeat a pass until it changes nothing. -/
def settle (f : σ → σ) : ℕ → σ → σ
  | 0, s => s
  | fuel + 1, s => if f s = s then s else settle f fuel (f s)

/-- What every pass keeps holds at the end. -/
lemma settle_invariant {f : σ → σ} {P : σ → Prop} (hstep : ∀ s, P s → P (f s)) (fuel : ℕ) {s : σ}
    (h : P s) : P (settle f fuel s) := by
  induction fuel generalizing s with
  | zero => exact h
  | succ fuel ih =>
    rw [settle]
    split
    · exact h
    · exact ih (hstep s h)

/-- With a rank that every pass lowers unless it changes nothing, the last pass changes nothing. -/
theorem settle_fixed {f : σ → σ} {P : σ → Prop} {rank : σ → ℕ} (hstep : ∀ s, P s → P (f s))
    (hrank : ∀ s, P s → f s ≠ s → rank (f s) < rank s) {fuel : ℕ} {s : σ} (h : P s)
    (hfuel : rank s < fuel) : f (settle f fuel s) = settle f fuel s := by
  induction fuel generalizing s with
  | zero => omega
  | succ fuel ih =>
    rw [settle]
    split
    · assumption
    · rename_i hne
      have hlt := hrank s h hne
      exact ih (hstep s h) (by omega)

end Settle

/-! ## The analysis -/

/-- A graph over the nodes below `size` with the facts below `width`: those that hold at the entry
node `0`, and those that each node adds. -/
structure Flow where
  size : ℕ
  width : ℕ
  pred : ℕ → List ℕ
  entry : Finset ℕ
  gen : ℕ → Finset ℕ

namespace Flow

variable (F : Flow)

/-- The facts behind a node. -/
abbrev Facts := List (Finset ℕ)

/-- What all predecessors agree on. -/
def incoming (out : Facts) (pc : ℕ) : Finset ℕ :=
  (F.pred pc).foldl (fun bits before => bits ∩ out.getD before ∅)
    (if pc = 0 then F.entry else if (F.pred pc).isEmpty then ∅ else Finset.range F.width)

/-- Recompute one node. -/
def update (out : Facts) (pc : ℕ) : Facts := out.set pc (F.incoming out pc ∪ F.gen pc)

/-- Recompute all nodes, in order. -/
def pass (out : Facts) : Facts := (List.range F.size).foldl F.update out

/-- Every node starts with all facts. -/
def full : Facts := List.replicate F.size (Finset.range F.width)

/-- Passes until nothing changes. -/
def solve (start : Facts) : Facts := settle F.pass (F.size * F.width + 1) start

/-- A path from the entry: the nodes it has visited, and the node it is at. -/
inductive Path : List ℕ → ℕ → Prop
  | start : Path [] 0
  | step {vs : List ℕ} {pc pc' : ℕ} (h : Path vs pc) (hlt : pc < F.size) (hpred : pc ∈ F.pred pc') :
      Path (vs ++ [pc]) pc'

/-- The facts are those a pass computes from them. -/
def Fixed (out : Facts) : Prop :=
  ∀ pc < F.size, out.getD pc ∅ = F.incoming out pc ∪ F.gen pc

variable {F}

lemma mem_foldl_inter {out : Facts} {ps : List ℕ} {init : Finset ℕ} {r : ℕ} :
    r ∈ ps.foldl (fun bits before => bits ∩ out.getD before ∅) init ↔
      r ∈ init ∧ ∀ before ∈ ps, r ∈ out.getD before ∅ := by
  induction ps generalizing init with
  | nil => simp
  | cons q ps ih => simp only [List.foldl_cons, ih, Finset.mem_inter, List.forall_mem_cons, and_assoc]

/-- A fact in front of a node holds behind every predecessor. -/
lemma mem_of_mem_incoming {out : Facts} {pc before r : ℕ} (h : r ∈ F.incoming out pc)
    (hpred : before ∈ F.pred pc) : r ∈ out.getD before ∅ :=
  (mem_foldl_inter.1 h).2 before hpred

lemma mem_entry_of_mem_incoming {out : Facts} {r : ℕ} (h : r ∈ F.incoming out 0) : r ∈ F.entry := by
  have := (mem_foldl_inter.1 h).1
  rwa [if_pos rfl] at this

/-- Every fact in front of a node holds at the entry or was added on every path to the node. -/
theorem sound {out : Facts} (hfix : F.Fixed out) {vs : List ℕ} {pc r : ℕ} (hpath : F.Path vs pc)
    (h : r ∈ F.incoming out pc) : r ∈ F.entry ∨ ∃ j ∈ vs, r ∈ F.gen j := by
  induction hpath with
  | start => exact Or.inl (mem_entry_of_mem_incoming h)
  | @step vs pc pc' hpath hlt hpred ih =>
    have hout := mem_of_mem_incoming h hpred
    rw [hfix pc hlt, Finset.mem_union] at hout
    rcases hout with hout | hout
    · exact (ih hout).imp_right fun ⟨j, hj, hr⟩ => ⟨j, List.mem_append_left _ hj, hr⟩
    · exact Or.inr ⟨pc, List.mem_append_right _ (List.mem_singleton_self pc), hout⟩

/-! ## The passes end -/

/-- One set of facts is below another at every node. -/
def Below (out out' : Facts) : Prop := ∀ pc, out.getD pc ∅ ⊆ out'.getD pc ∅

lemma incoming_mono {out out' : Facts} (h : Below out out') (pc : ℕ) :
    F.incoming out pc ⊆ F.incoming out' pc := by
  intro r hr
  obtain ⟨hinit, hpred⟩ := mem_foldl_inter.1 hr
  exact mem_foldl_inter.2 ⟨hinit, fun before hb => h before (hpred before hb)⟩

lemma getD_set (out : Facts) (pc : ℕ) (bits : Finset ℕ) (k : ℕ) :
    (out.set pc bits).getD k ∅ = if k = pc ∧ k < out.length then bits else out.getD k ∅ := by
  rw [List.getD_eq_getElem?_getD, List.getD_eq_getElem?_getD, List.getElem?_set]
  by_cases hk : pc = k
  · subst hk
    by_cases hlt : pc < out.length <;> simp [hlt]
  · rw [if_neg hk, if_neg fun h => hk h.1.symm]

/-- Sets of facts that recomputing a node can only shrink. -/
structure Shrinks (F : Flow) (out : Facts) : Prop where
  length : out.length = F.size
  below : ∀ pc < F.size, F.incoming out pc ∪ F.gen pc ⊆ out.getD pc ∅

lemma Shrinks.update_below {out : Facts} (h : F.Shrinks out) {pc : ℕ} (hpc : pc < F.size) :
    Below (F.update out pc) out := by
  intro k
  rw [update, getD_set]
  split
  · rename_i hk
    obtain ⟨rfl, -⟩ := hk
    exact h.below k hpc
  · exact Finset.Subset.refl _

lemma Shrinks.update {out : Facts} (h : F.Shrinks out) {pc : ℕ} (hpc : pc < F.size) :
    F.Shrinks (F.update out pc) := by
  have hbelow := h.update_below hpc
  refine ⟨by rw [Flow.update, List.length_set, h.length], fun k hk => ?_⟩
  have hmono : F.incoming (F.update out pc) k ∪ F.gen k ⊆ F.incoming out k ∪ F.gen k :=
    Finset.union_subset_union (incoming_mono hbelow k) (Finset.Subset.refl _)
  conv_rhs => rw [Flow.update, getD_set]
  split
  · rename_i heq
    obtain ⟨rfl, -⟩ := heq
    exact hmono
  · exact hmono.trans (h.below k hk)

/-- Recomputing some of the nodes. -/
lemma Shrinks.foldl_update {out : Facts} (h : F.Shrinks out) {ks : List ℕ} (hks : ∀ k ∈ ks, k < F.size) :
    F.Shrinks (ks.foldl F.update out) ∧ Below (ks.foldl F.update out) out := by
  induction ks generalizing out with
  | nil => exact ⟨h, fun _ => Finset.Subset.refl _⟩
  | cons k ks ih =>
    have hk := hks k (List.mem_cons_self ..)
    obtain ⟨hshrinks, hbelow⟩ := ih (h.update hk) fun j hj => hks j (List.mem_cons_of_mem _ hj)
    exact ⟨hshrinks, fun j => (hbelow j).trans (h.update_below hk j)⟩

lemma Shrinks.pass {out : Facts} (h : F.Shrinks out) :
    F.Shrinks (F.pass out) ∧ Below (F.pass out) out :=
  h.foldl_update fun _ hk => List.mem_range.1 hk

/-- How many facts there are in all. -/
def count (out : Facts) : ℕ := (out.map Finset.card).sum

lemma count_le_of_below {out out' : Facts} (hlen : out.length = out'.length) (h : Below out out') :
    count out ≤ count out' ∧ (out ≠ out' → count out < count out') := by
  induction out generalizing out' with
  | nil =>
    obtain rfl : out' = [] := List.length_eq_zero_iff.1 hlen.symm
    exact ⟨le_rfl, fun hne => absurd rfl hne⟩
  | cons a out ih =>
    cases out' with
    | nil => simp at hlen
    | cons b out' =>
      obtain ⟨hle, hlt⟩ := ih (by simpa using hlen) fun pc => by simpa using h (pc + 1)
      have hsub : a ⊆ b := by simpa using h 0
      have hcard := Finset.card_le_card hsub
      unfold count at hle hlt ⊢
      simp only [List.map_cons, List.sum_cons, ne_eq, List.cons.injEq, not_and]
      refine ⟨by omega, fun hne => ?_⟩
      by_cases hab : a = b
      · have := hlt (hne hab)
        omega
      · have := Finset.card_lt_card (hsub.ssubset_of_ne hab)
        omega

/-- A pass that changes nothing has changed no node. -/
lemma fixed_of_pass {out : Facts} (h : F.Shrinks out) (hfix : F.pass out = out) : F.Fixed out := by
  -- Recomputing a node shrinks the facts, and what a later node has lost does not come back.
  have hkeep : ∀ ks : List ℕ, (∀ k ∈ ks, k < F.size) → ∀ out, F.Shrinks out →
      ks.foldl F.update out = out → ∀ k ∈ ks, F.update out k = out := by
    intro ks
    induction ks with
    | nil => exact fun _ _ _ _ k hk => absurd hk List.not_mem_nil
    | cons k ks ih =>
      intro hks out h hfold j hj
      have hk := hks k (List.mem_cons_self ..)
      have htail : ∀ j ∈ ks, j < F.size := fun j hj => hks j (List.mem_cons_of_mem _ hj)
      rw [List.foldl_cons] at hfold
      have hsame : F.update out k = out := by
        have hrest := (h.update hk).foldl_update htail
        have hbelow := h.update_below hk
        by_contra hne
        have hlt := (count_le_of_below (by rw [update, List.length_set]) hbelow).2 hne
        have hle := (count_le_of_below (by rw [hrest.1.length, (h.update hk).length]) hrest.2).1
        rw [hfold] at hle
        omega
      rcases List.mem_cons.1 hj with rfl | hj
      · exact hsame
      · rw [hsame] at hfold
        exact ih htail out h hfold j hj
  intro pc hpc
  have hupdate := hkeep _ (fun k hk => List.mem_range.1 hk) out h hfix pc (List.mem_range.2 hpc)
  conv_lhs => rw [← hupdate, update, getD_set, if_pos ⟨rfl, by rw [h.length]; exact hpc⟩]

/-- The facts of every node are among all facts. -/
lemma count_le {out : Facts} (h : ∀ bits ∈ out, bits ⊆ Finset.range F.width) :
    count out ≤ out.length * F.width := by
  induction out with
  | nil => simp [count]
  | cons a out ih =>
    have hcard := Finset.card_le_card (h a (List.mem_cons_self ..))
    rw [Finset.card_range] at hcard
    have := ih fun bits hb => h bits (List.mem_cons_of_mem _ hb)
    unfold count at this ⊢
    rw [List.map_cons, List.sum_cons, List.length_cons, Nat.succ_mul]
    omega

/-- The passes end in facts that are those a pass computes from them. -/
theorem solve_fixed {start : Facts} (h : F.Shrinks start)
    (hwidth : ∀ bits ∈ start, bits ⊆ Finset.range F.width) : F.Fixed (F.solve start) := by
  have hstep : ∀ out, F.Shrinks out → F.Shrinks (F.pass out) := fun out h => h.pass.1
  have hrank : ∀ out, F.Shrinks out → F.pass out ≠ out → count (F.pass out) < count out :=
    fun out h hne => (count_le_of_below (by rw [h.pass.1.length, h.length]) h.pass.2).2 hne
  have hfuel := count_le (F := F) hwidth
  rw [h.length] at hfuel
  exact fixed_of_pass (settle_invariant hstep _ h) (settle_fixed hstep hrank h (by omega))

/-- From all facts on, recomputing only shrinks. -/
lemma shrinks_full (hentry : F.entry ⊆ Finset.range F.width)
    (hgen : ∀ pc < F.size, F.gen pc ⊆ Finset.range F.width) : F.Shrinks F.full := by
  refine ⟨List.length_replicate .., fun pc hpc => ?_⟩
  have hget : F.full.getD pc ∅ = Finset.range F.width := by
    rw [full, List.getD_eq_getElem?_getD, List.getElem?_replicate, if_pos hpc]
    rfl
  rw [hget]
  refine Finset.union_subset (fun r hr => ?_) (hgen pc hpc)
  have := (mem_foldl_inter.1 hr).1
  split at this
  · exact hentry this
  · split at this
    · simp at this
    · exact this

end Flow

end Stanli
