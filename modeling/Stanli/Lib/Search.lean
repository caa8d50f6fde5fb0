import Mathlib.Data.List.Basic
import Mathlib.Data.List.Nodup
import Mathlib.Data.Fintype.Card
import Mathlib.Tactic.Common

/-!
# Searching a finite graph

A depth-first search for a bad node, with a stack and a list of the nodes it has seen.  A node is
either bad or has successors.  With fuel for every node and its successors the search finds a bad node
exactly when there is one (`search_iff`).
-/

namespace Stanli

section Search

variable (visit : ℕ → Option (List ℕ))

/-- Whether the search from the nodes of the stack finds a bad node; `visit` gives the successors of a
node that is not bad. -/
def search : ℕ → List ℕ → List ℕ → Bool
  | 0, _, _ => false
  | _ + 1, [], _ => false
  | fuel + 1, k :: pending, seen =>
    if k ∈ seen then search fuel pending seen
    else
      match visit k with
      | none => true
      | some next => search fuel (next ++ pending) (k :: seen)

/-- The nodes a search from the nodes `roots` comes to. -/
inductive Reached (roots : List ℕ) : ℕ → Prop
  | root {k : ℕ} (h : k ∈ roots) : Reached roots k
  | step {k k' : ℕ} {next : List ℕ} (h : Reached roots k) (hvisit : visit k = some next)
    (hk' : k' ∈ next) : Reached roots k'

variable {visit}

/-- A search comes to what it comes to from nodes it comes to. -/
lemma Reached.mono {roots roots' : List ℕ} (h : ∀ k ∈ roots, Reached visit roots' k) {k : ℕ}
    (hk : Reached visit roots k) : Reached visit roots' k := by
  induction hk with
  | root hmem => exact h _ hmem
  | step _ hvisit hnext ih => exact ih.step hvisit hnext

/-- The search only looks at nodes it can come to. -/
lemma exists_bad_of_search {fuel : ℕ} {pending seen : List ℕ}
    (h : search visit fuel pending seen = true) : ∃ k, Reached visit pending k ∧ visit k = none := by
  induction fuel generalizing pending seen with
  | zero => simp [search] at h
  | succ fuel ih =>
    cases pending with
    | nil => simp [search] at h
    | cons k pending =>
      rw [search] at h
      split at h
      · obtain ⟨j, hj, hbad⟩ := ih h
        exact ⟨j, hj.mono fun k hk => .root (List.mem_cons_of_mem _ hk), hbad⟩
      · cases hk : visit k with
        | none => exact ⟨k, .root (List.mem_cons_self ..), hk⟩
        | some next =>
          rw [hk] at h
          obtain ⟨j, hj, hbad⟩ := ih h
          refine ⟨j, hj.mono fun k' hk' => ?_, hbad⟩
          rcases List.mem_append.1 hk' with hmem | hmem
          · exact (Reached.root (List.mem_cons_self ..)).step hk hmem
          · exact .root (List.mem_cons_of_mem _ hmem)

/-- The nodes the search has seen are good, and their successors are seen or on the stack. -/
structure SearchInv (visit : ℕ → Option (List ℕ)) (size : ℕ) (pending seen : List ℕ) : Prop where
  good : ∀ k ∈ seen, ∃ next, visit k = some next ∧ ∀ k' ∈ next, k' ∈ seen ∨ k' ∈ pending
  nodup : seen.Nodup
  seen_lt : ∀ k ∈ seen, k < size
  pending_lt : ∀ k ∈ pending, k < size

lemma SearchInv.length_le {size : ℕ} {pending seen : List ℕ} (h : SearchInv visit size pending seen) :
    seen.length ≤ size := by
  have hsub : seen ⊆ List.range size := fun k hk => List.mem_range.2 (h.seen_lt k hk)
  have := (List.subperm_of_subset h.nodup hsub).length_le
  rwa [List.length_range] at this

lemma SearchInv.skip {size k : ℕ} {pending seen : List ℕ}
    (h : SearchInv visit size (k :: pending) seen) (hk : k ∈ seen) :
    SearchInv visit size pending seen := by
  refine ⟨fun j hj => ?_, h.nodup, h.seen_lt, fun j hj => h.pending_lt j (List.mem_cons_of_mem _ hj)⟩
  obtain ⟨next, hvisit, hnext⟩ := h.good j hj
  refine ⟨next, hvisit, fun k' hk' => ?_⟩
  rcases hnext k' hk' with hseen | hpend
  · exact Or.inl hseen
  · rcases List.mem_cons.1 hpend with rfl | hpend
    · exact Or.inl hk
    · exact Or.inr hpend

lemma SearchInv.push {size k : ℕ} {pending seen next : List ℕ}
    (h : SearchInv visit size (k :: pending) seen) (hk : k ∉ seen) (hvisit : visit k = some next)
    (hlt : ∀ k' ∈ next, k' < size) : SearchInv visit size (next ++ pending) (k :: seen) := by
  refine ⟨fun j hj => ?_, List.nodup_cons.2 ⟨hk, h.nodup⟩, fun j hj => ?_, fun j hj => ?_⟩
  · rcases List.mem_cons.1 hj with rfl | hj
    · exact ⟨next, hvisit, fun k' hk' => Or.inr (List.mem_append_left _ hk')⟩
    · obtain ⟨next', hvisit', hnext'⟩ := h.good j hj
      refine ⟨next', hvisit', fun k' hk' => ?_⟩
      rcases hnext' k' hk' with hseen | hpend
      · exact Or.inl (List.mem_cons_of_mem _ hseen)
      · rcases List.mem_cons.1 hpend with rfl | hpend
        · exact Or.inl (List.mem_cons_self ..)
        · exact Or.inr (List.mem_append_right _ hpend)
  · rcases List.mem_cons.1 hj with rfl | hj
    · exact h.pending_lt j (List.mem_cons_self ..)
    · exact h.seen_lt j hj
  · rcases List.mem_append.1 hj with hj | hj
    · exact hlt j hj
    · exact h.pending_lt j (List.mem_cons_of_mem _ hj)

/-- A search that finds nothing has seen a closed set of good nodes. -/
lemma exists_closed_of_search {size degree : ℕ}
    (hlt : ∀ k next, k < size → visit k = some next → next.length ≤ degree ∧ ∀ k' ∈ next, k' < size)
    {fuel : ℕ} {pending seen : List ℕ} (hinv : SearchInv visit size pending seen)
    (hfuel : pending.length + (degree + 1) * (size - seen.length) < fuel)
    (h : search visit fuel pending seen = false) : ∃ closed : ℕ → Prop,
      (∀ k ∈ pending, closed k) ∧ ∀ k, closed k → ∃ next, visit k = some next ∧
        ∀ k' ∈ next, closed k' := by
  suffices hgen : ∃ closed : ℕ → Prop, (∀ k ∈ pending, closed k) ∧ (∀ k ∈ seen, closed k) ∧
      ∀ k, closed k → ∃ next, visit k = some next ∧ ∀ k' ∈ next, closed k' by
    obtain ⟨closed, hp, -, hc⟩ := hgen
    exact ⟨closed, hp, hc⟩
  induction fuel generalizing pending seen with
  | zero => omega
  | succ fuel ih =>
    cases pending with
    | nil =>
      refine ⟨fun k => k ∈ seen, by simp, fun k hk => hk, fun k hk => ?_⟩
      obtain ⟨next, hvisit, hnext⟩ := hinv.good k hk
      exact ⟨next, hvisit, fun k' hk' => (hnext k' hk').resolve_right List.not_mem_nil⟩
    | cons k pending =>
      rw [search] at h
      rw [List.length_cons] at hfuel
      split at h
      · rename_i hk
        obtain ⟨closed, hp, hs, hc⟩ := ih (hinv.skip hk) (by omega) h
        exact ⟨closed, List.forall_mem_cons.2 ⟨hs k hk, hp⟩, hs, hc⟩
      · rename_i hk
        have hksize := hinv.pending_lt k (List.mem_cons_self ..)
        cases hvisit : visit k with
        | none => simp [hvisit] at h
        | some next =>
          rw [hvisit] at h
          obtain ⟨hdeg, hnext⟩ := hlt k next hksize hvisit
          have hinv' := hinv.push hk hvisit hnext
          have hseen := hinv'.length_le
          rw [List.length_cons] at hseen
          have hsplit : (degree + 1) * (size - seen.length) =
              (degree + 1) * (size - (seen.length + 1)) + (degree + 1) := by
            rw [show size - seen.length = size - (seen.length + 1) + 1 by omega, Nat.mul_succ]
          obtain ⟨closed, hp, hs, hc⟩ := ih hinv' (by
            rw [List.length_append, List.length_cons]
            omega) h
          refine ⟨closed, List.forall_mem_cons.2 ⟨hs k (List.mem_cons_self ..), fun j hj =>
            hp j (List.mem_append_right _ hj)⟩, fun j hj => hs j (List.mem_cons_of_mem _ hj), hc⟩

/-- With fuel for every node and its successors the search finds a bad node exactly when it can come
to one. -/
theorem search_iff {size degree root : ℕ} (hroot : root < size)
    (hlt : ∀ k next, k < size → visit k = some next → next.length ≤ degree ∧ ∀ k' ∈ next, k' < size)
    {fuel : ℕ} (hfuel : (degree + 1) * size + 1 < fuel) :
    search visit fuel [root] [] = true ↔ ∃ k, Reached visit [root] k ∧ visit k = none := by
  refine ⟨exists_bad_of_search, ?_⟩
  rintro ⟨k, hk, hbad⟩
  by_contra hno
  have hinv : SearchInv visit size [root] [] := ⟨by simp, List.nodup_nil, by simp, by simpa using hroot⟩
  have hfuel' : [root].length + (degree + 1) * (size - ([] : List ℕ).length) < fuel := by
    rw [List.length_singleton, List.length_nil, Nat.sub_zero]
    omega
  obtain ⟨closed, hp, hc⟩ := exists_closed_of_search hlt hinv hfuel' (by simpa using hno)
  have hclosed : closed k := by
    clear hbad
    induction hk with
    | root h => exact hp _ h
    | step _ hvisit hk' ih =>
      obtain ⟨next, hnext, hall⟩ := hc _ ih
      obtain rfl := Option.some.inj (hvisit.symm.trans hnext)
      exact hall _ hk'
  obtain ⟨next, hnext, -⟩ := hc k hclosed
  rw [hbad] at hnext
  cases hnext

end Search

end Stanli
