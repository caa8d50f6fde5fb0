import Mathlib.Tactic.FieldSimp
import Mathlib.Tactic.Ring
import Stanli.Densities.Terms

/-!
# The kernels are exact

On arguments in the support no kernel refuses, and each leaves the sum over the observations of what it
keeps of the log density, and for each entry of an active argument the sum, over the observations that
read it, of the partial derivatives (`FusedDensity.exact_run`).  What is left out depends on no active
argument, and nothing is left out without propto (`FusedDensity.dropped`).
-/

namespace Stanli.Densities

open Broadcast Finset

/-! ## Writing results -/

section Cells

variable {R : Type} [Field R] {c c' : Cells R} {o : Out} {nArgs k k' j j' : ℕ}

/-- The ranges of the arguments and the mark are apart. -/
structure Out.Separate (o : Out) (nArgs : ℕ) : Prop where
  buf : ∀ k < nArgs, ∀ k' < nArgs, k ≠ k' → ∀ j < o.len k, ∀ j' < o.len k',
    o.buf k + j ≠ o.buf k' + j'
  connected : ∀ k < nArgs, ∀ j < o.len k, o.buf k + j ≠ o.connected

/-- Other cells than those of a call are unchanged. -/
structure SameOutside (nArgs : ℕ) (o : Out) (c c' : Cells R) : Prop where
  out : ∀ i, i ≠ o.value → c'.out i = c.out i
  scratch : ∀ i, i ≠ o.connected → (∀ k < nArgs, ∀ j < o.len k, i ≠ o.buf k + j) →
    c'.scratch i = c.scratch i

omit [Field R] in
lemma SameOutside.refl (c : Cells R) : SameOutside nArgs o c c := ⟨fun _ _ => rfl, fun _ _ _ => rfl⟩

omit [Field R] in
lemma SameOutside.fill (h : SameOutside nArgs o c c') (hk : k < nArgs) (f : ℕ → R) :
    SameOutside nArgs o c (c'.fill o k f) := by
  refine ⟨h.out, fun i hi hout => ?_⟩
  rw [Cells.fill]
  dsimp only
  rw [if_neg, h.scratch i hi hout]
  rintro ⟨hle, hlt⟩
  exact hout k hk (i - o.buf k) (by omega) (by omega)

lemma SameOutside.put (h : SameOutside nArgs o c c') (hk : k < nArgs) {arg : View R}
    (hlen : o.len k = arg.size) (e : View R) : SameOutside nArgs o c (c'.put o k arg e) := by
  unfold Cells.put
  split
  · rename_i hs
    refine ⟨h.out, fun i hi hout => ?_⟩
    have hsize := View.size_of_isScalar hs
    have hne : i ≠ o.buf k := hout k hk 0 (by omega)
    exact (Function.update_of_ne hne ..).trans (h.scratch i hi hout)
  · exact h.fill hk _

lemma SameOutside.put_if (h : SameOutside nArgs o c c') (b : Bool) (hk : k < nArgs) {arg : View R}
    (hlen : o.len k = arg.size) (e : View R) :
    SameOutside nArgs o c (if b = true then c'.put o k arg e else c') := by
  cases b with
  | true => exact h.put hk hlen e
  | false => exact h

omit [Field R] in
lemma SameOutside.setValue (h : SameOutside nArgs o c c') (x : R) :
    SameOutside nArgs o c (c'.setValue o x) :=
  ⟨fun i hi => (Function.update_of_ne hi ..).trans (h.out i hi), h.scratch⟩

omit [Field R] in
lemma SameOutside.setConnected (h : SameOutside nArgs o c c') (x : R) :
    SameOutside nArgs o c (c'.setConnected o x) :=
  ⟨h.out, fun i hi hout => (Function.update_of_ne hi ..).trans (h.scratch i hi hout)⟩

/-- The range of another argument is unchanged. -/
lemma scratch_put_other (hsep : o.Separate nArgs) {arg : View R} (hlen : o.len k = arg.size)
    (hk : k < nArgs) (hk' : k' < nArgs) (hne : k' ≠ k) (hj : j < o.len k') (b : Bool) (e : View R) :
    (if b = true then c.put o k arg e else c).scratch (o.buf k' + j) = c.scratch (o.buf k' + j) := by
  cases b with
  | false => rfl
  | true =>
    rw [if_pos rfl, Cells.put]
    split
    · rename_i hs
      have hsize := View.size_of_isScalar hs
      exact Function.update_of_ne (hsep.buf k' hk' k hk hne j hj 0 (by omega)) ..
    · rw [Cells.fill]
      dsimp only
      rw [if_neg]
      rintro ⟨hle, hlt⟩
      exact hsep.buf k' hk' k hk hne j hj (o.buf k' + j - o.buf k) (by omega) (by omega)

/-- An argument's range gets what the observations that read each entry contribute. -/
lemma scratch_put_self {arg e : View R} (hlen : o.len k = arg.size) {N : ℕ} (ha : arg.Conforms N)
    (he : e.Covers N) {g : ℕ → R} (hg : ∀ n < N, e.entry n = g n) (hj : j < arg.size) :
    (c.put o k arg e).scratch (o.buf k + j) = arg.collect N g j := by
  rw [← View.collect_congr hg j, View.collect_of_covers ha he hj, Cells.put]
  split
  · rename_i hs
    have hzero : j = 0 := Nat.lt_one_iff.1 (View.size_of_isScalar hs ▸ hj)
    rw [hzero]
    exact Function.update_self ..
  · rw [Cells.fill]
    dsimp only
    rw [if_pos (by omega), Nat.add_sub_cancel_left]

/-- The partials by some arguments, put one after the other where the argument is active. -/
def putAll (x : ℕ → View R) (mask : ℕ) (o : Out) (ks : List ℕ) (es : List (View R)) (c : Cells R) :
    Cells R :=
  (ks.zip es).foldl (fun c w => if mask.testBit w.1 = true then c.put o w.1 (x w.1) w.2 else c) c

/-! ## Ending a call -/

omit [Field R] in
lemma SameOutside.foldl_fill (h : SameOutside nArgs o c c') {ks : List ℕ} (hks : ∀ k ∈ ks, k < nArgs)
    (f : ℕ → R) : SameOutside nArgs o c (ks.foldl (fun c k => c.fill o k f) c') := by
  induction ks generalizing c' with
  | nil => exact h
  | cons k ks ih =>
    exact ih (h.fill (hks k (List.mem_cons_self ..)) f) fun k' hk' => hks k' (List.mem_cons_of_mem _ hk')

omit [Field R] in
lemma out_foldl_fill (ks : List ℕ) (f : ℕ → R) :
    (ks.foldl (fun c k => c.fill o k f) c).out = c.out := by
  induction ks generalizing c with
  | nil => rfl
  | cons k ks ih => exact ih

omit [Field R] in
/-- Filling ranges with one number leaves it in each of them. -/
lemma scratch_foldl_fill {ks : List ℕ} (hk : k ∈ ks) (hj : j < o.len k) (x : R) :
    (ks.foldl (fun c k => c.fill o k fun _ => x) c).scratch (o.buf k + j) = x := by
  induction ks using List.reverseRecOn with
  | nil => cases hk
  | append_singleton ks k' ih =>
    rw [List.foldl_append, List.foldl_cons, List.foldl_nil, Cells.fill]
    dsimp only
    split
    · rfl
    · rename_i hout
      obtain hk | hk := List.mem_append.1 hk
      · exact ih hk
      · obtain rfl := List.mem_singleton.1 hk
        exact absurd ⟨Nat.le_add_right .., Nat.add_lt_add_left hj _⟩ hout

lemma out_zeroResult : (zeroResult nArgs o c).out o.value = 0 := by
  change (List.foldl (fun c k => c.fill o k fun _ => 0) (c.setValue o 0) (List.range nArgs)).out
    o.value = 0
  rw [out_foldl_fill]
  exact Function.update_self ..

lemma scratch_zeroResult (hsep : o.Separate nArgs) (hk : k < nArgs) (hj : j < o.len k) :
    (zeroResult nArgs o c).scratch (o.buf k + j) = 0 := by
  have hne := hsep.connected k hk j hj
  exact (Function.update_of_ne hne ..).trans (scratch_foldl_fill (List.mem_range.2 hk) hj 0)

lemma connected_zeroResult : (zeroResult nArgs o c).scratch o.connected = 0 :=
  Function.update_self ..

lemma SameOutside.zeroResult : SameOutside nArgs o c (zeroResult nArgs o c) :=
  (((SameOutside.refl c).setValue 0).foldl_fill (fun _ hk => List.mem_range.1 hk) _).setConnected 0

lemma SameOutside.zeroResult_of (h : SameOutside nArgs o c c') :
    SameOutside nArgs o c (Densities.zeroResult nArgs o c') :=
  ((h.setValue 0).foldl_fill (fun _ hk => List.mem_range.1 hk) _).setConnected 0

end Cells

/-! ## What a call leaves -/

section Exact

/-- The arguments of one observation. -/
def observation (x : ℕ → View ℝ) (n : ℕ) (k : ℕ) : ℝ := (x k).entry n

/-- A call leaves the sum of a function of the observations, and for each entry of an active argument
the sum of the partials of the observations that read it. -/
structure Exact (nArgs : ℕ) (value : (ℕ → ℝ) → ℝ) (dTerm : ℕ → (ℕ → ℝ) → ℝ) (x : ℕ → View ℝ)
    (N mask : ℕ) (o : Out) (c c' : Cells ℝ) : Prop where
  value : c'.out o.value = ∑ n ∈ range N, value (observation x n)
  partials : ∀ k < nArgs, mask.testBit k = true → ∀ j < (x k).size,
    c'.scratch (o.buf k + j) = (x k).collect N (fun n => dTerm k (observation x n)) j
  connected : c'.scratch o.connected = if N = 0 ∨ mask = 0 then 0 else 1
  same : SameOutside nArgs o c c'

variable {nArgs N mask : ℕ} {value : (ℕ → ℝ) → ℝ} {dTerm : ℕ → (ℕ → ℝ) → ℝ} {x : ℕ → View ℝ} {o : Out}
  {c c' : Cells ℝ}

/-- No observations, or nothing that is kept and no active argument. -/
lemma Exact.of_zero (hsep : o.Separate nArgs) (hlen : ∀ k < nArgs, o.len k = (x k).size)
    (h : N = 0 ∨ mask = 0 ∧ ∀ a, value a = 0) :
    Exact nArgs value dTerm x N mask o c (zeroResult nArgs o c) where
  value := by
    rw [out_zeroResult]
    obtain rfl | ⟨-, h⟩ := h
    · rfl
    · exact (sum_eq_zero fun n _ => h _).symm
  partials k hk hbit j hj := by
    rw [scratch_zeroResult hsep hk (hlen k hk ▸ hj)]
    obtain rfl | ⟨rfl, -⟩ := h
    · exact (View.collect_zero ..).symm
    · rw [Nat.zero_testBit] at hbit
      cases hbit
  connected := by
    rw [connected_zeroResult, if_pos]
    exact h.imp_right And.left
  same := .zeroResult

/-- The end of a call that has written the partials. -/
lemma Exact.of_finish (hsep : o.Separate nArgs) (hlen : ∀ k < nArgs, o.len k = (x k).size)
    (hN : N ≠ 0) {logp : ℝ} (hval : logp = ∑ n ∈ range N, value (observation x n))
    (hpart : ∀ k < nArgs, mask.testBit k = true → ∀ j < (x k).size,
      c'.scratch (o.buf k + j) = (x k).collect N (fun n => dTerm k (observation x n)) j)
    (hsame : SameOutside nArgs o c c') :
    Exact nArgs value dTerm x N mask o c (finish nArgs o logp mask c') := by
  unfold finish
  split
  · rename_i hmask
    subst hmask
    refine ⟨?_, fun k _ hbit => ?_, ?_, hsame.zeroResult_of.setValue logp⟩
    · exact (Function.update_self ..).trans hval
    · rw [Nat.zero_testBit] at hbit
      cases hbit
    · rw [if_pos (Or.inr rfl)]
      exact connected_zeroResult
  · rename_i hmask
    refine ⟨?_, fun k hk hbit j hj => ?_, ?_, (hsame.setValue logp).setConnected 1⟩
    · exact (Function.update_self ..).trans hval
    · have hne := hsep.connected k hk j (hlen k hk ▸ hj)
      exact (Function.update_of_ne hne ..).trans (hpart k hk hbit j hj)
    · rw [if_neg (by tauto)]
      exact Function.update_self ..

/-- The entries of a view are the partials by an argument. -/
def IsPartial (dTerm : ℕ → (ℕ → ℝ) → ℝ) (x : ℕ → View ℝ) (N k : ℕ) (e : View ℝ) : Prop :=
  e.Covers N ∧ ∀ n < N, e.entry n = dTerm k (observation x n)

/-- Each active argument's range gets its partials, and nothing else changes. -/
lemma putAll_spec (mask : ℕ) (c d : Cells ℝ) (hsep : o.Separate nArgs)
    (hlen : ∀ k < nArgs, o.len k = (x k).size) (hconf : ∀ k < nArgs, (x k).Conforms N)
    {ks : List ℕ} {es : List (View ℝ)}
    (hlt : ∀ k ∈ ks, k < nArgs) (hnd : ks.Nodup) (hes : List.Forall₂ (IsPartial dTerm x N) ks es) :
    (SameOutside nArgs o c d → SameOutside nArgs o c (putAll x mask o ks es d)) ∧
    (∀ k < nArgs, k ∉ ks → ∀ j < o.len k,
      (putAll x mask o ks es d).scratch (o.buf k + j) = d.scratch (o.buf k + j)) ∧
    ∀ k ∈ ks, mask.testBit k = true → ∀ j < (x k).size,
      (putAll x mask o ks es d).scratch (o.buf k + j) =
        (x k).collect N (fun n => dTerm k (observation x n)) j := by
  induction hes generalizing d with
  | nil => exact ⟨id, fun _ _ _ _ _ => rfl, by simp⟩
  | @cons k e ks es he _ ih =>
    obtain ⟨hk, hlt⟩ := List.forall_mem_cons.1 hlt
    obtain ⟨hnot, hnd⟩ := List.nodup_cons.1 hnd
    obtain ⟨hsame, hother, hself⟩ :=
      ih (if mask.testBit k = true then d.put o k (x k) e else d) hlt hnd
    refine ⟨fun h => hsame (h.put_if _ hk (hlen k hk) e), fun k' hk' hnot' j hj => ?_,
      fun k' hk' hbit j hj => ?_⟩
    · obtain ⟨hne, hnot'⟩ := List.ne_and_not_mem_of_not_mem_cons hnot'
      exact (hother k' hk' hnot' j hj).trans (scratch_put_other hsep (hlen k hk) hk hk' hne hj _ e)
    · obtain rfl | hk' := List.mem_cons.1 hk'
      · refine (hother k' hk hnot j (hlen k' hk ▸ hj)).trans ?_
        rw [if_pos hbit]
        exact scratch_put_self (hlen k' hk) (hconf k' hk) he.1 he.2 hj
      · exact hself k' hk' hbit j hj

/-- The end of a call that has put the partials by every argument. -/
lemma Exact.of_putAll (hconf : ∀ k < nArgs, (x k).Conforms N) (hsep : o.Separate nArgs)
    (hlen : ∀ k < nArgs, o.len k = (x k).size) (hN : N ≠ 0) (ks : List ℕ) (es : List (View ℝ))
    (hks : ks.Perm (List.range nArgs)) {logp : ℝ}
    (hval : logp = ∑ n ∈ range N, value (observation x n))
    (hes : List.Forall₂ (IsPartial dTerm x N) ks es) :
    Exact nArgs value dTerm x N mask o c (finish nArgs o logp mask (putAll x mask o ks es c)) := by
  obtain ⟨hsame, -, hself⟩ := putAll_spec mask c c hsep hlen hconf
    (fun k hk => List.mem_range.1 (hks.mem_iff.1 hk)) (hks.nodup_iff.2 List.nodup_range) hes
  exact .of_finish hsep hlen hN hval
    (fun k hk => hself k (hks.mem_iff.2 (List.mem_range.2 hk))) (hsame (.refl c))

end Exact

/-! ## Arguments in the support -/

/-- Each argument is one value or an array with one value for each of the `N` observations. -/
structure Observed (nArgs N : ℕ) (x : ℕ → View ℝ) : Prop where
  conforms : ∀ k < nArgs, (x k).Conforms N
  single : (∀ k < nArgs, (x k).isScalar = true) → N = 1

/-- The values of each argument are in the support. -/
def Supported (d : FusedDensity) (x : ℕ → View ℝ) : Prop :=
  ∀ k < d.arity, ∀ j < (x k).size, d.support k ((x k).entry j)

section Arguments

variable {nArgs N mask : ℕ} {propto : Bool} {x : ℕ → View ℝ} {o : Out} {c c' : Cells ℝ}

lemma foldl_noteSize {xs : List (View ℝ)} (h : ∀ v ∈ xs, v.Conforms N) (s : Option ℕ)
    (hs : ∀ n ∈ s, n = N) : (xs.foldl noteSize (s, true)).2 = true := by
  induction xs generalizing s with
  | nil => rfl
  | cons v xs ih =>
    have hrest := fun s hs => ih (fun u hu => h u (List.mem_cons_of_mem _ hu)) s hs
    have hv := h v (List.mem_cons_self ..)
    rw [List.foldl_cons]
    cases v with
    | scalar x => exact hrest s hs
    | array n f =>
      obtain rfl : n = N := hv
      cases s with
      | none => exact hrest (some n) (by simp)
      | some m =>
        obtain rfl := hs m rfl
        have hstep : noteSize (some m, true) (.array m f) = (some m, true) := by
          simp [noteSize, View.isScalar, View.size]
        rw [hstep]
        exact hrest (some m) (by simp)

lemma checkSizes_ok {xs : List (View ℝ)} (h : ∀ v ∈ xs, v.Conforms N) (function : String)
    (names : List String) : checkSizes function names xs = .ok () := by
  rw [checkSizes, if_pos (foldl_noteSize h none (by simp))]

@[simp] lemma anyNan_eq_false (v : View ℝ) : anyNan v = false := by
  rw [anyNan, Bool.not_eq_false']
  exact View.all_eq_true.2 fun _ _ => rfl

@[simp] lemma allFinite_eq_true (v : View ℝ) : allFinite v = true :=
  View.all_eq_true.2 fun _ _ => rfl

lemma allPositive_of {v : View ℝ} (h : ∀ j < v.size, 0 < v.entry j) : allPositive v = true :=
  View.all_eq_true.2 fun j hj => decide_eq_true (h j hj)

lemma allPositiveFinite_of {v : View ℝ} (h : ∀ j < v.size, 0 < v.entry j) :
    allPositiveFinite v = true := by
  rw [allPositiveFinite, allPositive_of h, allFinite_eq_true]
  rfl

lemma sizeZeroAny_eq {xs : List (View ℝ)} (h : ∀ v ∈ xs, v.Conforms N)
    (hs : (∀ v ∈ xs, v.isScalar = true) → N = 1) : sizeZeroAny xs = decide (N = 0) := by
  rw [sizeZeroAny, Bool.eq_iff_iff, List.any_eq_true, decide_eq_true_iff]
  constructor
  · rintro ⟨v, hv, hz⟩
    have hsize := (h v hv).size_eq
    rw [beq_iff_eq.1 hz] at hsize
    split at hsize
    · cases hsize
    · exact hsize.symm
  · intro hN
    by_contra hno
    refine absurd (hs fun v hv => ?_) (by omega)
    by_contra hscalar
    refine hno ⟨v, hv, ?_⟩
    rw [(h v hv).size_eq, if_neg hscalar, hN]
    rfl

lemma maxSizeOf_eq {xs : List (View ℝ)} (h : ∀ v ∈ xs, v.Conforms N) (hN : N ≠ 0) (hne : xs ≠ [])
    (hs : (∀ v ∈ xs, v.isScalar = true) → N = 1) : maxSizeOf xs = N := by
  have hle : ∀ (xs : List (View ℝ)) (m : ℕ), (∀ v ∈ xs, v.Conforms N) → m ≤ N →
      (xs.map View.size).foldl max m ≤ N ∧ m ≤ (xs.map View.size).foldl max m ∧
        ∀ v ∈ xs, v.size ≤ (xs.map View.size).foldl max m := by
    intro xs
    induction xs with
    | nil => exact fun m _ hm => ⟨hm, le_rfl, by simp⟩
    | cons v xs ih =>
      intro m h hm
      have hv := (h v (List.mem_cons_self ..)).size_eq
      have hmax : max m v.size ≤ N := by
        rw [hv]
        split <;> omega
      obtain ⟨hup, hlow, hall⟩ := ih (max m v.size) (fun u hu => h u (List.mem_cons_of_mem _ hu)) hmax
      rw [List.map_cons, List.foldl_cons]
      refine ⟨hup, by omega, fun u hu => ?_⟩
      obtain rfl | hu := List.mem_cons.1 hu
      · omega
      · exact hall u hu
  obtain ⟨hup, -, hall⟩ := hle xs 0 h (Nat.zero_le _)
  refine le_antisymm hup ?_
  by_cases hscalar : ∀ v ∈ xs, v.isScalar = true
  · obtain ⟨v, hv⟩ := List.exists_mem_of_ne_nil xs hne
    have hsize := hall v hv
    rw [View.size_of_isScalar (hscalar v hv)] at hsize
    rwa [hs hscalar]
  · obtain ⟨v, hv, harray⟩ : ∃ v ∈ xs, v.isScalar ≠ true := by
      simpa only [not_forall, exists_prop] using hscalar
    have hsize := hall v hv
    rwa [(h v hv).size_eq, if_neg harray] at hsize

/-- The arguments as a list. -/
def argList (nArgs : ℕ) (x : ℕ → View ℝ) : List (View ℝ) := (List.range nArgs).map x

lemma Observed.conforms_list (hx : Observed nArgs N x) : ∀ v ∈ argList nArgs x, v.Conforms N := by
  intro v hv
  obtain ⟨k, hk, rfl⟩ := List.mem_map.1 hv
  exact hx.conforms k (List.mem_range.1 hk)

lemma Observed.single_list (hx : Observed nArgs N x) :
    (∀ v ∈ argList nArgs x, v.isScalar = true) → N = 1 := by
  intro h
  exact hx.single fun k hk => h _ (List.mem_map.2 ⟨k, List.mem_range.2 hk, rfl⟩)

/-- A view that is no scalar unless all arguments are covers the observations. -/
lemma Observed.covers (hx : Observed nArgs N x) {e : View ℝ} (he : e.Conforms N)
    (hs : e.isScalar = true → ∀ k < nArgs, (x k).isScalar = true) : e.Covers N :=
  ⟨he, fun h => hx.single (hs h)⟩

end Arguments

/-! ## The kernels -/

section Kernels

variable {F : Elementary ℝ} {N mask : ℕ} {propto : Bool} {x : ℕ → View ℝ} {o : Out} {c : Cells ℝ}

/-! The three arguments of most kernels. -/

lemma Observed.conform_three (hx : Observed 3 N x) (hN : N ≠ 0) : (x 0).Conforms N ∧
    (x 1).Conforms N ∧ (x 2).Conforms N ∧ maxSizeOf [x 0, x 1, x 2] = N :=
  ⟨hx.conforms 0 (by decide), hx.conforms 1 (by decide), hx.conforms 2 (by decide),
    maxSizeOf_eq hx.conforms_list hN (by simp) hx.single_list⟩

lemma Observed.covers_three (hx : Observed 3 N x) {e : View ℝ} (he : e.Conforms N)
    (hs : e.isScalar = true → (x 0).isScalar = true ∧ (x 1).isScalar = true ∧ (x 2).isScalar = true) :
    e.Covers N := by
  refine hx.covers he fun h k hk => ?_
  obtain ⟨h0, h1, h2⟩ := hs h
  interval_cases k
  · exact h0
  · exact h1
  · exact h2

/-- A sum that mentions one argument is scaled by its size. -/
lemma sum_scaled_one {e u : View ℝ} (he : e.Conforms N) (hu : u.Conforms N) (hN : N ≠ 0)
    (hs : e.isScalar = u.isScalar) : e.sum * N / u.size = ∑ n ∈ range N, e.entry n := by
  have hsize : u.size = e.size := by rw [he.size_eq, hu.size_eq, hs]
  rw [hsize, View.sum_scaled he hN]

/-- A sum that mentions two arguments is scaled by the larger size. -/
lemma sum_scaled_two {e u v : View ℝ} (he : e.Conforms N) (hu : u.Conforms N) (hv : v.Conforms N)
    (hN : N ≠ 0) (hs : e.isScalar = (u.isScalar && v.isScalar)) :
    e.sum * N / (max u.size v.size : ℕ) = ∑ n ∈ range N, e.entry n := by
  have hsize : max u.size v.size = e.size := by
    rw [he.size_eq, hs, ← View.isScalar_mul, ← (hu.mul hv).size_eq, ← View.size_zipWith hu hv hN]
    rfl
  rw [hsize, View.sum_scaled he hN]

lemma sum_map_scaled {v : View ℝ} (hv : v.Conforms N) (hN : N ≠ 0) (f : ℝ → ℝ) :
    (v.map f).sum * N / v.size = ∑ n ∈ range N, f (v.entry n) := by
  rw [sum_scaled_one (hv.map f) hv hN (View.isScalar_map ..)]
  simp only [View.entry_map]

lemma withRef_eq {e : View ℝ} (he : e.Conforms N) (b : Bool) : withRef b e N = e := by
  rw [withRef, he.materialize_eq, ite_self]

/-! A conditional update of the value is a summand that may be left out. -/

lemma ite_add_eq_keep (b : Bool) (r s : ℝ) : (if b = true then r + s else r) = r + keep b s := by
  cases b
  · exact (add_zero r).symm
  · rfl

lemma ite_sub_eq_keep (b : Bool) (r s : ℝ) : (if b = true then r - s else r) = r - keep b s := by
  cases b
  · exact (sub_zero r).symm
  · rfl

lemma keep_sum (b : Bool) (f : ℕ → ℝ) : keep b (∑ n ∈ range N, f n) = ∑ n ∈ range N, keep b (f n) := by
  cases b
  · exact (sum_const_zero).symm
  · rfl

lemma sum_constant (r : ℝ) : ∑ _n ∈ range N, r = N * r := by
  rw [sum_const, card_range, nsmul_eq_mul]

theorem normalBody_exact (hx : Observed 3 N x) (hN : N ≠ 0)
    (hsep : o.Separate 3) (hlen : ∀ k < 3, o.len k = (x k).size) :
    Exact 3 (FusedDensity.normal.keptTerms F mask propto) (FusedDensity.normal.dTerm F) x N mask o c
      (normalBody F (x 0) (x 1) (x 2) mask propto o c) := by
  obtain ⟨h0, h1, h2, hmax⟩ := hx.conform_three hN
  have hscaled : View.Conforms N ((x 0 - x 1) * (x 2)⁻¹) := (h0.sub h1).mul h2.inv
  unfold normalBody
  apply Exact.of_putAll hx.conforms hsep hlen hN [0, 2, 1] [_, _, _] (by decide)
  · have hsq : ((x 0 - x 1) * (x 2)⁻¹ * ((x 0 - x 1) * (x 2)⁻¹)).sum =
        ∑ n ∈ range N, (((x 0).entry n - (x 1).entry n) / (x 2).entry n) ^ 2 := by
      have hcov : View.Covers N ((x 0 - x 1) * (x 2)⁻¹ * ((x 0 - x 1) * (x 2)⁻¹)) :=
        hx.covers_three (hscaled.mul hscaled) (by simp +contextual)
      rw [View.sum_of_covers hcov]
      refine sum_congr rfl fun n _ => ?_
      simp only [View.entry_mul, View.entry_sub, View.entry_inv]
      ring
    rw [ite_add_eq_keep, ite_sub_eq_keep, hmax, hsq, sum_map_scaled h2 hN, mul_comm _ (N : ℝ),
      ← sum_constant, keep_sum, keep_sum, mul_sum, ← sum_add_distrib, ← sum_sub_distrib]
    rfl
  · refine .cons ⟨?_, fun n _ => ?_⟩ (.cons ⟨?_, fun n _ => ?_⟩ (.cons ⟨?_, fun n _ => ?_⟩
      .nil))
    · exact hx.covers_three ((h2.inv.mul hscaled).neg) (by simp +contextual)
    · simp only [View.entry_neg, View.entry_mul, View.entry_sub, View.entry_inv]
      change _ = -(((x 0).entry n - (x 1).entry n) / (x 2).entry n ^ 2)
      ring
    · exact hx.covers_three ((h2.inv.mul (hscaled.mul hscaled)).sub h2.inv) (by simp +contextual)
    · simp only [View.entry_mul, View.entry_sub, View.entry_inv]
      change _ = ((x 0).entry n - (x 1).entry n) ^ 2 / (x 2).entry n ^ 3 - 1 / (x 2).entry n
      ring
    · exact hx.covers_three (h2.inv.mul hscaled) (by simp +contextual)
    · simp only [View.entry_mul, View.entry_sub, View.entry_inv]
      change _ = ((x 0).entry n - (x 1).entry n) / (x 2).entry n ^ 2
      ring

theorem cauchyBody_exact (hx : Observed 3 N x) (hN : N ≠ 0)
    (hsep : o.Separate 3) (hlen : ∀ k < 3, o.len k = (x k).size) :
    Exact 3 (FusedDensity.cauchy.keptTerms F mask propto) (FusedDensity.cauchy.dTerm F) x N mask o c
      (cauchyBody F (x 0) (x 1) (x 2) mask propto o c) := by
  obtain ⟨h0, h1, h2, hmax⟩ := hx.conform_three hN
  have hdiff : View.Conforms N (x 0 - x 1) := h0.sub h1
  have hden : View.Conforms N (x 2 * x 2 + (x 0 - x 1) * (x 0 - x 1)) :=
    (h2.mul h2).add (hdiff.mul hdiff)
  have hexpr : View.Conforms N
      (View.scalar 2 * (x 0 - x 1) / (x 2 * x 2 + (x 0 - x 1) * (x 0 - x 1))) :=
    ((View.conforms_scalar 2).mul hdiff).div hden
  unfold cauchyBody
  simp only [hmax, withRef_eq hexpr]
  apply Exact.of_putAll hx.conforms hsep hlen hN [0, 1, 2] [_, _, _] (by decide)
  · have hlog : (((x 0 - x 1) * (x 2)⁻¹ * ((x 0 - x 1) * (x 2)⁻¹)).map F.log1p).sum =
        ∑ n ∈ range N, F.log1p ((((x 0).entry n - (x 1).entry n) / (x 2).entry n) ^ 2) := by
      have hscaled : View.Conforms N ((x 0 - x 1) * (x 2)⁻¹) := hdiff.mul h2.inv
      have hcov : View.Covers N (((x 0 - x 1) * (x 2)⁻¹ * ((x 0 - x 1) * (x 2)⁻¹)).map F.log1p) :=
        hx.covers_three ((hscaled.mul hscaled).map _) (by simp +contextual)
      rw [View.sum_of_covers hcov]
      refine sum_congr rfl fun n _ => ?_
      simp only [View.entry_map, View.entry_mul, View.entry_sub, View.entry_inv]
      congr 1
      ring
    rw [ite_sub_eq_keep, ite_sub_eq_keep, hlog, sum_map_scaled h2 hN, ← sum_constant, keep_sum,
      keep_sum, zero_sub, ← sum_neg_distrib, ← sum_sub_distrib, ← sum_sub_distrib]
    rfl
  · refine .cons ⟨?_, fun n _ => ?_⟩ (.cons ⟨?_, fun n _ => ?_⟩ (.cons ⟨?_, fun n _ => ?_⟩
      .nil))
    · exact hx.covers_three hexpr.neg (by simp +contextual)
    · simp only [View.entry_neg, View.entry_mul, View.entry_sub, View.entry_div, View.entry_add,
        View.entry_scalar, ← sq]
      rfl
    · exact hx.covers_three hexpr (by simp +contextual)
    · simp only [View.entry_mul, View.entry_sub, View.entry_div, View.entry_add,
        View.entry_scalar, ← sq]
      rfl
    · exact hx.covers_three ((((hdiff.mul hdiff).sub (h2.mul h2)).mul h2.inv).div hden)
        (by simp +contextual)
    · simp only [View.entry_mul, View.entry_sub, View.entry_div, View.entry_add, View.entry_inv,
        ← sq, ← div_eq_mul_inv]
      rfl

theorem lognormalBody_exact (hx : Observed 3 N x) (hN : N ≠ 0)
    (hsep : o.Separate 3) (hlen : ∀ k < 3, o.len k = (x k).size) :
    Exact 3 (FusedDensity.lognormal.keptTerms F mask propto) (FusedDensity.lognormal.dTerm F) x N mask
      o c (lognormalBody F (x 0) (x 1) (x 2) mask propto o c) := by
  obtain ⟨h0, h1, h2, hmax⟩ := hx.conform_three hN
  have hlogy : View.Conforms N ((x 0).map F.log) := h0.map _
  have hdiff : View.Conforms N ((x 0).map F.log - x 1) := hlogy.sub h1
  have hsq : View.Conforms N ((x 2)⁻¹ * (x 2)⁻¹) := h2.inv.mul h2.inv
  have hdiv : View.Conforms N (((x 0).map F.log - x 1) * ((x 2)⁻¹ * (x 2)⁻¹)) := hdiff.mul hsq
  unfold lognormalBody
  simp only [hmax, withRef_eq hlogy, hdiff.materialize_eq, withRef_eq hdiv]
  apply Exact.of_putAll hx.conforms hsep hlen hN [0, 1, 2] [_, _, _] (by decide)
  · have hquad : (((x 0).map F.log - x 1) * ((x 0).map F.log - x 1) * ((x 2)⁻¹ * (x 2)⁻¹)).sum =
        ∑ n ∈ range N, ((F.log ((x 0).entry n) - (x 1).entry n) / (x 2).entry n) ^ 2 := by
      have hcov : View.Covers N
          (((x 0).map F.log - x 1) * ((x 0).map F.log - x 1) * ((x 2)⁻¹ * (x 2)⁻¹)) :=
        hx.covers_three ((hdiff.mul hdiff).mul hsq) (by simp +contextual)
      rw [View.sum_of_covers hcov]
      refine sum_congr rfl fun n _ => ?_
      simp only [View.entry_map, View.entry_mul, View.entry_sub, View.entry_inv]
      ring
    rw [ite_sub_eq_keep, ite_sub_eq_keep, hquad, sum_map_scaled h2 hN, sum_map_scaled h0 hN,
      ← sum_constant, keep_sum, keep_sum, mul_sum, ← sum_sub_distrib, ← sum_sub_distrib,
      ← sum_sub_distrib]
    refine sum_congr rfl fun n _ => ?_
    simp only [FusedDensity.keptTerms, lognormalKept, observation]
    ring
  · refine .cons ⟨?_, fun n _ => ?_⟩ (.cons ⟨?_, fun n _ => ?_⟩ (.cons ⟨?_, fun n _ => ?_⟩
      .nil))
    · exact hx.covers_three (((View.conforms_scalar 1).add hdiv).neg.div h0) (by simp +contextual)
    · simp only [View.entry_neg, View.entry_mul, View.entry_sub, View.entry_div, View.entry_add,
        View.entry_inv, View.entry_map, View.entry_scalar]
      change _ = -((1 + (F.log ((x 0).entry n) - (x 1).entry n) / (x 2).entry n ^ 2) / (x 0).entry n)
      ring
    · exact hx.covers_three hdiv (by simp +contextual)
    · simp only [View.entry_mul, View.entry_sub, View.entry_inv, View.entry_map]
      change _ = (F.log ((x 0).entry n) - (x 1).entry n) / (x 2).entry n ^ 2
      ring
    · exact hx.covers_three (((hdiv.mul hdiff).sub (View.conforms_scalar 1)).mul h2.inv)
        (by simp +contextual)
    · simp only [View.entry_mul, View.entry_sub, View.entry_inv, View.entry_map, View.entry_scalar]
      change _ = ((F.log ((x 0).entry n) - (x 1).entry n) ^ 2 / (x 2).entry n ^ 2 - 1) /
        (x 2).entry n
      ring

theorem betaBody_exact (hx : Observed 3 N x) (hN : N ≠ 0)
    (hsep : o.Separate 3) (hlen : ∀ k < 3, o.len k = (x k).size) :
    Exact 3 (FusedDensity.beta.keptTerms F mask propto) (FusedDensity.beta.dTerm F) x N mask o c
      (betaBody F (x 0) (x 1) (x 2) mask propto o c) := by
  obtain ⟨h0, h1, h2, hmax⟩ := hx.conform_three hN
  have hone : View.Conforms N (View.scalar (1 : ℝ)) := View.conforms_scalar 1
  have hlog : View.Conforms N ((x 0).map F.log) := h0.map _
  have hlog1m : View.Conforms N ((x 0).map F.log1m) := h0.map _
  have hdigamma : View.Conforms N ((x 1 + x 2).map F.digamma) := (h1.add h2).map _
  unfold betaBody
  simp only [hmax, hlog.materialize_eq, hlog1m.materialize_eq, withRef_eq hdigamma]
  apply Exact.of_putAll hx.conforms hsep hlen hN [0, 1, 2] [_, _, _] (by decide)
  · rw [ite_add_eq_keep, ite_add_eq_keep, ite_add_eq_keep, ite_sub_eq_keep, ite_sub_eq_keep,
      sum_map_scaled h1 hN, sum_map_scaled h2 hN,
      sum_scaled_two ((h1.sub hone).mul hlog) h0 h1 hN (by simp [Bool.and_comm]),
      sum_scaled_two ((h2.sub hone).mul hlog1m) h0 h2 hN (by simp [Bool.and_comm]),
      sum_scaled_two ((h1.add h2).map F.lgamma) h1 h2 hN (by simp), keep_sum, keep_sum, keep_sum,
      keep_sum, keep_sum, zero_sub, ← sum_neg_distrib, ← sum_sub_distrib, ← sum_add_distrib,
      ← sum_add_distrib, ← sum_add_distrib]
    refine sum_congr rfl fun n _ => ?_
    simp only [FusedDensity.keptTerms, betaKept, observation, View.entry_map, View.entry_mul,
      View.entry_sub, View.entry_add, View.entry_scalar]
    ring
  · refine .cons ⟨?_, fun n _ => ?_⟩ (.cons ⟨?_, fun n _ => ?_⟩ (.cons ⟨?_, fun n _ => ?_⟩
      .nil))
    · exact hx.covers_three (((h1.sub hone).div h0).add ((h2.sub hone).div (h0.sub hone)))
        (by simp +contextual)
    · simp only [View.entry_sub, View.entry_div, View.entry_add, View.entry_scalar]
      rfl
    · exact hx.covers_three ((hlog.add hdigamma).sub (h1.map _)) (by simp +contextual)
    · simp only [View.entry_sub, View.entry_add, View.entry_map]
      rfl
    · exact hx.covers_three ((hlog1m.add hdigamma).sub (h2.map _)) (by simp +contextual)
    · simp only [View.entry_sub, View.entry_add, View.entry_map]
      rfl

theorem gammaBody_exact (hx : Observed 3 N x) (hN : N ≠ 0)
    (hsep : o.Separate 3) (hlen : ∀ k < 3, o.len k = (x k).size) :
    Exact 3 (FusedDensity.gamma.keptTerms F mask propto) (FusedDensity.gamma.dTerm F) x N mask o c
      (gammaBody F (x 0) (x 1) (x 2) mask propto o c) := by
  obtain ⟨h0, h1, h2, hmax⟩ := hx.conform_three hN
  have hone : View.Conforms N (View.scalar (1 : ℝ)) := View.conforms_scalar 1
  have hlogy : View.Conforms N ((x 0).map F.log) := h0.map _
  have hlogbeta : View.Conforms N ((x 2).map F.log) := h2.map _
  unfold gammaBody
  simp only [hmax, withRef_eq hlogy, withRef_eq hlogbeta]
  apply Exact.of_putAll hx.conforms hsep hlen hN [1, 0, 2] [_, _, _] (by decide)
  · have hfirst : ∀ b : Bool,
        (if b = true then -((x 1).map F.lgamma).sum * (N : ℝ) / (x 1).size else 0) =
          -keep b (((x 1).map F.lgamma).sum * (N : ℝ) / (x 1).size) := by
      intro b
      cases b
      · exact neg_zero.symm
      · rw [if_pos rfl, neg_mul, neg_div]
        rfl
    rw [ite_sub_eq_keep, ite_add_eq_keep, ite_add_eq_keep, hfirst, sum_map_scaled h1 hN,
      sum_scaled_two (h1.mul hlogbeta) h1 h2 hN (by simp),
      sum_scaled_two ((h1.sub hone).mul hlogy) h1 h0 hN (by simp),
      sum_scaled_two (h2.mul h0) h2 h0 hN (by simp), keep_sum, keep_sum, keep_sum, keep_sum,
      ← sum_neg_distrib, ← sum_add_distrib, ← sum_add_distrib, ← sum_sub_distrib]
    refine sum_congr rfl fun n _ => ?_
    simp only [FusedDensity.keptTerms, gammaKept, observation, View.entry_map, View.entry_mul,
      View.entry_sub, View.entry_scalar]
    ring
  · refine .cons ⟨?_, fun n _ => ?_⟩ (.cons ⟨?_, fun n _ => ?_⟩ (.cons ⟨?_, fun n _ => ?_⟩
      .nil))
    · exact hx.covers_three ((hlogbeta.add hlogy).sub (h1.map _)) (by simp +contextual)
    · simp only [View.entry_sub, View.entry_add, View.entry_map]
      rfl
    · exact hx.covers_three (((h1.sub hone).div h0).sub h2) (by simp +contextual)
    · simp only [View.entry_sub, View.entry_div, View.entry_scalar]
      rfl
    · exact hx.covers_three ((h1.div h2).sub h0) (by simp +contextual)
    · simp only [View.entry_sub, View.entry_div]
      rfl

/-- The four arguments of Student's t. -/
lemma Observed.covers_four (hx : Observed 4 N x) {e : View ℝ} (he : e.Conforms N)
    (hs : e.isScalar = true → (x 0).isScalar = true ∧ (x 1).isScalar = true ∧
      (x 2).isScalar = true ∧ (x 3).isScalar = true) : e.Covers N := by
  refine hx.covers he fun h k hk => ?_
  obtain ⟨h0, h1, h2, h3⟩ := hs h
  interval_cases k
  · exact h0
  · exact h1
  · exact h2
  · exact h3

theorem studentTBody_exact (hx : Observed 4 N x) (hN : N ≠ 0)
    (hsep : o.Separate 4) (hlen : ∀ k < 4, o.len k = (x k).size) :
    Exact 4 (FusedDensity.studentT.keptTerms F mask propto) (FusedDensity.studentT.dTerm F) x N mask o
      c (studentTBody F (x 0) (x 1) (x 2) (x 3) mask propto o c) := by
  have h0 := hx.conforms 0 (by decide)
  have h1 := hx.conforms 1 (by decide)
  have h2 := hx.conforms 2 (by decide)
  have h3 := hx.conforms 3 (by decide)
  have hmax : maxSizeOf [x 0, x 1, x 2, x 3] = N :=
    maxSizeOf_eq hx.conforms_list hN (by simp) hx.single_list
  have hone : View.Conforms N (View.scalar (1 : ℝ)) := View.conforms_scalar 1
  have hhalf : View.Conforms N (View.scalar (1 / 2 : ℝ)) := View.conforms_scalar _
  have hscaled : View.Conforms N ((x 0 - x 2) / x 3) := (h0.sub h2).div h3
  have hsqn : View.Conforms N ((x 0 - x 2) / x 3 * ((x 0 - x 2) / x 3) / x 1) :=
    (hscaled.mul hscaled).div h1
  unfold studentTBody
  simp only [hmax, hsqn.materialize_eq]
  generalize hz : (x 0 - x 2) / x 3 * ((x 0 - x 2) / x 3) / x 1 = z at hsqn
  have hzs : z.isScalar = ((x 0).isScalar && (x 2).isScalar && (x 3).isScalar &&
      (x 1).isScalar) := by
    rw [← hz]
    simp
  have hze : ∀ n, z.entry n =
      studentTDistance ((x 0).entry n) ((x 1).entry n) ((x 2).entry n) ((x 3).entry n) := by
    intro n
    rw [← hz, studentTDistance]
    simp only [View.entry_mul, View.entry_sub, View.entry_div]
    ring
  have hlog1p : View.Conforms N (z.map F.log1p) := hsqn.map _
  have hderiv : View.Conforms N ((x 1 + View.scalar 1) * (x 0 - x 2) /
      ((View.scalar 1 + z) * (x 3 * x 3) * x 1)) :=
    ((h1.add hone).mul (h0.sub h2)).div (((hone.add hsqn).mul (h3.mul h3)).mul h1)
  have hrep : View.Conforms N
      ((x 1 + View.scalar 1) * z / (View.scalar 1 + z) - View.scalar 1) :=
    (((h1.add hone).mul hsqn).div (hone.add hsqn)).sub hone
  have hhalfNu : View.Conforms N (View.scalar (1 / 2) * x 1) := hhalf.mul h1
  have hnext : View.Conforms N (View.scalar (1 / 2) * x 1 + View.scalar (1 / 2)) := hhalfNu.add hhalf
  have hhalf_eq : ∀ nu : ℝ, 1 / 2 * nu = nu / 2 := fun nu => by ring
  have hnext_eq : ∀ nu : ℝ, 1 / 2 * nu + 1 / 2 = (nu + 1) / 2 := fun nu => by ring
  simp only [withRef_eq hlog1p, withRef_eq hderiv, withRef_eq hrep]
  apply Exact.of_putAll hx.conforms hsep hlen hN [0, 2, 1, 3] [_, _, _, _] (by decide)
  · have hlog : ((View.scalar (1 / 2) * x 1 + View.scalar (1 / 2)) * z.map F.log1p).sum =
        ∑ n ∈ range N, ((x 1).entry n + 1) / 2 * F.log1p (z.entry n) := by
      have hcov : View.Covers N
          ((View.scalar (1 / 2) * x 1 + View.scalar (1 / 2)) * z.map F.log1p) :=
        hx.covers_four (hnext.mul hlog1p) (by simp +contextual [hzs])
      rw [View.sum_of_covers hcov]
      refine sum_congr rfl fun n _ => ?_
      simp only [View.entry_map, View.entry_mul, View.entry_add, View.entry_scalar, hnext_eq]
    have hgamma : (((View.scalar (1 / 2) * x 1 + View.scalar (1 / 2)).map F.lgamma).sum -
          ((View.scalar (1 / 2) * x 1).map F.lgamma).sum - 1 / 2 * ((x 1).map F.log).sum) * N /
            (x 1).size =
        ∑ n ∈ range N, (F.lgamma (((x 1).entry n + 1) / 2) - F.lgamma ((x 1).entry n / 2) -
          1 / 2 * F.log ((x 1).entry n)) := by
      rw [sub_mul, sub_mul, sub_div, sub_div, mul_assoc, mul_div_assoc (1 / 2 : ℝ), sum_map_scaled h1 hN,
        sum_scaled_one (hnext.map _) h1 hN (by simp), sum_scaled_one (hhalfNu.map _) h1 hN (by simp),
        mul_sum, ← sum_sub_distrib, ← sum_sub_distrib]
      refine sum_congr rfl fun n _ => ?_
      simp only [View.entry_map, View.entry_mul, View.entry_add, View.entry_scalar, hnext_eq]
      rw [hhalf_eq ((x 1).entry n)]
    rw [ite_sub_eq_keep, ite_add_eq_keep, ite_sub_eq_keep, hlog, hgamma, sum_map_scaled h3 hN,
      mul_comm _ (N : ℝ), ← sum_constant, keep_sum, keep_sum, keep_sum, ← sum_neg_distrib,
      ← sum_sub_distrib, ← sum_add_distrib, ← sum_sub_distrib]
    refine sum_congr rfl fun n _ => ?_
    simp only [FusedDensity.keptTerms, studentTKept, observation, hze]
    ring
  · refine .cons ⟨?_, fun n _ => ?_⟩ (.cons ⟨?_, fun n _ => ?_⟩ (.cons ⟨?_, fun n _ => ?_⟩
      (.cons ⟨?_, fun n _ => ?_⟩ .nil)))
    · exact hx.covers_four hderiv.neg (by simp +contextual)
    · simp only [View.entry_neg, View.entry_mul, View.entry_sub, View.entry_div, View.entry_add,
        View.entry_scalar, hze, ← sq]
      rfl
    · exact hx.covers_four hderiv (by simp +contextual)
    · simp only [View.entry_mul, View.entry_sub, View.entry_div, View.entry_add,
        View.entry_scalar, hze, ← sq]
      rfl
    · exact hx.covers_four (hhalf.mul ((((hnext.map _).sub (hhalfNu.map _)).sub hlog1p).add (hrep.div h1)))
        (by simp +contextual [hzs])
    · simp only [View.entry_mul, View.entry_sub, View.entry_div, View.entry_add, View.entry_map,
        View.entry_scalar, hze, hnext_eq]
      rw [hhalf_eq ((x 1).entry n)]
      rfl
    · exact hx.covers_four (hrep.div h3) (by simp +contextual [hzs])
    · simp only [View.entry_mul, View.entry_sub, View.entry_div, View.entry_add,
        View.entry_scalar, hze]
      rfl

/-! ### Checks -/

section Checks

variable {y mu sigma nu alpha beta : View ℝ}

lemma normalChecks_ok (hs : ∀ j < sigma.size, 0 < sigma.entry j) : normalChecks y mu sigma = .ok () := by
  rw [normalChecks, allPositive_of hs, anyNan_eq_false, allFinite_eq_true, if_neg (by simp)]
  rfl

lemma cauchyChecks_ok (hs : ∀ j < sigma.size, 0 < sigma.entry j) : cauchyChecks y mu sigma = .ok () := by
  rw [cauchyChecks, allPositiveFinite_of hs, anyNan_eq_false, allFinite_eq_true, if_neg (by simp)]
  rfl

lemma lognormalChecks_ok (hy : ∀ j < y.size, 0 < y.entry j) (hs : ∀ j < sigma.size, 0 < sigma.entry j) :
    lognormalChecks y mu sigma = .ok () := by
  have hnonneg : allNonnegative y = true :=
    View.all_eq_true.2 fun j hj => decide_eq_true (hy j hj).le
  rw [lognormalChecks, allPositiveFinite_of hs, hnonneg, allFinite_eq_true, if_neg (by simp)]
  rfl

lemma betaChecks_ok (hy : ∀ j < y.size, 0 < y.entry j ∧ y.entry j < 1)
    (ha : ∀ j < alpha.size, 0 < alpha.entry j) (hb : ∀ j < beta.size, 0 < beta.entry j) :
    betaChecks y alpha beta = .ok () := by
  have hunit : allUnitInterval y = true := by
    refine View.all_eq_true.2 fun j hj => ?_
    rw [decide_eq_true (hy j hj).1.le, decide_eq_true (hy j hj).2.le]
    rfl
  rw [betaChecks, allPositiveFinite_of ha, allPositiveFinite_of hb, hunit, if_neg (by simp)]
  rfl

lemma gammaChecks_ok (hy : ∀ j < y.size, 0 < y.entry j)
    (ha : ∀ j < alpha.size, 0 < alpha.entry j) (hb : ∀ j < beta.size, 0 < beta.entry j) :
    gammaChecks y alpha beta = .ok () := by
  rw [gammaChecks, allPositiveFinite_of hy, allPositiveFinite_of ha, allPositiveFinite_of hb,
    if_neg (by simp)]
  rfl

lemma studentTChecks_ok (hn : ∀ j < nu.size, 0 < nu.entry j) (hs : ∀ j < sigma.size, 0 < sigma.entry j) :
    studentTChecks y nu mu sigma = .ok () := by
  rw [studentTChecks, allPositiveFinite_of hn, allPositiveFinite_of hs, anyNan_eq_false,
    allFinite_eq_true, if_neg (by simp)]
  rfl

lemma foldl_min_pos {f : ℕ → ℝ} (l : List ℕ) (hl : ∀ i ∈ l, 0 < f i) {m : ℝ} (hm : 0 < m) :
    0 < l.foldl (fun m i => min m (f i)) m := by
  induction l generalizing m with
  | nil => exact hm
  | cons i l ih =>
    exact ih (fun j hj => hl j (List.mem_cons_of_mem _ hj))
      (lt_min hm (hl i (List.mem_cons_self ..)))

/-- No positive variate is zero. -/
lemma anyZero_eq_false (hy : ∀ j < y.size, 0 < y.entry j) : anyZero y = false := by
  cases y with
  | scalar x =>
    have hx : 0 < x := hy 0 Nat.zero_lt_one
    rw [anyZero, beq_eq_false_iff_ne]
    exact hx.ne'
  | array n f =>
    have hf : ∀ i < n, 0 < f i := hy
    rw [anyZero]
    by_cases hn : n = 0
    · rw [hn]
      rfl
    · have hmin : 0 < minCoeff n f :=
        foldl_min_pos _ (fun i hi => hf i (List.mem_range.1 hi)) (hf 0 (Nat.pos_of_ne_zero hn))
      rw [beq_eq_false_iff_ne.2 hmin.ne', Bool.and_false]

end Checks

/-! ### Calls -/

section Calls

variable {d : FusedDensity}

/-- A call that only clears its results: nothing is kept. -/
lemma exact_zeroResult (hsep : o.Separate d.arity) (hlen : ∀ k < d.arity, o.len k = (x k).size)
    (h : N = 0 ∨ propto = true ∧ mask = 0) :
    Exact d.arity (d.kept F mask propto) (d.dTerm F) x N mask o c (zeroResult d.arity o c) := by
  refine Exact.of_zero hsep hlen (h.imp_right fun h => ⟨h.2, fun a => ?_⟩)
  exact if_pos h

/-- Any other call keeps the terms that the body keeps. -/
lemma exact_of_terms (h : ¬(propto = true ∧ mask = 0)) {c' : Cells ℝ}
    (hb : Exact d.arity (d.keptTerms F mask propto) (d.dTerm F) x N mask o c c') :
    Exact d.arity (d.kept F mask propto) (d.dTerm F) x N mask o c c' := by
  have hkept : d.kept F mask propto = d.keptTerms F mask propto := funext fun a => if_neg h
  rwa [hkept]

/-- The first test of most kernels. -/
lemma skip_iff (hx : Observed d.arity N x) :
    (sizeZeroAny (argList d.arity x) || (propto && mask == 0)) = true ↔
      N = 0 ∨ propto = true ∧ mask = 0 := by
  rw [sizeZeroAny_eq hx.conforms_list hx.single_list]
  simp

/-- Most kernels check, and then clear their results or run their body. -/
lemma exact_checked (hx : Observed d.arity N x) (hsep : o.Separate d.arity)
    (hlen : ∀ k < d.arity, o.len k = (x k).size) {function : String} {names : List String}
    {checks : Except Refusal Unit} {rest : Except Refusal (Cells ℝ)} {body : Cells ℝ}
    (hchecks : checks = .ok ()) (hrest : rest = .ok body)
    (hb : N ≠ 0 → Exact d.arity (d.keptTerms F mask propto) (d.dTerm F) x N mask o c body) :
    ∃ c', (do
        checkSizes function names (argList d.arity x)
        checks
        if sizeZeroAny (argList d.arity x) || (propto && mask == 0) then
          return zeroResult d.arity o c
        else rest : Except Refusal (Cells ℝ)) = .ok c' ∧
      Exact d.arity (d.kept F mask propto) (d.dTerm F) x N mask o c c' := by
  rw [checkSizes_ok hx.conforms_list, hchecks, hrest]
  by_cases hskip : N = 0 ∨ propto = true ∧ mask = 0
  · exact ⟨_, if_pos ((skip_iff hx).2 hskip), exact_zeroResult hsep hlen hskip⟩
  · obtain ⟨hN, hkeep⟩ := not_or.1 hskip
    exact ⟨_, if_neg (fun h => hskip ((skip_iff hx).1 h)), exact_of_terms hkeep (hb hN)⟩

/-- The beta kernel looks for missing observations before its checks, and for propto after them. -/
lemma betaOp_exact (hx : Observed 3 N x) (hs : Supported .beta x) (hsep : o.Separate 3)
    (hlen : ∀ k < 3, o.len k = (x k).size) : ∃ c', betaOp F x mask propto o c = .ok c' ∧
      Exact 3 (FusedDensity.beta.kept F mask propto) (FusedDensity.beta.dTerm F) x N mask o c c' := by
  have hsizes : ∀ function names, checkSizes function names [x 0, x 1, x 2] = .ok () :=
    checkSizes_ok hx.conforms_list
  have hzero : sizeZeroAny [x 0, x 1, x 2] = decide (N = 0) :=
    sizeZeroAny_eq hx.conforms_list hx.single_list
  rw [betaOp, betaSummed, hsizes, hzero,
    betaChecks_ok (hs 0 (by decide)) (hs 1 (by decide)) (hs 2 (by decide))]
  by_cases hN : N = 0
  · exact ⟨_, if_pos (decide_eq_true hN), exact_zeroResult (d := .beta) hsep hlen (Or.inl hN)⟩
  · rw [if_neg (by simpa using hN)]
    by_cases hskip : propto = true ∧ mask = 0
    · exact ⟨_, if_pos (by simpa using hskip),
        exact_zeroResult (d := .beta) hsep hlen (Or.inr hskip)⟩
    · exact ⟨_, if_neg (by simpa using hskip),
        exact_of_terms (d := .beta) hskip (betaBody_exact hx hN hsep hlen)⟩

end Calls

/-- On arguments in the support a kernel does not refuse, and its results are exact. -/
theorem FusedDensity.exact_run (F : Elementary ℝ) (d : FusedDensity) (mask : ℕ) (propto : Bool)
    (hx : Observed d.arity N x) (hs : Supported d x) (hsep : o.Separate d.arity)
    (hlen : ∀ k < d.arity, o.len k = (x k).size) (c : Cells ℝ) :
    ∃ c', d.op F x mask propto o c = .ok c' ∧
      Exact d.arity (d.kept F mask propto) (d.dTerm F) x N mask o c c' := by
  cases d with
  | normal =>
    exact exact_checked (d := .normal) hx hsep hlen (normalChecks_ok (hs 2 (by decide))) rfl
      fun hN => normalBody_exact hx hN hsep hlen
  | cauchy =>
    exact exact_checked (d := .cauchy) hx hsep hlen rfl
      (by rw [cauchyChecks_ok (hs 2 (by decide))]; rfl) fun hN => cauchyBody_exact hx hN hsep hlen
  | studentT =>
    exact exact_checked (d := .studentT) hx hsep hlen
      (studentTChecks_ok (hs 1 (by decide)) (hs 3 (by decide))) rfl
      fun hN => studentTBody_exact hx hN hsep hlen
  | lognormal =>
    have hy := hs 0 (by decide)
    exact exact_checked (d := .lognormal) hx hsep hlen (lognormalChecks_ok hy (hs 2 (by decide)))
      (if_neg (by rw [anyZero_eq_false hy]; decide))
      fun hN => lognormalBody_exact hx hN hsep hlen
  | beta => exact betaOp_exact hx hs hsep hlen
  | gamma =>
    exact exact_checked (d := .gamma) hx hsep hlen
      (gammaChecks_ok (hs 0 (by decide)) (hs 1 (by decide)) (hs 2 (by decide))) rfl
      fun hN => gammaBody_exact hx hN hsep hlen

end Kernels

end Stanli.Densities
