import Mathlib.Tactic.Ring
import Stanli.Collapse.ClosedForms
import Stanli.Lib.Accumulate

/-!
# What the grouped statistics hold

Over a field a compensated sum is a sum, so the columns of `grouped_statistics` are the count of each
group, its centre, and the first two moments of the observations around that centre.  From them the
second moment around any other point follows, whatever the centre is.
-/

namespace Stanli.Collapse

variable {α : Type*} [Field α]

namespace Compensated

@[simp] theorem value_empty : ({} : Compensated α).value = 0 := add_zero 0

@[simp] theorem value_add (c : Compensated α) (x : α) : (c.add x).value = c.value + x := by
  simp only [add, value]
  ring

@[simp] theorem value_addProduct (c : Compensated α) (x y : α) :
    (c.addProduct x y).value = c.value + x * y := by
  simp only [addProduct, value_add]
  ring

theorem value_foldl_add (l : List α) (c : Compensated α) :
    (l.foldl add c).value = c.value + l.sum := by
  induction l generalizing c with
  | nil => simp
  | cons x l ih => rw [List.foldl_cons, ih, value_add, List.sum_cons, add_assoc]

end Compensated

/-! ## Sums over a group -/

/-- The sum of `w` over the observations of group `g`. -/
def groupSum (obs : List (Observation α)) (w : α → α) (g : ℕ) : α :=
  gather (obs.map fun o => (o.2, w o.1)) g

theorem groupSum_cons (o : Observation α) (obs : List (Observation α)) (w : α → α) (g : ℕ) :
    groupSum (o :: obs) w g = (if o.2 = g then w o.1 else 0) + groupSum obs w g := by
  rw [groupSum, List.map_cons, gather_cons, groupSum]

theorem groupSum_add (obs : List (Observation α)) (v w : α → α) (g : ℕ) :
    groupSum obs (fun y => v y + w y) g = groupSum obs v g + groupSum obs w g := by
  induction obs with
  | nil => simp [groupSum]
  | cons o obs ih =>
    rw [groupSum_cons, groupSum_cons, groupSum_cons, ih]
    split <;> ring

theorem groupSum_mul_left (obs : List (Observation α)) (c : α) (w : α → α) (g : ℕ) :
    groupSum obs (fun y => c * w y) g = c * groupSum obs w g := by
  induction obs with
  | nil => simp [groupSum]
  | cons o obs ih =>
    rw [groupSum_cons, groupSum_cons, ih]
    split <;> ring

/-- The number of observations in group `g`. -/
def groupCount (obs : List (Observation α)) (g : ℕ) : α := groupSum obs (fun _ => 1) g

theorem groupSum_const (obs : List (Observation α)) (c : α) (g : ℕ) :
    groupSum obs (fun _ => c) g = c * groupCount obs g := by
  rw [groupCount, ← groupSum_mul_left, mul_one]

/-- The terms may depend on the group. -/
theorem groupSum_eq_gather (obs : List (Observation α)) (w : ℕ → α → α) (g : ℕ) :
    groupSum obs (w g) g = gather (obs.map fun o => (o.2, w o.2 o.1)) g := by
  induction obs with
  | nil => rfl
  | cons o obs ih =>
    rw [groupSum_cons, List.map_cons, gather_cons, ih]
    by_cases ho : o.2 = g
    · rw [if_pos ho, if_pos ho, ho]
    · rw [if_neg ho, if_neg ho]

/-- A sum over all observations, one group after the other. -/
theorem sum_groupSum {obs : List (Observation α)} {groups : ℕ} (hobs : ∀ o ∈ obs, o.2 < groups)
    (w : ℕ → α → α) :
    ∑ g ∈ Finset.range groups, groupSum obs (w g) g = (obs.map fun o => w o.2 o.1).sum := by
  rw [Finset.sum_congr rfl fun g _ => groupSum_eq_gather obs w g, sum_gather]
  · rw [List.map_map]
    rfl
  · intro e he
    obtain ⟨o, ho, rfl⟩ := List.mem_map.1 he
    exact hobs o ho

/-! ## The columns -/

theorem countLoop_fst (obs : List (Observation α)) (g : ℕ) :
    (countLoop obs).1 g = groupCount obs g := by
  rw [countLoop, List.foldl_hom₂ obs Prod.mk
    (fun count o => Function.update count o.2 (count o.2 + 1))
    (fun sum o => Function.update sum o.2 ((sum o.2).add o.1)) _ _ _ fun _ _ _ => rfl]
  have h := view_foldl_update (id : α → α) (k := Prod.snd) (f := fun a _ => a + 1)
    (w := fun _ : Observation α => 1) (fun _ _ => rfl) obs (fun _ => 0) g
  exact h.trans (zero_add _)

/-- What `residualLoop` adds to `first` at an observation. -/
def firstStep (centre : ℕ → α) (c : Compensated α) (o : Observation α) : Compensated α :=
  let s := o.1 - centre o.2
  let v := s - o.1
  let e := (o.1 - (s - v)) - (centre o.2 + v)
  (c.add s).add e

/-- What `residualLoop` adds to `second` at an observation. -/
def secondStep (centre : ℕ → α) (c : Compensated α) (o : Observation α) : Compensated α :=
  let s := o.1 - centre o.2
  let v := s - o.1
  let e := (o.1 - (s - v)) - (centre o.2 + v)
  (c.addProduct s s).add (2 * s * e)

theorem residualLoop_eq (centre : ℕ → α) (obs : List (Observation α)) :
    residualLoop centre obs =
      (obs.foldl (fun (first : ℕ → Compensated α) (o : Observation α) =>
          Function.update first o.2 (firstStep centre (first o.2) o)) fun _ => {},
        obs.foldl (fun (second : ℕ → Compensated α) (o : Observation α) =>
          Function.update second o.2 (secondStep centre (second o.2) o)) fun _ => {}) :=
  List.foldl_hom₂ obs Prod.mk _ _ _ _ _ fun _ _ _ => rfl

theorem value_firstStep (centre : ℕ → α) (c : Compensated α) (o : Observation α) :
    (firstStep centre c o).value = c.value + (o.1 - centre o.2) := by
  simp only [firstStep, Compensated.value_add]
  ring

theorem value_secondStep (centre : ℕ → α) (c : Compensated α) (o : Observation α) :
    (secondStep centre c o).value = c.value + (o.1 - centre o.2) ^ 2 := by
  simp only [secondStep, Compensated.value_add, Compensated.value_addProduct]
  ring

theorem residualLoop_fst (centre : ℕ → α) (obs : List (Observation α)) (g : ℕ) :
    ((residualLoop centre obs).1 g).value = groupSum obs (fun y => y - centre g) g := by
  rw [residualLoop_eq, groupSum_eq_gather obs fun g y => y - centre g]
  have h := view_foldl_update Compensated.value (k := Prod.snd) (f := firstStep centre)
    (w := fun o => o.1 - centre o.2) (value_firstStep centre) obs (fun _ => {}) g
  rw [Compensated.value_empty, zero_add] at h
  exact h

theorem residualLoop_snd (centre : ℕ → α) (obs : List (Observation α)) (g : ℕ) :
    ((residualLoop centre obs).2 g).value = groupSum obs (fun y => (y - centre g) ^ 2) g := by
  rw [residualLoop_eq, groupSum_eq_gather obs fun g y => (y - centre g) ^ 2]
  have h := view_foldl_update Compensated.value (k := Prod.snd) (f := secondStep centre)
    (w := fun o => (o.1 - centre o.2) ^ 2) (value_secondStep centre) obs (fun _ => {}) g
  rw [Compensated.value_empty, zero_add] at h
  exact h

/-- An entry of the first of several columns. -/
theorem getD_column (f : ℕ → α) (rest : List α) {n g : ℕ} (hg : g < n) :
    ((List.range n).map f ++ rest).getD g 0 = f g := by
  rw [List.getD_append _ _ _ _ (by rwa [List.length_map, List.length_range])]
  simp [List.getD_eq_getElem?_getD, hg]

/-- An entry behind the first column. -/
theorem getD_column_add (f : ℕ → α) (rest : List α) (n i : ℕ) :
    ((List.range n).map f ++ rest).getD (n + i) 0 = rest.getD i 0 := by
  rw [List.getD_append_right _ _ _ _ (by simp)]
  simp

/-- Statistics that hold the count of each group and the moments of its observations around the
group's centre. -/
structure Statistics.Holds (st : Statistics α) (obs : List (Observation α)) : Prop where
  count : ∀ g < st.groups, st.count g = groupCount obs g
  offset : ∀ g < st.groups, st.offset g = groupSum obs (fun y => y - st.centre g) g
  squares : ∀ g < st.groups, st.squares g = groupSum obs (fun y => (y - st.centre g) ^ 2) g

@[simp] theorem length_groupedStatisticsAt (centre : ℕ → α) (obs : List (Observation α))
    (groups : ℕ) : (groupedStatisticsAt centre obs groups).length = kGroupedStatColumns * groups := by
  simp only [groupedStatisticsAt, List.length_append, List.length_map, List.length_range,
    kGroupedStatColumns]
  omega

/-- The columns as functions of the group. -/
theorem ofList_columns (count centre offset squares : ℕ → α) {groups g : ℕ} (hg : g < groups) :
    let st := Statistics.ofList groups ((List.range groups).map count ++
      (List.range groups).map centre ++ (List.range groups).map offset ++
        (List.range groups).map squares)
    st.count g = count g ∧ st.centre g = centre g ∧ st.offset g = offset g ∧
      st.squares g = squares g := by
  simp only [Statistics.ofList, List.append_assoc, Nat.add_assoc, getD_column_add]
  refine ⟨getD_column _ _ hg, getD_column _ _ hg, getD_column _ _ hg, ?_⟩
  have h := getD_column squares [] hg
  rwa [List.append_nil] at h

/-- What the columns of `grouped_statistics` hold, around any centre. -/
theorem ofList_groupedStatisticsAt_holds (centre : ℕ → α) (obs : List (Observation α)) (groups : ℕ) :
    (Statistics.ofList groups (groupedStatisticsAt centre obs groups)).Holds obs := by
  have hcolumns := fun g (hg : g < groups) => ofList_columns (countLoop obs).1 centre
    (fun k => ((residualLoop centre obs).1 k).value) (fun k => ((residualLoop centre obs).2 k).value)
    hg
  refine ⟨fun g hg => ?_, fun g hg => ?_, fun g hg => ?_⟩
  all_goals obtain ⟨hcount, hcentre, hoffset, hsquares⟩ := hcolumns g hg
  · exact hcount.trans (countLoop_fst obs g)
  · rw [groupedStatisticsAt, hoffset, hcentre]
    exact residualLoop_fst centre obs g
  · rw [groupedStatisticsAt, hsquares, hcentre]
    exact residualLoop_snd centre obs g

/-! ## Moments around another point -/

namespace Statistics.Holds

variable {st : Statistics α} {obs : List (Observation α)}

theorem first_moment (h : st.Holds obs) {g : ℕ} (hg : g < st.groups) (m : α) :
    groupSum obs (fun y => y - m) g = st.count g * (st.centre g - m) + st.offset g := by
  have hsplit : (fun y : α => y - m) = fun y => y - st.centre g + (st.centre g - m) :=
    funext fun y => (sub_add_sub_cancel y _ m).symm
  rw [hsplit, groupSum_add, groupSum_const, ← h.offset g hg, ← h.count g hg]
  ring

/-- `S + 2 r d + n r^2` is the second moment around any point. -/
theorem second_moment (h : st.Holds obs) {g : ℕ} (hg : g < st.groups) (m : α) :
    groupSum obs (fun y => (y - m) ^ 2) g =
      st.squares g + 2 * (st.centre g - m) * st.offset g +
        st.count g * (st.centre g - m) * (st.centre g - m) := by
  have hsplit : (fun y : α => (y - m) ^ 2) = fun y =>
      (y - st.centre g) ^ 2 +
        (2 * (st.centre g - m) * (y - st.centre g) + (st.centre g - m) * (st.centre g - m)) := by
    funext y
    ring
  rw [hsplit, groupSum_add, groupSum_add, groupSum_mul_left, groupSum_const, ← h.squares g hg,
    ← h.offset g hg, ← h.count g hg]
  ring

end Statistics.Holds

end Stanli.Collapse
