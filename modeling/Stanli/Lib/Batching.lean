import Mathlib.Data.List.Basic
import Mathlib.Data.Nat.Notation
import Mathlib.Tactic.Common

/-!
# Sequences with batches

A sequence of steps, some of them replaced by batches of small operations.  It is stored in three
parallel lists: the steps, with a hole where a batch stands; the operations of all batches one behind
the other; and for each batch a mark with its bounds in the list of operations and its position among
the steps.

Such a sequence is walked in two ways.  The dense walk looks at every step and takes the next mark at
a hole (`walkDense`); the sparse walk goes from mark to mark and runs the steps in between without
looking (`walkSparse`).  On the lists that store a sequence both perform it (`walkDense_items`,
`walkSparse_items`).
-/

namespace Stanli

variable {κ μ σ : Type*}

/-- Where a batch is: its bounds among the operations, and its position among the steps. -/
structure Mark where
  first : ℕ
  last : ℕ
  at_ : ℕ
deriving DecidableEq, Repr

/-- One step, or a batch in its place. -/
inductive Item (κ μ : Type*)
  | step (k : κ)
  | batch (ms : List μ)

namespace Item

/-- The step of an item: a batch leaves a hole. -/
def hole : Item κ μ → Option κ
  | step k => some k
  | batch _ => none

/-- The operations of an item. -/
def micros : Item κ μ → List μ
  | step _ => []
  | batch ms => ms

/-- What an item does. -/
def perform (runStep : κ → σ → σ) (runMicro : μ → σ → σ) : Item κ μ → σ → σ
  | step k, s => runStep k s
  | batch ms, s => ms.foldl (fun s m => runMicro m s) s

end Item

/-- The marks of a sequence that follows `m` operations and `a` steps. -/
def marksFrom : ℕ → ℕ → List (Item κ μ) → List Mark
  | _, _, [] => []
  | m, a, .step _ :: is => marksFrom m (a + 1) is
  | m, a, .batch ms :: is => ⟨m, m + ms.length, a⟩ :: marksFrom (m + ms.length) (a + 1) is

/-! ## The walks -/

section Walk

variable (runStep : κ → σ → σ) (runMicro : μ → σ → σ)

/-- The operations in `[first, last)`; bounds that are no range of the list are an error. -/
def runRange (ms : List μ) (first last : ℕ) (s : σ) : Option σ :=
  if first ≤ last ∧ last ≤ ms.length then
    some (((ms.take last).drop first).foldl (fun s m => runMicro m s) s)
  else none

/-- A step; a hole is an error. -/
def runPlain (s : σ) (k : Option κ) : Option σ := k.map fun k => runStep k s

/-- Steps one by one, unrolled by four. -/
def runFours : List (Option κ) → σ → Option σ
  | a :: b :: c :: d :: ks, s => do
    let s ← runPlain runStep s a
    let s ← runPlain runStep s b
    let s ← runPlain runStep s c
    let s ← runPlain runStep s d
    runFours ks s
  | ks, s => ks.foldlM (runPlain runStep) s

/-- The steps in `[first, last)`. -/
def runSteps (ks : List (Option κ)) (first last : ℕ) (s : σ) : Option σ :=
  if last ≤ ks.length then runFours runStep ((ks.take last).drop first) s else none

/-- Look at every step and take the next mark at a hole. -/
def walkDense (ms : List μ) : List (Option κ) → List Mark → σ → Option σ
  | [], _, s => some s
  | some k :: ks, rs, s => walkDense ms ks rs (runStep k s)
  | none :: ks, r :: rs, s => (runRange runMicro ms r.first r.last s).bind (walkDense ms ks rs)
  | none :: _, [], _ => none

/-- Go from mark to mark and run the steps in between. -/
def walkSparse (ms : List μ) (ks : List (Option κ)) : List Mark → ℕ → σ → Option σ
  | [], pos, s => runSteps runStep ks pos ks.length s
  | r :: rs, pos, s =>
    ((runSteps runStep ks pos r.at_ s).bind (runRange runMicro ms r.first r.last)).bind
      (walkSparse ms ks rs (r.at_ + 1))

/-! ## What they do -/

variable {runStep runMicro}

lemma runFours_eq (ks : List (Option κ)) (s : σ) :
    runFours runStep ks s = ks.foldlM (runPlain runStep) s := by
  induction ks, s using runFours.induct with
  | case1 a b c d ks s ih =>
    rw [runFours]
    simp only [List.foldlM_cons]
    cases a <;> cases b <;> cases c <;> cases d <;> try rfl
    exact ih _
  | case2 ks s h =>
    unfold runFours
    split
    · exact absurd rfl (h _ _ _ _ _)
    · rfl

lemma foldlM_runPlain (js : List κ) (s : σ) :
    (js.map some).foldlM (runPlain runStep) s = some (js.foldl (fun s k => runStep k s) s) := by
  induction js generalizing s with
  | nil => rfl
  | cons j js ih => exact ih (runStep j s)

/-- Steps without holes in between are run in order. -/
lemma runSteps_append (ks ks' : List (Option κ)) (js : List κ) (s : σ) :
    runSteps runStep (ks ++ js.map some ++ ks') ks.length (ks.length + js.length) s =
      some (js.foldl (fun s k => runStep k s) s) := by
  have htake : ((ks ++ js.map some ++ ks').take (ks.length + js.length)).drop ks.length =
      js.map some := by
    rw [List.take_append_of_le_length (by simp), List.take_of_length_le (by simp),
      List.drop_left' rfl]
  rw [runSteps, if_pos (by simp), htake, runFours_eq, foldlM_runPlain]

/-- A batch among the operations is run in order. -/
lemma runRange_append (ms js ms' : List μ) (s : σ) :
    runRange runMicro (ms ++ js ++ ms') ms.length (ms.length + js.length) s =
      some (js.foldl (fun s m => runMicro m s) s) := by
  have htake : ((ms ++ js ++ ms').take (ms.length + js.length)).drop ms.length = js := by
    rw [List.take_append_of_le_length (by simp), List.take_of_length_le (by simp),
      List.drop_left' rfl]
  rw [runRange, if_pos (by simp), htake]

/-- The dense walk over a stored sequence performs its items in order. -/
theorem walkDense_items (items : List (Item κ μ)) (ms : List μ) (a : ℕ) (s : σ) :
    walkDense runStep runMicro (ms ++ items.flatMap Item.micros) (items.map Item.hole)
      (marksFrom ms.length a items) s =
      some (items.foldl (fun s i => i.perform runStep runMicro s) s) := by
  induction items generalizing ms a s with
  | nil => rfl
  | cons i items ih =>
    cases i with
    | step k => exact ih ms (a + 1) (runStep k s)
    | batch js =>
      rw [List.flatMap_cons, List.map_cons, marksFrom]
      simp only [Item.micros, Item.hole, walkDense]
      rw [← List.append_assoc, runRange_append, Option.bind_some, ← List.length_append]
      exact ih (ms ++ js) (a + 1) _

/-- The sparse walk performs the items in order, after the steps it has passed without running. -/
theorem walkSparse_items (items : List (Item κ μ)) (ms : List μ) (ks : List (Option κ)) (js : List κ)
    (s : σ) :
    walkSparse runStep runMicro (ms ++ items.flatMap Item.micros)
      (ks ++ js.map some ++ items.map Item.hole)
      (marksFrom ms.length (ks.length + js.length) items) ks.length s =
      some (items.foldl (fun s i => i.perform runStep runMicro s)
        (js.foldl (fun s k => runStep k s) s)) := by
  induction items generalizing ms ks js s with
  | nil =>
    have hrun : runSteps runStep (ks ++ js.map some ++ []) ks.length (ks.length + js.length) s = _ :=
      runSteps_append ks [] js s
    simp only [List.append_nil] at hrun
    simpa [marksFrom, walkSparse] using hrun
  | cons i items ih =>
    cases i with
    | step k =>
      have := ih ms ks (js ++ [k]) s
      simpa [marksFrom, Item.micros, Item.hole, Item.perform, Nat.add_assoc] using this
    | batch bs =>
      rw [List.flatMap_cons, List.map_cons, marksFrom]
      simp only [Item.micros, Item.hole, walkSparse]
      rw [runSteps_append, Option.bind_some, ← List.append_assoc, runRange_append,
        Option.bind_some]
      have hlen : (ks ++ js.map some ++ [none]).length = ks.length + js.length + 1 := by
        simp [Nat.add_assoc]
      have := ih (ms ++ bs) (ks ++ js.map some ++ [none]) []
        (bs.foldl (fun s m => runMicro m s) (js.foldl (fun s k => runStep k s) s))
      rw [hlen, List.length_append, List.map_nil, List.append_nil, List.append_assoc _ [none]] at this
      exact this

end Walk

lemma marksFrom_append (is js : List (Item κ μ)) (m a : ℕ) : marksFrom m a (is ++ js) =
    marksFrom m a is ++ marksFrom (m + (is.flatMap Item.micros).length) (a + is.length) js := by
  induction is generalizing m a with
  | nil => rfl
  | cons i is ih =>
    cases i with
    | step k =>
      rw [List.cons_append, marksFrom, marksFrom, ih, List.length_cons, List.flatMap_cons,
        Nat.add_right_comm a, Nat.add_assoc a]
      rfl
    | batch ms =>
      rw [List.cons_append, marksFrom, marksFrom, ih, List.length_cons, List.flatMap_cons,
        List.length_append, Nat.add_right_comm a, Nat.add_assoc a, Nat.add_assoc m]
      rfl

/-- Steps have no marks. -/
lemma marksFrom_steps (ks : List κ) (m a : ℕ) :
    marksFrom m a (ks.map (Item.step (μ := μ))) = [] := by
  induction ks generalizing a with
  | nil => rfl
  | cons k ks ih => exact ih (a + 1)

/-- Marks stay within the operations and the steps. -/
lemma le_of_mem_marksFrom {is : List (Item κ μ)} {m a : ℕ} {r : Mark} (h : r ∈ marksFrom m a is) :
    r.first ≤ m + (is.flatMap Item.micros).length ∧ r.last ≤ m + (is.flatMap Item.micros).length ∧
      r.at_ < a + is.length := by
  induction is generalizing m a with
  | nil => simp [marksFrom] at h
  | cons i is ih =>
    cases i with
    | step k =>
      have := ih h
      simp only [List.flatMap_cons, Item.micros, List.nil_append, List.length_cons]
      omega
    | batch ms =>
      simp only [List.flatMap_cons, Item.micros, List.length_append, List.length_cons]
      rcases List.mem_cons.1 h with rfl | h
      · dsimp only
        omega
      · have := ih h
        omega

end Stanli
