import Mathlib.Data.List.Basic
import Mathlib.Logic.Function.Basic
import Mathlib.Tactic.Common

/-!
# Taking back an attempt

Three ways to return to an earlier state without a copy of it.  A list that only grows is cut to its
length; the entries of a map under given keys are saved and put back; a map whose writes leave what they
overwrote in a journal is undone to a mark.
-/

namespace Stanli

universe u v

variable {K : Type u} {V : Type v} [DecidableEq K]

/-! ## Lists that only grow -/

/-- A list cut to the length it had. -/
theorem take_prefix_length {α : Type*} {old new : List α} (h : old <+: new) :
    new.take old.length = old := by
  obtain ⟨tail, rfl⟩ := h
  rw [List.take_left']
  rfl

/-! ## Saved entries -/

/-- The entries of the map under these keys. -/
def saveNamed (m : K → Option V) (keys : List K) : List (K × Option V) := keys.map fun k => (k, m k)

/-- Put the saved entries back. -/
def restoreNamed (m : K → Option V) (saves : List (K × Option V)) : K → Option V :=
  saves.foldl (fun m save => Function.update m save.1 save.2) m

theorem restoreNamed_saveNamed (m m' : K → Option V) (keys : List K) (k : K) :
    restoreNamed m' (saveNamed m keys) k = if k ∈ keys then m k else m' k := by
  induction keys generalizing m' with
  | nil => simp [restoreNamed, saveNamed]
  | cons key keys ih =>
    have hstep : restoreNamed m' (saveNamed m (key :: keys)) =
        restoreNamed (Function.update m' key (m key)) (saveNamed m keys) := rfl
    rw [hstep, ih, Function.update_apply]
    by_cases hk : k = key
    · subst hk
      simp
    · simp [hk]

/-! ## Journals -/

/-- A map and what its writes overwrote, the last write first. -/
@[ext] structure Journaled (K : Type u) (V : Type v) where
  map : K → Option V
  journal : List (K × Option V)

/-- A write that leaves what it overwrites in the journal. -/
def Journaled.write (s : Journaled K V) (k : K) (v : Option V) : Journaled K V :=
  ⟨Function.update s.map k v, (k, s.map k) :: s.journal⟩

/-- Undo the writes of a journal, the last first, until as many are left. -/
def undoTo (mark : ℕ) : (K → Option V) → List (K × Option V) → Journaled K V
  | m, [] => ⟨m, []⟩
  | m, entry :: journal =>
    if mark ≤ journal.length then undoTo mark (Function.update m entry.1 entry.2) journal
    else ⟨m, entry :: journal⟩

def Journaled.rollback (s : Journaled K V) (mark : ℕ) : Journaled K V := undoTo mark s.map s.journal

theorem undoTo_length (m : K → Option V) (journal : List (K × Option V)) :
    undoTo journal.length m journal = ⟨m, journal⟩ := by
  cases journal with
  | nil => rfl
  | cons entry journal =>
    rw [undoTo, if_neg]
    simp

/-- Nothing has been written since the mark. -/
@[simp] theorem Journaled.rollback_length (s : Journaled K V) : s.rollback s.journal.length = s :=
  undoTo_length _ _

/-- Undoing a write gives what undoing gave before it. -/
theorem Journaled.rollback_write (s : Journaled K V) (k : K) (v : Option V) {mark : ℕ}
    (h : mark ≤ s.journal.length) : (s.write k v).rollback mark = s.rollback mark := by
  have hback : Function.update (Function.update s.map k v) k (s.map k) = s.map := by
    rw [Function.update_idem, Function.update_eq_self]
  rw [Journaled.rollback, Journaled.write, undoTo, if_pos h, hback]
  rfl

/-- Undoing in two steps. -/
theorem undoTo_undoTo {mark later : ℕ} (h : mark ≤ later) (m : K → Option V)
    (journal : List (K × Option V)) :
    undoTo mark (undoTo later m journal).map (undoTo later m journal).journal =
      undoTo mark m journal := by
  induction journal generalizing m with
  | nil => rfl
  | cons entry journal ih =>
    by_cases hlater : later ≤ journal.length
    · rw [undoTo, if_pos hlater, ih, undoTo, if_pos (Nat.le_trans h hlater)]
    · rw [undoTo, if_neg hlater]

theorem Journaled.rollback_rollback (s : Journaled K V) {mark later : ℕ} (h : mark ≤ later) :
    (s.rollback later).rollback mark = s.rollback mark :=
  undoTo_undoTo h s.map s.journal

end Stanli
