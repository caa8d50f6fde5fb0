import Mathlib.Algebra.Order.Ring.Nat
import Mathlib.Data.List.Basic
import Mathlib.Tactic.Common

/-!
# Open addressing

Linear probing in a list of cells whose length is a power of two: from a starting place the probe goes
round the cells until it finds one to stop at.  It looks at every cell, so it stops if any cell would
have it stop; a table that is never full always has a free one.
-/

namespace Stanli

/-- `for (at = start;; at = (at + 1) & mask) if (stop(at)) return at;`, for so many rounds. -/
def probe (stop : ℕ → Bool) (mask : ℕ) : ℕ → ℕ → Option ℕ
  | 0, _ => none
  | fuel + 1, start => if stop start then some start else probe stop mask fuel ((start + 1) &&& mask)

lemma probe_stop {stop : ℕ → Bool} {mask fuel start i : ℕ}
    (h : probe stop mask fuel start = some i) : stop i = true := by
  induction fuel generalizing start with
  | zero => cases h
  | succ fuel ih =>
    rw [probe] at h
    split at h
    · rename_i hs
      rwa [← Option.some.inj h]
    · exact ih h

lemma probe_lt {stop : ℕ → Bool} {k fuel start i : ℕ} (hstart : start < 2 ^ k)
    (h : probe stop (2 ^ k - 1) fuel start = some i) : i < 2 ^ k := by
  induction fuel generalizing start with
  | zero => cases h
  | succ fuel ih =>
    rw [probe] at h
    split at h
    · rwa [← Option.some.inj h]
    · apply ih _ h
      rw [Nat.and_two_pow_sub_one_eq_mod]
      exact Nat.mod_lt _ (Nat.two_pow_pos k)

/-- The probe that fails has looked at every place it came by. -/
lemma probe_eq_none {stop : ℕ → Bool} {k fuel start : ℕ} (hstart : start < 2 ^ k)
    (h : probe stop (2 ^ k - 1) fuel start = none) {d : ℕ} (hd : d < fuel) :
    stop ((start + d) % 2 ^ k) = false := by
  induction fuel generalizing start d with
  | zero => omega
  | succ fuel ih =>
    rw [probe] at h
    split at h
    · cases h
    · rename_i hs
      cases d with
      | zero =>
        rw [Nat.add_zero, Nat.mod_eq_of_lt hstart]
        exact Bool.eq_false_iff.2 hs
      | succ d =>
        rw [Nat.and_two_pow_sub_one_eq_mod] at h
        have hrest := ih (Nat.mod_lt _ (Nat.two_pow_pos k)) h (Nat.lt_of_succ_lt_succ hd)
        rwa [Nat.mod_add_mod, Nat.add_right_comm, Nat.add_assoc] at hrest

/-- As many rounds as there are cells reach every cell. -/
theorem probe_isSome {stop : ℕ → Bool} {k start i : ℕ} (hstart : start < 2 ^ k) (hi : i < 2 ^ k)
    (hs : stop i = true) : (probe stop (2 ^ k - 1) (2 ^ k) start).isSome = true := by
  rw [Option.isSome_iff_ne_none]
  intro hnone
  rcases Nat.le_total start i with hle | hle
  · have h := probe_eq_none hstart hnone (d := i - start) (by omega)
    rw [Nat.add_sub_cancel' hle, Nat.mod_eq_of_lt hi, hs] at h
    cases h
  · rcases Nat.eq_or_lt_of_le hle with rfl | hlt
    · have h := probe_eq_none hstart hnone (d := 0) (Nat.two_pow_pos k)
      rw [Nat.add_zero, Nat.mod_eq_of_lt hi, hs] at h
      cases h
    · have h := probe_eq_none hstart hnone (d := 2 ^ k - start + i) (by omega)
      rw [show start + (2 ^ k - start + i) = i + 2 ^ k by omega, Nat.add_mod_right,
        Nat.mod_eq_of_lt hi, hs] at h
      cases h

/-- A list that does not consist of such elements only has another one. -/
lemma exists_of_countP_lt {α : Type*} {p : α → Bool} {l : List α} (h : l.countP p < l.length) :
    ∃ i, ∃ hi : i < l.length, p l[i] = false := by
  by_contra hcon
  push Not at hcon
  apply Nat.ne_of_lt h
  apply List.countP_eq_length.2
  intro a ha
  obtain ⟨i, hi, rfl⟩ := List.getElem_of_mem ha
  exact Bool.of_not_eq_false (hcon i hi)

end Stanli
