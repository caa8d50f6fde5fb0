import Mathlib.Algebra.Order.Group.Nat
import Mathlib.Data.List.GetD
import Mathlib.Tactic.Common

/-!
# Runs of a periodic key

A scan over a list often asks how many entries, each a fixed period after the last, share the key of
the first one.  `runAhead` answers it for every position in one pass from the end, and `countUp` is
the loop that counts consecutive numbers with a property.  A count that stops early at a bound no
run of the property exceeds is the same count.
-/

namespace Stanli

variable {κ : Type*}

section RunAhead

variable [DecidableEq κ]

/-- For each position, how many more entries, one every `P` positions, carry its key. -/
def runAhead (P : ℕ) : List κ → List ℕ
  | [] => []
  | key :: keys =>
    let later := runAhead P keys
    (if keys[P - 1]? = some key then later.getD (P - 1) 0 + 1 else 0) :: later

@[simp] lemma length_runAhead (P : ℕ) (keys : List κ) :
    (runAhead P keys).length = keys.length := by
  induction keys with
  | nil => rfl
  | cons key keys ih => simp [runAhead, ih]

/-- A run of equal keys is no longer than the recorded one. -/
lemma le_runAhead {P : ℕ} (hP : 0 < P) {keys : List κ} {k l : ℕ} (hk : k < keys.length)
    (hrun : ∀ m, m ≤ l → keys[k + m * P]? = keys[k]?) : l ≤ (runAhead P keys).getD k 0 := by
  induction keys generalizing k l with
  | nil => exact absurd hk (Nat.not_lt_zero k)
  | cons key keys ih =>
    cases k with
    | succ k =>
      have hk' : k < keys.length := by simpa using hk
      have hrun' : ∀ m, m ≤ l → keys[k + m * P]? = keys[k]? := by
        intro m hm
        have h := hrun m hm
        rw [Nat.succ_add, List.getElem?_cons_succ, List.getElem?_cons_succ] at h
        exact h
      simpa [runAhead] using ih hk' hrun'
    | zero =>
      cases l with
      | zero => exact Nat.zero_le _
      | succ l =>
        obtain ⟨Q, rfl⟩ : ∃ Q, P = Q + 1 := ⟨P - 1, by omega⟩
        -- the tail of the run starts one period on
        have hat : ∀ m, m ≤ l → keys[Q + m * (Q + 1)]? = some key := by
          intro m hm
          have h := hrun (m + 1) (Nat.succ_le_succ hm)
          have he : 0 + (m + 1) * (Q + 1) = Q + m * (Q + 1) + 1 := by
            rw [Nat.succ_mul]
            omega
          rw [he, List.getElem?_cons_succ] at h
          simpa using h
        have hfirst : keys[Q]? = some key := by simpa using hat 0 (Nat.zero_le l)
        have hQ : Q < keys.length := (List.getElem?_eq_some_iff.1 hfirst).1
        have hl : l ≤ (runAhead (Q + 1) keys).getD Q 0 :=
          ih hQ fun m hm => (hat m hm).trans hfirst.symm
        have hhead : (runAhead (Q + 1) (key :: keys)).getD 0 0
            = (runAhead (Q + 1) keys).getD Q 0 + 1 := by
          simp [runAhead, hfirst]
        rw [hhead]
        exact Nat.succ_le_succ hl

end RunAhead

section CountUp

/-- `while ok L do L := L + 1`, at most `fuel` times. -/
def countUp (ok : ℕ → Bool) : ℕ → ℕ → ℕ
  | 0, L => L
  | fuel + 1, L => if ok L = true then countUp ok fuel (L + 1) else L

lemma le_countUp (ok : ℕ → Bool) (fuel L : ℕ) : L ≤ countUp ok fuel L := by
  induction fuel generalizing L with
  | zero => exact le_refl L
  | succ fuel ih =>
    rw [countUp]
    split
    · exact le_trans (Nat.le_succ L) (ih (L + 1))
    · exact le_refl L

/-- Every number the count has passed has the property. -/
lemma countUp_ok {ok : ℕ → Bool} {fuel L m : ℕ} (hL : L ≤ m) (hm : m < countUp ok fuel L) :
    ok m = true := by
  induction fuel generalizing L with
  | zero => exact absurd hm (Nat.not_lt.2 hL)
  | succ fuel ih =>
    rw [countUp] at hm
    split at hm
    · rename_i hok
      rcases Nat.lt_or_ge L m with h | h
      · exact ih h hm
      · rwa [Nat.le_antisymm h hL]
    · exact absurd hm (Nat.not_lt.2 hL)

/-- A bound that no run of the property exceeds is not exceeded by the count. -/
lemma countUp_le {ok : ℕ → Bool} {fuel L cap : ℕ} (hL : L ≤ cap + 1)
    (hcap : ∀ l, L ≤ l → (∀ m, L ≤ m → m ≤ l → ok m = true) → l ≤ cap) :
    countUp ok fuel L ≤ cap + 1 := by
  rcases Nat.lt_or_ge L (countUp ok fuel L) with h | h
  · have hrun : ∀ m, L ≤ m → m ≤ countUp ok fuel L - 1 → ok m = true := by
      intro m hLm hm
      have hlt : m < countUp ok fuel L := by omega
      exact countUp_ok hLm hlt
    have hl := hcap (countUp ok fuel L - 1) (by omega) hrun
    omega
  · exact le_trans h hL

/-- Capping the loop at a bound that no run of the property exceeds does not change the count. -/
lemma countUp_capped {ok : ℕ → Bool} {fuel L₀ L cap : ℕ} (hL : L₀ ≤ L)
    (hbefore : ∀ m, L₀ ≤ m → m < L → ok m = true)
    (hcap : ∀ l, L₀ ≤ l → (∀ m, L₀ ≤ m → m ≤ l → ok m = true) → l ≤ cap) :
    countUp (fun l => decide (l ≤ cap) && ok l) fuel L = countUp ok fuel L := by
  induction fuel generalizing L with
  | zero => rfl
  | succ fuel ih =>
    rw [countUp, countUp]
    by_cases hok : ok L = true
    · have hall : ∀ m, L₀ ≤ m → m ≤ L → ok m = true := by
        intro m h₀ hm
        rcases Nat.lt_or_ge m L with h | h
        · exact hbefore m h₀ h
        · rwa [Nat.le_antisymm hm h]
      have hle : L ≤ cap := hcap L hL hall
      rw [if_pos hok, if_pos (by simp [hle, hok])]
      exact ih (Nat.le_succ_of_le hL) fun m h₀ hm => hall m h₀ (Nat.le_of_lt_succ hm)
    · rw [if_neg hok, if_neg (by simp [hok])]

end CountUp

end Stanli
