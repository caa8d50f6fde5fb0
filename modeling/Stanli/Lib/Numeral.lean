import Mathlib.Data.Nat.Digits.Defs
import Mathlib.Data.Nat.Digits.Lemmas
import Mathlib.Tactic.Ring

namespace Stanli

/-! ### 32-bit integers as text

The reader of integer literals of a 32-bit type (an optional sign, an optional base prefix, digits
with underscores between them, an unsigned range behind a prefix), and the decimal spelling, which
it reads back. -/

/-- The value of a digit in some base up to 16. -/
def parseDigit (c : UInt8) : Option ℕ :=
  if 48 ≤ c ∧ c ≤ 57 then some (c.toNat - 48)
  else if 65 ≤ c ∧ c ≤ 70 then some (c.toNat - 65 + 10)
  else if 97 ≤ c ∧ c ≤ 102 then some (c.toNat - 97 + 10)
  else none

/-- Read digits into `res`; underscores are skipped. -/
def parseDigits (base res : ℕ) : List UInt8 → Option ℕ
  | [] => some res
  | c :: cs =>
    if c = 95 then parseDigits base res cs
    else do
      let d ← parseDigit c
      if d < base then parseDigits base (base * res + d) cs else none

/-- A digit string: its first character is a digit. -/
def parseNumber (base : ℕ) : List UInt8 → Option ℕ
  | [] => none
  | c :: cs => do
    let d ← parseDigit c
    if d < base then parseDigits base d cs else none

/-- The optional sign in front. -/
def parseSign : List UInt8 → Bool × List UInt8
  | [] => (false, [])
  | c :: cs => if c = 45 then (true, cs) else if c = 43 then (false, cs) else (false, c :: cs)

/-- The optional base prefix: the base, and whether the range is the signed one. -/
def parseBase : List UInt8 → ℕ × Bool × List UInt8
  | c :: k :: cs =>
    if c ≠ 48 then (10, true, c :: k :: cs)
    else if k = 120 ∨ k = 88 then (16, false, cs)
    else if k = 111 ∨ k = 79 then (8, false, cs)
    else if k = 98 ∨ k = 66 then (2, false, cs)
    else if k = 117 ∨ k = 85 then (10, false, cs)
    else (10, true, c :: k :: cs)
  | cs => (10, true, cs)

/-- Whether a magnitude is in range. -/
def int32Range (negative signed : Bool) (res : ℕ) : Bool :=
  if signed then (if negative then res ≤ 2 ^ 31 else res < 2 ^ 31) else res < 2 ^ 32

/-- The 32-bit integer that a string spells. -/
def int32OfString (s : List UInt8) : Option ℤ := do
  let (negative, s) := parseSign s
  let (base, signed, s) := parseBase s
  let res ← parseNumber base s
  if int32Range negative signed res then
    some (Int.bmod (if negative then -(res : ℤ) else res) (2 ^ 32))
  else none

/-- The character of a decimal digit. -/
def decimalDigit (d : ℕ) : UInt8 :=
  UInt8.ofNat (48 + d)

/-- The decimal spelling of a natural number. -/
def decimalNat (n : ℕ) : List UInt8 :=
  if n = 0 then [48] else (Nat.digits 10 n).reverse.map decimalDigit

/-- The decimal spelling of an integer. -/
def decimal (i : ℤ) : List UInt8 :=
  if i < 0 then 45 :: decimalNat i.natAbs else decimalNat i.natAbs

theorem toNat_decimalDigit {d : ℕ} (hd : d < 10) : (decimalDigit d).toNat = 48 + d := by
  rw [decimalDigit, UInt8.toNat_ofNat']
  omega

theorem parseDigit_decimalDigit {d : ℕ} (hd : d < 10) :
    parseDigit (decimalDigit d) = some d := by
  have h := toNat_decimalDigit hd
  have hrange : 48 ≤ decimalDigit d ∧ decimalDigit d ≤ 57 := by
    rw [UInt8.le_iff_toNat_le, UInt8.le_iff_toNat_le, h]
    change 48 ≤ 48 + d ∧ 48 + d ≤ 57
    omega
  rw [parseDigit, if_pos hrange, h, Nat.add_sub_cancel_left]

theorem decimalDigit_ne {d : ℕ} (hd : d < 10) {c : UInt8} (hc : c.toNat < 48 ∨ 57 < c.toNat) :
    decimalDigit d ≠ c := by
  rintro rfl
  rw [toNat_decimalDigit hd] at hc
  omega

theorem parseDigits_decimal (ds : List ℕ) (res : ℕ) (hds : ∀ d ∈ ds, d < 10) :
    parseDigits 10 res (ds.map decimalDigit) = some (ds.foldl (fun r d => 10 * r + d) res) := by
  induction ds generalizing res with
  | nil => rfl
  | cons d ds ih =>
    have hd := hds d List.mem_cons_self
    have hne : decimalDigit d ≠ 95 := decimalDigit_ne hd (Or.inr (by decide))
    rw [List.map_cons, parseDigits, if_neg hne, parseDigit_decimalDigit hd]
    simp only [Option.bind_eq_bind, Option.bind_some, hd, if_true, List.foldl_cons]
    exact ih _ fun x hx => hds x (List.mem_cons_of_mem d hx)

theorem parseNumber_decimal (ds : List ℕ) (hds : ∀ d ∈ ds, d < 10) (hne : ds ≠ []) :
    parseNumber 10 (ds.map decimalDigit) = some (ds.foldl (fun r d => 10 * r + d) 0) := by
  cases ds with
  | nil => exact absurd rfl hne
  | cons d ds =>
    have hd := hds d List.mem_cons_self
    rw [List.map_cons, parseNumber, parseDigit_decimalDigit hd]
    simp only [Option.bind_eq_bind, Option.bind_some, hd, if_true, List.foldl_cons, mul_zero,
      zero_add]
    exact parseDigits_decimal ds d fun x hx => hds x (List.mem_cons_of_mem d hx)

theorem foldl_digits (n : ℕ) :
    (Nat.digits 10 n).reverse.foldl (fun r d => 10 * r + d) 0 = n := by
  rw [List.foldl_reverse]
  conv_rhs => rw [← Nat.ofDigits_digits 10 n, Nat.ofDigits_eq_foldr]
  congr 1
  funext d r
  push_cast
  ring

theorem decimalNat_eq_map (n : ℕ) : ∃ ds : List ℕ, ds ≠ [] ∧ (∀ d ∈ ds, d < 10) ∧
    decimalNat n = ds.map decimalDigit ∧ ds.foldl (fun r d => 10 * r + d) 0 = n := by
  by_cases hn : n = 0
  · refine ⟨[0], by simp, by simp, ?_, by simp [hn]⟩
    rw [decimalNat, if_pos hn]
    rfl
  · refine ⟨(Nat.digits 10 n).reverse, ?_, ?_, by rw [decimalNat, if_neg hn], foldl_digits n⟩
    · rw [Ne, List.reverse_eq_nil_iff, Nat.digits_eq_nil_iff_eq_zero]
      exact hn
    · intro d hd
      exact Nat.digits_lt_base (by norm_num) (List.mem_reverse.1 hd)

theorem parseBase_decimal (ds : List ℕ) (hds : ∀ d ∈ ds, d < 10) :
    parseBase (ds.map decimalDigit) = (10, true, ds.map decimalDigit) := by
  rcases ds with _ | ⟨c, _ | ⟨k, ds⟩⟩
  · rfl
  · rfl
  · have hk : k < 10 := hds k (by simp)
    have hne : ∀ x : UInt8, 57 < x.toNat → decimalDigit k ≠ x := fun x hx =>
      decimalDigit_ne hk (Or.inr hx)
    simp only [List.map_cons, parseBase, hne 120 (by decide), hne 88 (by decide),
      hne 111 (by decide), hne 79 (by decide), hne 98 (by decide), hne 66 (by decide),
      hne 117 (by decide), hne 85 (by decide), or_self, if_false, ite_self]

theorem parseSign_decimal (ds : List ℕ) (hds : ∀ d ∈ ds, d < 10) :
    parseSign (ds.map decimalDigit) = (false, ds.map decimalDigit) := by
  cases ds with
  | nil => rfl
  | cons d ds =>
    have hd := hds d List.mem_cons_self
    have h45 : decimalDigit d ≠ 45 := decimalDigit_ne hd (Or.inl (by decide))
    have h43 : decimalDigit d ≠ 43 := decimalDigit_ne hd (Or.inl (by decide))
    rw [List.map_cons, parseSign, if_neg h45, if_neg h43]

/-- The decimal spelling of a 32-bit integer is read back. -/
theorem int32OfString_decimal {i : ℤ} (hlo : -2 ^ 31 ≤ i) (hhi : i < 2 ^ 31) :
    int32OfString (decimal i) = some i := by
  obtain ⟨ds, hne, hds, heq, hval⟩ := decimalNat_eq_map i.natAbs
  have hnum := parseNumber_decimal ds hds hne
  rw [hval] at hnum
  by_cases hi : i < 0
  · have hsign : parseSign (decimal i) = (true, ds.map decimalDigit) := by
      rw [decimal, if_pos hi, heq]
      rfl
    have hrange : int32Range true true i.natAbs = true := by
      simp only [int32Range, if_true, decide_eq_true_eq]
      omega
    have habs : -(i.natAbs : ℤ) = i := by omega
    have hmod : Int.bmod i (2 ^ 32) = i := Int.bmod_eq_of_le (by omega) (by omega)
    simp only [int32OfString, hsign, parseBase_decimal ds hds, hnum, Option.bind_eq_bind,
      Option.bind_some, hrange, if_true, habs, hmod]
  · have hsign : parseSign (decimal i) = (false, ds.map decimalDigit) := by
      rw [decimal, if_neg hi, heq, parseSign_decimal ds hds]
    have hrange : int32Range false true i.natAbs = true := by
      simp only [int32Range, if_true, Bool.false_eq_true, if_false, decide_eq_true_eq]
      omega
    have habs : (i.natAbs : ℤ) = i := by omega
    have hmod : Int.bmod i (2 ^ 32) = i := Int.bmod_eq_of_le (by omega) (by omega)
    simp only [int32OfString, hsign, parseBase_decimal ds hds, hnum, Option.bind_eq_bind,
      Option.bind_some, hrange, if_true, Bool.false_eq_true, if_false, habs, hmod]

theorem int32OfString_range {s : List UInt8} {i : ℤ} (h : int32OfString s = some i) :
    -2 ^ 31 ≤ i ∧ i < 2 ^ 31 := by
  simp only [int32OfString, Option.bind_eq_bind, Option.bind_eq_some_iff] at h
  obtain ⟨res, -, h⟩ := h
  split at h
  · cases h
    have hle := Int.le_bmod (x := if (parseSign s).1 = true then -(res : ℤ) else res)
      (m := 2 ^ 32) (by norm_num)
    have hlt := Int.bmod_lt (x := if (parseSign s).1 = true then -(res : ℤ) else res)
      (m := 2 ^ 32) (by norm_num)
    omega
  · cases h

end Stanli
