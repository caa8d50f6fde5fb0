import Mathlib.Data.Nat.Bitwise
import Mathlib.Data.Nat.Log
import Mathlib.Tactic.Ring

namespace Stanli

/-! ### Little-endian scalars

A scalar of `n` bytes is written by shifting the value right one byte at a time and read by
shifting the bytes left into an accumulator. Both are arithmetic in base 256. -/

/-- The `n` low bytes of `v`, lowest first. -/
def littleEndian (n v : ℕ) : List UInt8 :=
  (List.range n).map fun i => UInt8.ofNat ((v >>> (i * 8)) &&& 255)

/-- Shift the bytes into `acc`, the first of them at byte `k`. -/
def joinBytes (acc k : ℕ) : List UInt8 → ℕ
  | [] => acc
  | b :: bs => joinBytes (acc ||| (b.toNat <<< (k * 8))) (k + 1) bs

/-- The number whose base 256 digits the bytes are, lowest first. -/
def ofLittleEndian : List UInt8 → ℕ
  | [] => 0
  | b :: bs => b.toNat + 256 * ofLittleEndian bs

@[simp]
theorem length_littleEndian (n v : ℕ) : (littleEndian n v).length = n := by
  simp [littleEndian]

theorem toNat_lowByte (v : ℕ) : (UInt8.ofNat (v &&& 255)).toNat = v % 256 := by
  rw [show (255 : ℕ) = 2 ^ 8 - 1 from rfl, Nat.and_two_pow_sub_one_eq_mod, UInt8.toNat_ofNat',
    Nat.mod_mod]

theorem littleEndian_succ (n v : ℕ) :
    littleEndian (n + 1) v = UInt8.ofNat (v &&& 255) :: littleEndian n (v / 256) := by
  simp only [littleEndian, List.range_succ_eq_map, List.map_cons, List.map_map, Nat.zero_mul,
    Nat.shiftRight_zero, List.cons.injEq, true_and]
  refine List.map_congr_left fun i _ => ?_
  have hshift : v >>> ((i + 1) * 8) = (v / 256) >>> (i * 8) := by
    rw [show (i + 1) * 8 = 8 + i * 8 by omega, Nat.shiftRight_add, Nat.shiftRight_eq_div_pow v 8]
  simp [hshift]

theorem ofLittleEndian_lt (bs : List UInt8) : ofLittleEndian bs < 2 ^ (bs.length * 8) := by
  induction bs with
  | nil => simp [ofLittleEndian]
  | cons b bs ih =>
    have hb := UInt8.toNat_lt b
    have hpow : 2 ^ ((bs.length + 1) * 8) = 256 * 2 ^ (bs.length * 8) := by
      rw [show (bs.length + 1) * 8 = 8 + bs.length * 8 by omega, pow_add]
      norm_num
    rw [ofLittleEndian, List.length_cons, hpow]
    omega

theorem joinBytes_eq (bs : List UInt8) (acc k : ℕ) (hacc : acc < 2 ^ (k * 8)) :
    joinBytes acc k bs = acc + 2 ^ (k * 8) * ofLittleEndian bs := by
  induction bs generalizing acc k with
  | nil => simp [joinBytes, ofLittleEndian]
  | cons b bs ih =>
    have hor : acc ||| (b.toNat <<< (k * 8)) = acc + 2 ^ (k * 8) * b.toNat := by
      rw [Nat.lor_comm, ← Nat.shiftLeft_add_eq_or_of_lt hacc, Nat.shiftLeft_eq]
      ring
    have hpow : 2 ^ ((k + 1) * 8) = 2 ^ (k * 8) * 256 := by
      rw [show (k + 1) * 8 = k * 8 + 8 by omega, pow_add]
      norm_num
    have hlt : acc + 2 ^ (k * 8) * b.toNat < 2 ^ ((k + 1) * 8) := by
      have hb := UInt8.toNat_lt b
      calc acc + 2 ^ (k * 8) * b.toNat < 2 ^ (k * 8) + 2 ^ (k * 8) * b.toNat := by omega
        _ = 2 ^ (k * 8) * (b.toNat + 1) := by ring
        _ ≤ 2 ^ (k * 8) * 256 := Nat.mul_le_mul_left _ (by omega)
        _ = 2 ^ ((k + 1) * 8) := hpow.symm
    rw [joinBytes, hor, ih _ _ hlt, hpow, ofLittleEndian]
    ring

theorem joinBytes_zero (bs : List UInt8) : joinBytes 0 0 bs = ofLittleEndian bs := by
  rw [joinBytes_eq bs 0 0 (by norm_num)]
  simp

theorem ofLittleEndian_littleEndian (n v : ℕ) :
    ofLittleEndian (littleEndian n v) = v % 2 ^ (n * 8) := by
  induction n generalizing v with
  | zero => simp [littleEndian, ofLittleEndian, Nat.mod_one]
  | succ n ih =>
    rw [littleEndian_succ, ofLittleEndian, toNat_lowByte, ih,
      show (n + 1) * 8 = 8 + n * 8 by omega, pow_add, Nat.mod_mul]
    norm_num

theorem littleEndian_ofLittleEndian (bs : List UInt8) :
    littleEndian bs.length (ofLittleEndian bs) = bs := by
  induction bs with
  | nil => rfl
  | cons b bs ih =>
    have hb := UInt8.toNat_lt b
    have hmod : (b.toNat + 256 * ofLittleEndian bs) % 256 = b.toNat := by omega
    have hdiv : (b.toNat + 256 * ofLittleEndian bs) / 256 = ofLittleEndian bs := by omega
    rw [List.length_cons, littleEndian_succ, ofLittleEndian, hdiv, ih, List.cons.injEq]
    refine ⟨UInt8.toNat_inj.1 ?_, rfl⟩
    rw [toNat_lowByte, hmod]

/-- What is read back from `n` bytes is what was written, when it fits them. -/
theorem joinBytes_littleEndian {n v : ℕ} (hv : v < 2 ^ (n * 8)) :
    joinBytes 0 0 (littleEndian n v) = v := by
  rw [joinBytes_zero, ofLittleEndian_littleEndian, Nat.mod_eq_of_lt hv]

/-- Bytes are the scalar read from them, written again. -/
theorem littleEndian_joinBytes (bs : List UInt8) :
    littleEndian bs.length (joinBytes 0 0 bs) = bs := by
  rw [joinBytes_zero, littleEndian_ofLittleEndian]

theorem joinBytes_lt (bs : List UInt8) : joinBytes 0 0 bs < 2 ^ (bs.length * 8) := by
  rw [joinBytes_zero]
  exact ofLittleEndian_lt bs

end Stanli
