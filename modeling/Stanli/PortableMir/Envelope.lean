import Stanli.PortableMir.Wire
import Mathlib.Data.List.GetD

namespace Stanli.PortableMir

/-! ### The base64 envelope

`encode_base64` of the producer and `decode_payload` of the runtime, and that each undoes the
other: a document is accepted exactly when it is the envelope of the payload it decodes to. -/

/-- What reading a document fails with. -/
inductive ReadError
  | wire (offset : ℕ) (message : String)
  | nestingTooDeep (limit : ℕ)
  deriving DecidableEq

def base64Alphabet : Bytes :=
  ascii "ABCDEFGHIJKLMNOPQRSTUVWXYZabcdefghijklmnopqrstuvwxyz0123456789+/"

/-- The character of six bits. -/
def base64Char (value : ℕ) : UInt8 :=
  base64Alphabet.getD value 0

/-- The loop of `encode_base64`. -/
def base64Chars : Bytes → Bytes
  | a :: b :: c :: rest =>
    base64Char (a.toNat >>> 2) ::
    base64Char (((a.toNat &&& 3) <<< 4) ||| (b.toNat >>> 4)) ::
    base64Char (((b.toNat &&& 15) <<< 2) ||| (c.toNat >>> 6)) ::
    base64Char (c.toNat &&& 63) :: base64Chars rest
  | [a, b] =>
    [base64Char (a.toNat >>> 2), base64Char (((a.toNat &&& 3) <<< 4) ||| (b.toNat >>> 4)),
      base64Char ((b.toNat &&& 15) <<< 2), 61]
  | [a] => [base64Char (a.toNat >>> 2), base64Char ((a.toNat &&& 3) <<< 4), 61, 61]
  | [] => []

def encodeBase64 (input : Bytes) : Emit :=
  if input.length > 201326586 then .error "portable MIR v2: payload exceeds envelope limit"
  else .ok (base64Chars input)

def kMagic : Bytes := ascii "STANLI2:"

def kMaxInputBytes : ℕ := 256 * 1024 * 1024

/-- `encode`: the envelope around the payload of a program. -/
def encode (program : WireProgram) : Emit :=
  .ok kMagic ++ (addProgram program >>= encodeBase64)

/-! ### The decoder -/

def base64Value (byte : UInt8) : ℤ :=
  if byte ≥ 65 ∧ byte ≤ 90 then byte.toNat - 65
  else if byte ≥ 97 ∧ byte ≤ 122 then byte.toNat - 97 + 26
  else if byte ≥ 48 ∧ byte ≤ 57 then byte.toNat - 48 + 52
  else if byte = 43 then 62
  else if byte = 47 then 63
  else -1

/-- The value of a character that may be padding. -/
def base64Padded (byte : UInt8) : ℤ :=
  if byte = 61 then -2 else base64Value byte

/-- The bytes of one quartet, `last` for the final one. -/
def decodeQuartet (offset : ℕ) (last : Bool) (c0 c1 c2 c3 : UInt8) : Except ReadError Bytes :=
  let a := base64Value c0
  let b := base64Value c1
  let c := base64Padded c2
  let d := base64Padded c3
  if a < 0 ∨ b < 0 ∨ c = -1 ∨ d = -1 then .error (.wire offset "invalid base64 character")
  else if !last ∧ (c < 0 ∨ d < 0) then
    .error (.wire offset "base64 padding before final quartet")
  else if c = -2 then
    if !last ∨ d ≠ -2 then .error (.wire offset "invalid base64 padding")
    else if b.toNat &&& 15 ≠ 0 then .error (.wire offset "non-canonical base64 tail")
    else .ok [UInt8.ofNat ((a.toNat <<< 2) ||| (b.toNat >>> 4))]
  else if d = -2 then
    if !last ∨ c.toNat &&& 3 ≠ 0 then
      .error (.wire offset
        (if d = -2 ∧ last then "non-canonical base64 tail" else "invalid base64 padding"))
    else
      .ok [UInt8.ofNat ((a.toNat <<< 2) ||| (b.toNat >>> 4)),
        UInt8.ofNat ((b.toNat <<< 4) ||| (c.toNat >>> 2))]
  else
    .ok [UInt8.ofNat ((a.toNat <<< 2) ||| (b.toNat >>> 4)),
      UInt8.ofNat ((b.toNat <<< 4) ||| (c.toNat >>> 2)),
      UInt8.ofNat ((c.toNat <<< 6) ||| d.toNat)]

/-- The loop of `decode_payload`; `offset` counts from the start of the document. -/
def decodeQuartets (offset : ℕ) : Bytes → Except ReadError Bytes
  | c0 :: c1 :: c2 :: c3 :: rest => do
    let bytes ← decodeQuartet offset rest.isEmpty c0 c1 c2 c3
    let decoded ← decodeQuartets (offset + 4) rest
    pure (bytes ++ decoded)
  | _ => .ok []

/-- The payload size that the padding announces. -/
def decodedSize (encoded : Bytes) : ℕ :=
  let size := encoded.length / 4 * 3
  let size := if encoded.getLast? = some 61 then size - 1 else size
  if encoded.length ≥ 2 ∧ encoded.getD (encoded.length - 2) 0 = 61 then size - 1 else size

def decodePayload (wire : Bytes) : Except ReadError Bytes :=
  if wire.length > kMaxInputBytes then .error (.wire 0 "input exceeds 268435456 bytes")
  else if wire.length < kMagic.length ∨ wire.take kMagic.length ≠ kMagic then
    .error (.wire 0 "missing STANLI2 header")
  else
    let encoded := wire.drop kMagic.length
    if encoded.length % 4 ≠ 0 then
      .error (.wire wire.length "base64 length is not a multiple of 4")
    else if decodedSize encoded > kMaxInputBytes then
      .error (.wire 0 "decoded payload exceeds 268435456 bytes")
    else do
      let decoded ← decodeQuartets kMagic.length encoded
      if decoded.length ≠ decodedSize encoded then
        .error (.wire wire.length "decoded payload length mismatch")
      else .ok decoded

/-! ### Six bits and their character -/

theorem base64Value_char : ∀ v < 64, base64Value (base64Char v) = v := by
  decide +kernel

theorem base64Char_ne_padding : ∀ v < 64, base64Char v ≠ 61 := by
  decide +kernel

theorem base64Value_cases (byte : UInt8) :
    base64Value byte = -1 ∨ ∃ v : ℕ, v < 64 ∧ base64Value byte = v ∧ byte = base64Char v := by
  have h : ∀ n < 256, base64Value (UInt8.ofNat n) = -1 ∨ ((base64Value (UInt8.ofNat n)).toNat < 64 ∧
      0 ≤ base64Value (UInt8.ofNat n) ∧
      UInt8.ofNat n = base64Char (base64Value (UInt8.ofNat n)).toNat) := by
    decide +kernel
  have hb := h byte.toNat (UInt8.toNat_lt byte)
  rw [UInt8.ofNat_toNat] at hb
  rcases hb with hb | ⟨hlt, hpos, hc⟩
  · exact Or.inl hb
  · exact Or.inr ⟨_, hlt, (Int.toNat_of_nonneg hpos).symm, hc⟩

theorem base64Padded_char {v : ℕ} (hv : v < 64) : base64Padded (base64Char v) = v := by
  rw [base64Padded, if_neg (base64Char_ne_padding v hv), base64Value_char v hv]

theorem base64Padded_cases (byte : UInt8) : base64Padded byte = -1 ∨
    (base64Padded byte = -2 ∧ byte = 61) ∨
    ∃ v : ℕ, v < 64 ∧ base64Padded byte = v ∧ byte = base64Char v := by
  by_cases h : byte = 61
  · exact Or.inr (Or.inl ⟨by rw [base64Padded, if_pos h], h⟩)
  · rw [base64Padded, if_neg h]
    rcases base64Value_cases byte with hb | hb
    · exact Or.inl hb
    · exact Or.inr (Or.inr hb)

/-! ### The bits of a quartet -/

theorem lor_shift {hi lo i : ℕ} (h : lo < 2 ^ i) : (hi <<< i) ||| lo = hi * 2 ^ i + lo := by
  rw [← Nat.shiftLeft_add_eq_or_of_lt h, Nat.shiftLeft_eq]

theorem land_three (x : ℕ) : x &&& 3 = x % 4 :=
  Nat.and_two_pow_sub_one_eq_mod x 2

theorem land_fifteen (x : ℕ) : x &&& 15 = x % 16 :=
  Nat.and_two_pow_sub_one_eq_mod x 4

theorem land_sixtyThree (x : ℕ) : x &&& 63 = x % 64 :=
  Nat.and_two_pow_sub_one_eq_mod x 6

theorem second_sextet {x y : ℕ} (hy : y < 256) :
    ((x &&& 3) <<< 4) ||| (y >>> 4) = x % 4 * 16 + y / 16 := by
  have h : y / 2 ^ 4 < 2 ^ 4 := by omega
  rw [Nat.shiftRight_eq_div_pow, lor_shift h, land_three]
  rfl

theorem third_sextet {y z : ℕ} (hz : z < 256) :
    ((y &&& 15) <<< 2) ||| (z >>> 6) = y % 16 * 4 + z / 64 := by
  have h : z / 2 ^ 6 < 2 ^ 2 := by omega
  rw [Nat.shiftRight_eq_div_pow, lor_shift h, land_fifteen]
  rfl

theorem first_octet {a b : ℕ} (hb : b < 64) : (a <<< 2) ||| (b >>> 4) = a * 4 + b / 16 := by
  have h : b / 2 ^ 4 < 2 ^ 2 := by omega
  rw [Nat.shiftRight_eq_div_pow, lor_shift h]
  rfl

theorem second_octet {b c : ℕ} (hc : c < 64) : (b <<< 4) ||| (c >>> 2) = b * 16 + c / 4 := by
  have h : c / 2 ^ 2 < 2 ^ 4 := by omega
  rw [Nat.shiftRight_eq_div_pow, lor_shift h]
  rfl

theorem third_octet {c d : ℕ} (hd : d < 64) : (c <<< 6) ||| d = c * 64 + d :=
  lor_shift hd

theorem shiftLeft_two (x : ℕ) : x <<< 2 = x * 4 :=
  Nat.shiftLeft_eq x 2

theorem shiftLeft_four (x : ℕ) : x <<< 4 = x * 16 :=
  Nat.shiftLeft_eq x 4

theorem shiftRight_two (x : ℕ) : x >>> 2 = x / 4 :=
  Nat.shiftRight_eq_div_pow x 2

/-- A byte is determined by its value modulo 256. -/
theorem ofNat_eq {n : ℕ} {x : UInt8} (h : n % 256 = x.toNat) : UInt8.ofNat n = x := by
  apply UInt8.toNat_inj.1
  rw [UInt8.toNat_ofNat', ← h]

theorem decodeQuartet_three (offset : ℕ) (last : Bool) {a b c d : ℕ} (ha : a < 64) (hb : b < 64)
    (hc : c < 64) (hd : d < 64) :
    decodeQuartet offset last (base64Char a) (base64Char b) (base64Char c) (base64Char d) =
      .ok [UInt8.ofNat (a * 4 + b / 16), UInt8.ofNat (b * 16 + c / 4),
        UInt8.ofNat (c * 64 + d)] := by
  have hbad : ¬((a : ℤ) < 0 ∨ (b : ℤ) < 0 ∨ (c : ℤ) = -1 ∨ (d : ℤ) = -1) := by omega
  have hpad : ¬((!last) = true ∧ ((c : ℤ) < 0 ∨ (d : ℤ) < 0)) := by
    rintro ⟨-, h⟩
    omega
  have hc2 : ¬(c : ℤ) = -2 := by omega
  have hd2 : ¬(d : ℤ) = -2 := by omega
  simp only [decodeQuartet, base64Value_char a ha, base64Value_char b hb, base64Padded_char hc,
    base64Padded_char hd, hbad, hpad, hc2, hd2, if_false, Int.toNat_natCast, first_octet hb,
    second_octet hc, third_octet hd]

theorem decodeQuartet_two (offset : ℕ) {a b c : ℕ} (ha : a < 64) (hb : b < 64) (hc : c < 64)
    (htail : c % 4 = 0) :
    decodeQuartet offset true (base64Char a) (base64Char b) (base64Char c) 61 =
      .ok [UInt8.ofNat (a * 4 + b / 16), UInt8.ofNat (b * 16 + c / 4)] := by
  have hbad : ¬((a : ℤ) < 0 ∨ (b : ℤ) < 0 ∨ (c : ℤ) = -1 ∨ (-2 : ℤ) = -1) := by omega
  have hc2 : ¬(c : ℤ) = -2 := by omega
  have hd : base64Padded 61 = -2 := rfl
  simp only [decodeQuartet, base64Value_char a ha, base64Value_char b hb, base64Padded_char hc, hd,
    hbad, hc2, if_false, if_true, Int.toNat_natCast, first_octet hb, second_octet hc, land_three,
    htail, Bool.not_true, Bool.false_eq_true, false_and, ne_eq, not_true_eq_false, or_self]

theorem decodeQuartet_one (offset : ℕ) {a b : ℕ} (ha : a < 64) (hb : b < 64)
    (htail : b % 16 = 0) :
    decodeQuartet offset true (base64Char a) (base64Char b) 61 61 =
      .ok [UInt8.ofNat (a * 4 + b / 16)] := by
  have hbad : ¬((a : ℤ) < 0 ∨ (b : ℤ) < 0 ∨ (-2 : ℤ) = -1) := by omega
  have hd : base64Padded 61 = -2 := rfl
  simp only [decodeQuartet, base64Value_char a ha, base64Value_char b hb, hd, hbad, if_false,
    if_true, Int.toNat_natCast, first_octet hb, land_fifteen, htail, Bool.not_true,
    Bool.false_eq_true, false_and, ne_eq, not_true_eq_false, or_self]

/-- What an accepted quartet looks like: three bytes without padding, or a final one with zero tail
bits. -/
theorem decodeQuartet_cases {offset : ℕ} {last : Bool} {c0 c1 c2 c3 : UInt8} {bytes : Bytes}
    (h : decodeQuartet offset last c0 c1 c2 c3 = .ok bytes) :
    ∃ a b, a < 64 ∧ b < 64 ∧ c0 = base64Char a ∧ c1 = base64Char b ∧
      ((∃ c d, c < 64 ∧ d < 64 ∧ c2 = base64Char c ∧ c3 = base64Char d ∧
        bytes = [UInt8.ofNat (a * 4 + b / 16), UInt8.ofNat (b * 16 + c / 4),
          UInt8.ofNat (c * 64 + d)]) ∨
      (last = true ∧ ∃ c, c < 64 ∧ c % 4 = 0 ∧ c2 = base64Char c ∧ c3 = 61 ∧
        bytes = [UInt8.ofNat (a * 4 + b / 16), UInt8.ofNat (b * 16 + c / 4)]) ∨
      (last = true ∧ b % 16 = 0 ∧ c2 = 61 ∧ c3 = 61 ∧
        bytes = [UInt8.ofNat (a * 4 + b / 16)])) := by
  simp only [decodeQuartet] at h
  split at h
  · cases h
  rename_i hbad
  simp only [not_or] at hbad
  obtain ⟨ha, hb, hc, hd⟩ := hbad
  rcases base64Value_cases c0 with h0 | ⟨a, ha', hva, rfl⟩
  · omega
  rcases base64Value_cases c1 with h1 | ⟨b, hb', hvb, rfl⟩
  · omega
  refine ⟨a, b, ha', hb', rfl, rfl, ?_⟩
  split at h
  · cases h
  rename_i hlast
  rcases base64Padded_cases c2 with h2 | ⟨h2, rfl⟩ | ⟨c, hc', hvc, rfl⟩
  · exact absurd h2 hc
  · have hl : last = true := by
      by_contra hl
      exact hlast ⟨by simp [hl], Or.inl (by rw [h2]; decide)⟩
    rw [if_pos h2] at h
    split at h
    · cases h
    rename_i hd2
    simp only [not_or, ne_eq, not_not] at hd2
    rcases base64Padded_cases c3 with h3 | ⟨-, rfl⟩ | ⟨d, hd', hvd, rfl⟩
    · exact absurd h3 hd
    · split at h
      · cases h
      rename_i htail
      cases h
      rw [hvb, Int.toNat_natCast, land_fifteen, not_not] at htail
      refine Or.inr (Or.inr ⟨hl, htail, rfl, rfl, ?_⟩)
      rw [hva, hvb, Int.toNat_natCast, Int.toNat_natCast, first_octet hb']
    · omega
  · have hc2 : ¬base64Padded (base64Char c) = -2 := by omega
    rw [if_neg hc2] at h
    rcases base64Padded_cases c3 with h3 | ⟨h3, rfl⟩ | ⟨d, hd', hvd, rfl⟩
    · exact absurd h3 hd
    · rw [if_pos h3] at h
      have hl : last = true := by
        by_contra hl
        exact hlast ⟨by simp [hl], Or.inr (by rw [h3]; decide)⟩
      split at h
      · cases h
      rename_i htail
      cases h
      simp only [not_or, ne_eq, not_not, hvc, Int.toNat_natCast, land_three] at htail
      refine Or.inr (Or.inl ⟨hl, c, hc', htail.2, rfl, rfl, ?_⟩)
      rw [hva, hvb, hvc, Int.toNat_natCast, Int.toNat_natCast, Int.toNat_natCast, first_octet hb',
        second_octet hc']
    · have hd2 : ¬base64Padded (base64Char d) = -2 := by omega
      rw [if_neg hd2] at h
      cases h
      refine Or.inl ⟨c, d, hc', hd', rfl, rfl, ?_⟩
      rw [hva, hvb, hvc, hvd, Int.toNat_natCast, Int.toNat_natCast, Int.toNat_natCast,
        Int.toNat_natCast, first_octet hb', second_octet hc', third_octet hd']

/-! ### The two loops -/

theorem base64Chars_three (x y z : UInt8) (rest : Bytes) :
    base64Chars (x :: y :: z :: rest) =
      base64Char (x.toNat / 4) :: base64Char (x.toNat % 4 * 16 + y.toNat / 16) ::
      base64Char (y.toNat % 16 * 4 + z.toNat / 64) :: base64Char (z.toNat % 64) ::
      base64Chars rest := by
  rw [base64Chars, shiftRight_two, second_sextet (UInt8.toNat_lt y),
    third_sextet (UInt8.toNat_lt z), land_sixtyThree]

theorem base64Chars_two (x y : UInt8) :
    base64Chars [x, y] = [base64Char (x.toNat / 4), base64Char (x.toNat % 4 * 16 + y.toNat / 16),
      base64Char (y.toNat % 16 * 4), 61] := by
  rw [base64Chars, shiftRight_two, second_sextet (UInt8.toNat_lt y), land_fifteen, shiftLeft_two]

theorem base64Chars_one (x : UInt8) :
    base64Chars [x] = [base64Char (x.toNat / 4), base64Char (x.toNat % 4 * 16), 61, 61] := by
  rw [base64Chars, shiftRight_two, land_three, shiftLeft_four]

theorem decodeQuartets_base64Chars (bytes : Bytes) (offset : ℕ) :
    decodeQuartets offset (base64Chars bytes) = .ok bytes := by
  induction bytes using base64Chars.induct generalizing offset with
  | case1 x y z rest ih =>
    have hx := UInt8.toNat_lt x
    have hy := UInt8.toNat_lt y
    have hz := UInt8.toNat_lt z
    rw [base64Chars_three, decodeQuartets,
      decodeQuartet_three _ _ (by omega) (by omega) (by omega) (by omega), ih]
    have h0 : UInt8.ofNat (x.toNat / 4 * 4 + (x.toNat % 4 * 16 + y.toNat / 16) / 16) = x :=
      ofNat_eq (by omega)
    have h1 : UInt8.ofNat ((x.toNat % 4 * 16 + y.toNat / 16) * 16 +
        (y.toNat % 16 * 4 + z.toNat / 64) / 4) = y := ofNat_eq (by omega)
    have h2 : UInt8.ofNat ((y.toNat % 16 * 4 + z.toNat / 64) * 64 + z.toNat % 64) = z :=
      ofNat_eq (by omega)
    rw [h0, h1, h2]
    rfl
  | case2 x y =>
    have hx := UInt8.toNat_lt x
    have hy := UInt8.toNat_lt y
    rw [base64Chars_two, decodeQuartets]
    have h0 : UInt8.ofNat (x.toNat / 4 * 4 + (x.toNat % 4 * 16 + y.toNat / 16) / 16) = x :=
      ofNat_eq (by omega)
    have h1 : UInt8.ofNat ((x.toNat % 4 * 16 + y.toNat / 16) * 16 + y.toNat % 16 * 4 / 4) = y :=
      ofNat_eq (by omega)
    rw [List.isEmpty_nil, decodeQuartet_two _ (by omega) (by omega) (by omega) (by omega), h0, h1]
    rfl
  | case3 x =>
    have hx := UInt8.toNat_lt x
    rw [base64Chars_one, decodeQuartets]
    have h0 : UInt8.ofNat (x.toNat / 4 * 4 + x.toNat % 4 * 16 / 16) = x := ofNat_eq (by omega)
    rw [List.isEmpty_nil, decodeQuartet_one _ (by omega) (by omega) (by omega), h0]
    rfl
  | case4 => rfl

theorem base64Chars_decodeQuartets {encoded bytes : Bytes} {offset : ℕ}
    (hlen : encoded.length % 4 = 0) (h : decodeQuartets offset encoded = .ok bytes) :
    encoded = base64Chars bytes := by
  induction offset, encoded using decodeQuartets.induct generalizing bytes with
  | case1 offset c0 c1 c2 c3 rest ih =>
    rw [decodeQuartets] at h
    cases hq : decodeQuartet offset rest.isEmpty c0 c1 c2 c3 with
    | error e =>
      rw [hq] at h
      cases h
    | ok head =>
      cases hr : decodeQuartets (offset + 4) rest with
      | error e =>
        rw [hq, hr] at h
        cases h
      | ok tail =>
        rw [hq, hr] at h
        cases h
        have hrest : rest = base64Chars tail := by
          refine ih ?_ hr
          simp only [List.length_cons] at hlen
          omega
        obtain ⟨a, b, ha, hb, rfl, rfl, hcase⟩ := decodeQuartet_cases hq
        rcases hcase with ⟨c, d, hc, hd, rfl, rfl, rfl⟩ | ⟨hl, c, hc, htail, rfl, rfl, rfl⟩ |
          ⟨hl, htail, rfl, rfl, rfl⟩
        · have h0 : (UInt8.ofNat (a * 4 + b / 16)).toNat = a * 4 + b / 16 := by
            rw [UInt8.toNat_ofNat']
            omega
          have h1 : (UInt8.ofNat (b * 16 + c / 4)).toNat = b % 16 * 16 + c / 4 := by
            rw [UInt8.toNat_ofNat']
            omega
          have h2 : (UInt8.ofNat (c * 64 + d)).toNat = c % 4 * 64 + d := by
            rw [UInt8.toNat_ofNat']
            omega
          have ea : (a * 4 + b / 16) / 4 = a := by omega
          have eb : (a * 4 + b / 16) % 4 * 16 + (b % 16 * 16 + c / 4) / 16 = b := by omega
          have ec : (b % 16 * 16 + c / 4) % 16 * 4 + (c % 4 * 64 + d) / 64 = c := by omega
          have ed : (c % 4 * 64 + d) % 64 = d := by omega
          rw [List.cons_append, List.cons_append, List.cons_append, List.nil_append,
            base64Chars_three, h0, h1, h2, ← hrest, ea, eb, ec, ed]
        · obtain rfl := List.isEmpty_iff.1 hl
          cases hr
          have h0 : (UInt8.ofNat (a * 4 + b / 16)).toNat = a * 4 + b / 16 := by
            rw [UInt8.toNat_ofNat']
            omega
          have h1 : (UInt8.ofNat (b * 16 + c / 4)).toNat = b % 16 * 16 + c / 4 := by
            rw [UInt8.toNat_ofNat']
            omega
          have ea : (a * 4 + b / 16) / 4 = a := by omega
          have eb : (a * 4 + b / 16) % 4 * 16 + (b % 16 * 16 + c / 4) / 16 = b := by omega
          have ec : (b % 16 * 16 + c / 4) % 16 * 4 = c := by omega
          rw [List.append_nil, base64Chars_two, h0, h1, ea, eb, ec]
        · obtain rfl := List.isEmpty_iff.1 hl
          cases hr
          have h0 : (UInt8.ofNat (a * 4 + b / 16)).toNat = a * 4 + b / 16 := by
            rw [UInt8.toNat_ofNat']
            omega
          have ea : (a * 4 + b / 16) / 4 = a := by omega
          have eb : (a * 4 + b / 16) % 4 * 16 = b := by omega
          rw [List.append_nil, base64Chars_one, h0, ea, eb]
  | case2 encoded offset hshort =>
    rcases encoded with _ | ⟨c0, _ | ⟨c1, _ | ⟨c2, _ | ⟨c3, rest⟩⟩⟩⟩
    · cases h
      rfl
    · simp at hlen
    · simp at hlen
    · simp at hlen
    · exact absurd rfl (hshort c0 c1 c2 c3 rest)

/-! ### Sizes -/

theorem length_base64Chars (bytes : Bytes) :
    (base64Chars bytes).length = (bytes.length + 2) / 3 * 4 := by
  induction bytes using base64Chars.induct with
  | case1 x y z rest ih =>
    rw [base64Chars]
    simp only [List.length_cons, ih]
    omega
  | case2 x y =>
    rw [base64Chars_two]
    simp
  | case3 x =>
    rw [base64Chars_one]
    simp
  | case4 => rfl

theorem decodedSize_cons (c0 c1 c2 c3 c4 : UInt8) (rest : Bytes)
    (hlen : (c4 :: rest).length % 4 = 0) :
    decodedSize (c0 :: c1 :: c2 :: c3 :: c4 :: rest) = decodedSize (c4 :: rest) + 3 := by
  rcases rest with _ | ⟨c5, _ | ⟨c6, rest⟩⟩
  · simp at hlen
  · simp at hlen
  · have hlast : (c0 :: c1 :: c2 :: c3 :: c4 :: c5 :: c6 :: rest).getLast? =
        (c4 :: c5 :: c6 :: rest).getLast? := rfl
    have hget : (c0 :: c1 :: c2 :: c3 :: c4 :: c5 :: c6 :: rest).getD (rest.length + 7 - 2) 0 =
        (c4 :: c5 :: c6 :: rest).getD (rest.length + 3 - 2) 0 := rfl
    have hpos : 3 ≤ (rest.length + 3) / 4 * 3 := by
      simp only [List.length_cons] at hlen
      omega
    have hquot : (rest.length + 7) / 4 * 3 = (rest.length + 3) / 4 * 3 + 3 := by omega
    have htwo : rest.length + 7 ≥ 2 := by omega
    have htwo' : rest.length + 3 ≥ 2 := by omega
    simp only [decodedSize, List.length_cons, hlast, hget, hquot, htwo, htwo', true_and]
    split <;> split <;> omega

/-- The padding announces the size of the payload. -/
theorem decodedSize_base64Chars (bytes : Bytes) :
    decodedSize (base64Chars bytes) = bytes.length := by
  induction bytes using base64Chars.induct with
  | case1 x y z rest ih =>
    rcases hr : base64Chars rest with _ | ⟨c, cs⟩
    · have hlen := length_base64Chars rest
      rw [hr, List.length_nil] at hlen
      have hnil : rest = [] := List.length_eq_zero_iff.1 (by omega)
      subst hnil
      have hz := UInt8.toNat_lt z
      have h2 := base64Char_ne_padding (y.toNat % 16 * 4 + z.toNat / 64) (by omega)
      have h3 := base64Char_ne_padding (z.toNat % 64) (by omega)
      rw [base64Chars_three, hr]
      simp [decodedSize, h2, h3]
    · have hlen := length_base64Chars rest
      rw [hr] at hlen ih
      rw [base64Chars_three, hr, decodedSize_cons _ _ _ _ _ _ (by omega), ih]
      rfl
  | case2 x y =>
    have h2 := base64Char_ne_padding (y.toNat % 16 * 4) (by omega)
    rw [base64Chars_two]
    simp [decodedSize, h2]
  | case3 x =>
    rw [base64Chars_one]
    simp [decodedSize]
  | case4 => rfl

/-! ### Documents and payloads -/

theorem length_kMagic : kMagic.length = 8 := rfl

/-- `encode_base64` succeeds exactly within the envelope limit of the decoder. -/
theorem encodeBase64_eq_ok {input out : Bytes} :
    encodeBase64 input = .ok out ↔ input.length ≤ 201326586 ∧ out = base64Chars input := by
  rw [encodeBase64]
  split
  · refine ⟨fun h => (by cases h), fun h => ?_⟩
    omega
  · refine ⟨fun h => ?_, fun h => by rw [h.2]⟩
    cases h
    exact ⟨by omega, rfl⟩

/-- The envelope is the only spelling of a payload that `decode_payload` accepts. -/
theorem decodePayload_eq_ok {wire payload : Bytes} :
    decodePayload wire = .ok payload ↔
      payload.length ≤ 201326586 ∧ wire = kMagic ++ base64Chars payload := by
  constructor
  · intro h
    simp only [decodePayload] at h
    split at h
    · cases h
    rename_i hmax
    split at h
    · cases h
    rename_i hmagic
    simp only [not_or, ne_eq, not_not, not_lt] at hmagic
    split at h
    · cases h
    rename_i hmod
    rw [ne_eq, not_not] at hmod
    split at h
    · cases h
    cases hd : decodeQuartets kMagic.length (wire.drop kMagic.length) with
    | error e =>
      rw [hd] at h
      cases h
    | ok decoded =>
      rw [hd] at h
      simp only [bind, Except.bind] at h
      split at h
      · cases h
      cases h
      have henc := base64Chars_decodeQuartets hmod hd
      have hwire : wire = kMagic ++ base64Chars payload := by
        rw [← henc, ← hmagic.2, hmagic.2]
        conv_lhs => rw [← List.take_append_drop kMagic.length wire, hmagic.2]
      refine ⟨?_, hwire⟩
      have hlen := length_base64Chars payload
      rw [hwire, List.length_append, length_kMagic, hlen, kMaxInputBytes] at hmax
      omega
  · rintro ⟨hlen, rfl⟩
    have hchars := length_base64Chars payload
    have hmax : ¬(kMagic ++ base64Chars payload).length > kMaxInputBytes := by
      rw [List.length_append, length_kMagic, hchars, kMaxInputBytes]
      omega
    have hmagic : ¬((kMagic ++ base64Chars payload).length < kMagic.length ∨
        (kMagic ++ base64Chars payload).take kMagic.length ≠ kMagic) := by
      rw [List.length_append, List.take_left]
      rintro (h | h)
      · omega
      · exact h rfl
    have hmod : ¬(base64Chars payload).length % 4 ≠ 0 := by omega
    have hsize : ¬payload.length > kMaxInputBytes := by
      rw [kMaxInputBytes]
      omega
    simp only [decodePayload, if_neg hmax, if_neg hmagic, List.drop_left, if_neg hmod,
      decodeQuartets_base64Chars, decodedSize_base64Chars, if_neg hsize, bind, Except.bind, ne_eq,
      not_true_eq_false, if_false]

end Stanli.PortableMir
