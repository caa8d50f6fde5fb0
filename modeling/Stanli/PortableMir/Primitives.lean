import Stanli.PortableMir.Meaning

namespace Stanli.PortableMir

/-! ### What a step of the reader takes

A portion is the bytes that a reader passes over with their usage. Taking one moves the position,
adds to the counters and raises the peak depth, within the limits. -/

@[ext]
structure Portion where
  bytes : Bytes := []
  usage : Usage := {}

namespace Portion

instance : Zero Portion := ⟨⟨[], 0⟩⟩

instance : Add Portion := ⟨fun p q => ⟨p.bytes ++ q.bytes, p.usage + q.usage⟩⟩

@[simp] theorem zero_bytes : (0 : Portion).bytes = [] := rfl

@[simp] theorem zero_usage : (0 : Portion).usage = 0 := rfl

@[simp] theorem add_bytes (p q : Portion) : (p + q).bytes = p.bytes ++ q.bytes := rfl

@[simp] theorem add_usage (p q : Portion) : (p + q).usage = p.usage + q.usage := rfl

instance : AddMonoid Portion where
  add_assoc p q r := by
    apply Portion.ext <;> simp only [add_bytes, add_usage, List.append_assoc, add_assoc]
  zero_add p := by
    apply Portion.ext <;> simp only [add_bytes, add_usage, zero_bytes, zero_usage, List.nil_append,
      zero_add]
  add_zero p := by
    apply Portion.ext <;> simp only [add_bytes, add_usage, zero_bytes, zero_usage, List.append_nil,
      add_zero]
  nsmul := nsmulRec

end Portion

/-- The peak depth that a usage reaches from a given depth. -/
def peakOf (depth : ℕ) (u : Usage) : ℕ :=
  if u.depth = 0 then 0 else depth + u.depth

theorem peakOf_add (depth : ℕ) (u v : Usage) :
    peakOf depth (u + v) = max (peakOf depth u) (peakOf depth v) := by
  simp only [peakOf, Usage.add_depth]
  split <;> split <;> split <;> omega

/-- The state behind a portion. -/
def Reader.after (s : Reader) (p : Portion) (rest : Bytes) : Reader where
  rest := rest
  position := s.position + p.bytes.length
  values := s.values + p.usage.values
  totalStringBytes := s.totalStringBytes + p.usage.stringBytes
  listStorageBytes := s.listStorageBytes + p.usage.listBytes
  depth := s.depth
  peak := max s.peak (peakOf s.depth p.usage)

/-- There is room for a usage behind a state. -/
structure Room (T : Target) (s : Reader) (u : Usage) : Prop where
  values : 0 < u.values → s.values + u.values ≤ kMaxValues
  stringBytes : 0 < u.stringBytes → s.totalStringBytes + u.stringBytes ≤ kMaxTotalStringBytes
  listBytes : 0 < u.listBytes → s.listStorageBytes + u.listBytes ≤ kMaxListStorageBytes
  longestString : u.longestString ≤ kMaxStringBytes
  longestList : u.longestList ≤ kMaxListItems
  depth : 0 < u.depth → s.depth + u.depth ≤ 2 * T.nestingLimit

/-- `s'` is `s` once the portion is taken. -/
structure Consumes (T : Target) (s : Reader) (p : Portion) (s' : Reader) : Prop where
  rest : s.rest = p.bytes ++ s'.rest
  room : Room T s p.usage
  state : s' = s.after p s'.rest

theorem Room.add_iff {T : Target} {s : Reader} {p : Portion} {v : Usage} {rest : Bytes} :
    Room T s (p.usage + v) ↔ Room T s p.usage ∧ Room T (s.after p rest) v := by
  constructor
  · intro h
    obtain ⟨h1, h2, h3, h4, h5, h6⟩ := h
    simp only [Usage.add_values, Usage.add_stringBytes, Usage.add_listBytes,
      Usage.add_longestString, Usage.add_longestList, Usage.add_depth] at h1 h2 h3 h4 h5 h6
    refine ⟨⟨?_, ?_, ?_, ?_, ?_, ?_⟩, ⟨?_, ?_, ?_, ?_, ?_, ?_⟩⟩
    all_goals first | omega | (simp only [Reader.after]; omega)
  · rintro ⟨⟨h1, h2, h3, h4, h5, h6⟩, ⟨k1, k2, k3, k4, k5, k6⟩⟩
    simp only [Reader.after] at k1 k2 k3 k6
    constructor <;> simp only [Usage.add_values, Usage.add_stringBytes, Usage.add_listBytes,
      Usage.add_longestString, Usage.add_longestList, Usage.add_depth] <;> omega

theorem Reader.after_after (s : Reader) (p q : Portion) (rest rest' : Bytes) :
    (s.after p rest).after q rest' = s.after (p + q) rest' := by
  simp only [Reader.after, Portion.add_bytes, Portion.add_usage, List.length_append, peakOf_add,
    Usage.add_values, Usage.add_stringBytes, Usage.add_listBytes, Nat.add_assoc, max_assoc]

theorem Reader.after_zero (s : Reader) : s.after 0 s.rest = s := by
  simp [Reader.after, Portion.zero_bytes, Portion.zero_usage, Usage.zero_values,
    Usage.zero_stringBytes, Usage.zero_listBytes, peakOf, Usage.zero_depth]

theorem consumes_splitting (T : Target) : Splitting (Consumes T) where
  zero h := by
    rename_i s s'
    have hrest : s'.rest = s.rest := h.rest.symm
    rw [h.state, hrest]
    exact Reader.after_zero s
  add h := by
    rename_i s s'' p q
    obtain ⟨hp, hq⟩ := Room.add_iff.1 h.room
    refine ⟨s.after p (q.bytes ++ s''.rest), ⟨?_, hp, rfl⟩, ⟨rfl, hq, ?_⟩⟩
    · rw [h.rest, Portion.add_bytes, List.append_assoc]
      rfl
    · rw [Reader.after_after]
      exact h.state

theorem consumes_joining (T : Target) : Joining (Consumes T) where
  zero s := by
    refine ⟨rfl, ⟨?_, ?_, ?_, Nat.zero_le _, Nat.zero_le _, ?_⟩, (Reader.after_zero s).symm⟩
    all_goals exact fun h => absurd h (lt_irrefl 0)
  add h h' := by
    rename_i s s' s'' p q
    have hroom : Room T (s.after p s'.rest) q.usage := by
      rw [← h.state]
      exact h'.room
    refine ⟨?_, Room.add_iff.2 ⟨h.room, hroom⟩, ?_⟩
    · rw [Portion.add_bytes, List.append_assoc, ← h'.rest]
      exact h.rest
    · rw [h'.state, h.state, Reader.after_after]
      rfl

/-- The portion is taken where the scopes that are left are at most `fuel`. -/
def Fueled (T : Target) (fuel : ℕ) (s : Reader) (p : Portion) (s' : Reader) : Prop :=
  2 * T.nestingLimit ≤ s.depth + fuel ∧ Consumes T s p s'

theorem fueled_splitting (T : Target) (fuel : ℕ) : Splitting (Fueled T fuel) where
  zero h := (consumes_splitting T).zero h.2
  add h := by
    obtain ⟨s', hp, hq⟩ := (consumes_splitting T).add h.2
    refine ⟨s', ⟨h.1, hp⟩, ⟨?_, hq⟩⟩
    rw [hp.state]
    exact h.1

/-! ### The primitive reads

Each primitive read delivers what the producer's emission of the same type appends, and takes
nothing else. -/

section

variable {T : Target} {fuel : ℕ}

theorem Fueled.consumes {s : Reader} {p : Portion} {s' : Reader} (h : Fueled T fuel s p s') :
    Consumes T s p s' :=
  h.2

theorem Fueled.weaken {n : ℕ} (hn : fuel ≤ n) {s : Reader} {p : Portion} {s' : Reader}
    (h : Fueled T fuel s p s') : Fueled T n s p s' :=
  ⟨by have := h.1; omega, h.2⟩

theorem fueled_full {s : Reader} {p : Portion} {s' : Reader} (h : Consumes T s p s') :
    Fueled T (2 * T.nestingLimit) s p s' :=
  ⟨by omega, h⟩

theorem failWhen_eq_ok {condition : Reader → Bool} {message : String} {s s' : Reader} {u : Unit} :
    failWhen condition message s = .ok (u, s') ↔ condition s = false ∧ s' = s := by
  rw [failWhen]
  split
  · rename_i h
    simp [h]
  · rename_i h
    simp only [Bool.not_eq_true] at h
    simp [h, eq_comm]

theorem modify_eq_ok {f : Reader → Reader} {s s' : Reader} {u : PUnit} :
    (modify f : Read PUnit) s = .ok (u, s') ↔ s' = f s := by
  change Except.ok (PUnit.unit, f s) = _ ↔ _
  simp [eq_comm]

theorem pure_eq_ok {α : Type} {v w : α} {s s' : Reader} :
    (pure v : Read α) s = .ok (w, s') ↔ w = v ∧ s' = s := by
  change Except.ok (v, s) = _ ↔ _
  simp [eq_comm]

theorem peek_eq_ok {n : ℕ} {bytes : Bytes} {s s' : Reader} :
    peek n s = .ok (bytes, s') ↔ bytes = s.rest.take n ∧ s' = s := by
  rw [peek]
  simp [eq_comm]

/-- A scalar costs one value and takes its bytes. -/
theorem scalar_eq_ok {n : ℕ} {bytes : Bytes} {s s' : Reader} :
    scalar n s = .ok (bytes, s') ↔
      bytes.length = n ∧ Consumes T s ⟨bytes, scalarUsage⟩ s' := by
  simp only [scalar, countValue, require, advance, bind_eq_ok, failWhen_eq_ok, modify_eq_ok,
    pure_eq_ok, peek_eq_ok, decide_eq_false_iff_not]
  constructor
  · rintro ⟨_, s1, ⟨_, s2, rfl, hvalues, rfl⟩, _, s3, ⟨hcount, rfl⟩, _, s4, ⟨rfl, rfl⟩, _, s5, rfl,
      rfl, rfl⟩
    simp only [not_lt] at hvalues hcount
    have hlen : (s.rest.take n).length = n := List.length_take_of_le hcount
    refine ⟨hlen, ⟨(List.take_append_drop n s.rest).symm, ?_, ?_⟩⟩
    · refine ⟨fun _ => hvalues, fun h => ?_, fun h => ?_, Nat.zero_le _, Nat.zero_le _, fun h => ?_⟩
      all_goals exact absurd h (lt_irrefl 0)
    · simp [Reader.after, scalarUsage, peakOf, hlen]
  · rintro ⟨hlen, hrest, hroom, hstate⟩
    have hvalues := hroom.values Nat.one_pos
    have htake : s.rest.take n = bytes := by
      change s.rest = bytes ++ s'.rest at hrest
      rw [hrest, ← hlen, List.take_left]
    have hdrop : s.rest.drop n = s'.rest := by
      change s.rest = bytes ++ s'.rest at hrest
      rw [hrest, ← hlen, List.drop_left]
    have hcount : n ≤ s.rest.length := by
      rw [hrest, List.length_append, ← hlen]
      exact Nat.le_add_right _ _
    refine ⟨(), _, ⟨(), _, rfl, ?_, rfl⟩, (), _, ⟨?_, rfl⟩, bytes, _, ⟨htake.symm, rfl⟩, (), _, rfl,
      rfl, ?_⟩
    · exact Nat.not_lt.2 hvalues
    · exact Nat.not_lt.2 hcount
    · rw [hstate]
      simp [Reader.after, scalarUsage, peakOf, hlen, hdrop]

theorem scalar_delivers {n : ℕ} {bytes : Bytes} (hlen : bytes.length = n) :
    Delivers (Fueled T fuel) (scalar n) ⟨bytes, scalarUsage⟩ bytes :=
  fun _ _ h => scalar_eq_ok.2 ⟨hlen, h.consumes⟩

theorem scalar_gathers (n : ℕ) :
    Gathers (Consumes T) (scalar n) (fun bytes p => bytes.length = n ∧ p = ⟨bytes, scalarUsage⟩) := by
  intro s bytes s' h
  obtain ⟨hlen, hs⟩ := scalar_eq_ok.1 h
  exact ⟨_, ⟨hlen, rfl⟩, hs⟩

/-! ### Bytes and multibyte scalars -/

theorem addShifted_eq (value : ℕ) (shifts : List ℕ) :
    addShifted value shifts =
      .ok (shifts.map fun shift => UInt8.ofNat ((value >>> (shift * 8)) &&& 255)) := by
  induction shifts with
  | nil => rfl
  | cons shift shifts ih =>
    have hle : value >>> (shift * 8) &&& 255 ≤ 255 := Nat.and_le_right
    have hu8 : ¬(((value >>> (shift * 8) &&& 255 : ℕ) : ℤ) < 0 ∨
        ((value >>> (shift * 8) &&& 255 : ℕ) : ℤ) > 255) := by omega
    rw [addShifted, ih, addU8, if_neg hu8, Int.toNat_natCast]
    rfl

theorem addShifted_range (value n : ℕ) :
    addShifted value (List.range n) = .ok (littleEndian n value) :=
  addShifted_eq value (List.range n)

theorem addU8_eq_ok {value : ℤ} {bytes : Bytes} :
    addU8 value = .ok bytes ↔
      0 ≤ value ∧ value ≤ 255 ∧ bytes = [UInt8.ofNat value.toNat] := by
  rw [addU8]
  split
  · refine ⟨fun h => (by cases h), fun h => ?_⟩
    omega
  · rename_i hrange
    refine ⟨fun h => ?_, fun h => by rw [h.2.2]⟩
    cases h
    exact ⟨by omega, by omega, rfl⟩

theorem addU32_eq_ok {n : ℕ} {bytes : Bytes} :
    addU32 n = .ok bytes ↔ n < 2 ^ 32 ∧ bytes = littleEndian 4 n := by
  rw [addU32, Int.toNat_natCast, addShifted_range]
  split
  · refine ⟨fun h => (by cases h), fun h => ?_⟩
    omega
  · refine ⟨fun h => ?_, fun h => by rw [h.2]⟩
    cases h
    exact ⟨by omega, rfl⟩

theorem u8_delivers (v : UInt8) :
    Delivers (Fueled T fuel) u8 ⟨[v], scalarUsage⟩ v := by
  have hlen : [v].length = 1 := rfl
  exact (fueled_splitting T fuel).map (fun bytes : Bytes => bytes.headD 0) (scalar_delivers hlen)

theorem u8_gathers : Gathers (Consumes T) u8 (fun v p => p = ⟨[v], scalarUsage⟩) := by
  refine (consumes_joining T).bind (scalar_gathers 1) ?_
  rintro bytes p ⟨hlen, rfl⟩
  obtain ⟨b, rfl⟩ := List.length_eq_one_iff.1 hlen
  exact (consumes_joining T).pure (add_zero _)

theorem u32_delivers {n : ℕ} {bytes : Bytes} (h : addU32 n = .ok bytes) :
    Delivers (Fueled T fuel) u32 ⟨bytes, scalarUsage⟩ n := by
  obtain ⟨hn, rfl⟩ := addU32_eq_ok.1 h
  have hmap := (fueled_splitting T fuel).map (joinBytes 0 0)
    (scalar_delivers (length_littleEndian 4 n))
  rwa [joinBytes_littleEndian hn] at hmap

theorem u32_gathers : Gathers (Consumes T) u32
    (fun n p => addU32 n = .ok p.bytes ∧ p.usage = scalarUsage) := by
  refine (consumes_joining T).bind (scalar_gathers 4) ?_
  rintro bytes p ⟨hlen, rfl⟩
  refine (consumes_joining T).pure ?_
  rw [add_zero, addU32_eq_ok]
  have hlt := joinBytes_lt bytes
  have heq := littleEndian_joinBytes bytes
  rw [hlen] at hlt heq
  exact ⟨⟨hlt, heq.symm⟩, rfl⟩

theorem addI32_eq_ok {text bytes : Bytes} :
    addI32 text = .ok bytes ↔
      ∃ i, int32OfString text = some i ∧ bytes = littleEndian 4 (i % 2 ^ 32).toNat := by
  rw [addI32]
  cases int32OfString text with
  | none => simp
  | some i => simp [addShifted_range, eq_comm]

theorem i32_delivers {text bytes : Bytes} (h : addI32 text = .ok bytes) :
    Delivers (Fueled T fuel) i32 ⟨bytes, scalarUsage⟩ ((int32OfString text).getD 0) := by
  obtain ⟨i, hi, rfl⟩ := addI32_eq_ok.1 h
  obtain ⟨hlo, hhi⟩ := int32OfString_range hi
  have hlt : (i % 2 ^ 32).toNat < 2 ^ 32 := by omega
  have hu32 : addU32 ((i % 2 ^ 32).toNat : ℕ) = .ok (littleEndian 4 (i % 2 ^ 32).toNat) :=
    addU32_eq_ok.2 ⟨hlt, rfl⟩
  have hmap := (fueled_splitting T fuel).map
    (fun bits : ℕ => if bits < 2 ^ 31 then (bits : ℤ) else bits - 2 ^ 32) (u32_delivers hu32)
  have hval : (if (i % 2 ^ 32).toNat < 2 ^ 31 then (((i % 2 ^ 32).toNat : ℕ) : ℤ)
      else ((i % 2 ^ 32).toNat : ℕ) - 2 ^ 32) = i := by
    split <;> omega
  simp only [hval] at hmap
  rw [hi]
  exact hmap

theorem i32_gathers : Gathers (Consumes T) i32
    (fun i p => addI32 (decimal i) = .ok p.bytes ∧ (int32OfString (decimal i)).getD 0 = i ∧
      p.usage = scalarUsage) := by
  refine (consumes_joining T).bind u32_gathers ?_
  rintro n ⟨bytes, usage⟩ ⟨hb, hu⟩
  obtain ⟨hn, rfl⟩ := addU32_eq_ok.1 hb
  refine (consumes_joining T).pure ?_
  rw [add_zero]
  generalize hi : (if n < 2 ^ 31 then (n : ℤ) else n - 2 ^ 32) = i
  have hlo : -2 ^ 31 ≤ i := by split at hi <;> omega
  have hhi : i < 2 ^ 31 := by split at hi <;> omega
  have hback : (i % 2 ^ 32).toNat = n := by split at hi <;> omega
  have hdec := int32OfString_decimal hlo hhi
  refine ⟨addI32_eq_ok.2 ⟨i, hdec, by rw [hback]⟩, by rw [hdec]; rfl, hu⟩

theorem f64_delivers {v : Binary64} {bytes : Bytes} (h : addI64Bits v = .ok bytes) :
    Delivers (Fueled T fuel) f64 ⟨bytes, scalarUsage⟩ v := by
  rw [addI64Bits, addShifted_range] at h
  cases h
  have hmap := (fueled_splitting T fuel).map
    (fun bytes => (⟨UInt64.ofNat (joinBytes 0 0 bytes)⟩ : Binary64))
    (scalar_delivers (length_littleEndian 8 v.bits.toNat))
  rwa [joinBytes_littleEndian (UInt64.toNat_lt v.bits), UInt64.ofNat_toNat] at hmap

theorem f64_gathers : Gathers (Consumes T) f64
    (fun v p => addI64Bits v = .ok p.bytes ∧ p.usage = scalarUsage) := by
  refine (consumes_joining T).bind (scalar_gathers 8) ?_
  rintro bytes p ⟨hlen, rfl⟩
  refine (consumes_joining T).pure ?_
  rw [add_zero]
  have hlt := joinBytes_lt bytes
  have heq := littleEndian_joinBytes bytes
  rw [hlen] at hlt heq
  have hnat : (UInt64.ofNat (joinBytes 0 0 bytes)).toNat = joinBytes 0 0 bytes := by
    rw [UInt64.toNat_ofNat', Nat.mod_eq_of_lt hlt]
  refine ⟨?_, rfl⟩
  rw [addI64Bits, addShifted_range, hnat, heq]

theorem addV2Bool_eq (v : Bool) : addV2Bool v = .ok [if v then 1 else 0] := by
  cases v <;> rfl

theorem boolean_delivers {v : Bool} {bytes : Bytes} (h : addV2Bool v = .ok bytes) :
    Delivers (Fueled T fuel) boolean ⟨bytes, scalarUsage⟩ v := by
  rw [addV2Bool_eq] at h
  cases h
  intro s s' hs
  have hu8 := u8_delivers (if v then 1 else 0 : UInt8) s s' hs
  simp only [boolean, bind_eq_ok, failWhen_eq_ok, pure_eq_ok]
  refine ⟨_, s', hu8, (), s', ⟨?_, rfl⟩, ?_, rfl⟩
  · cases v <;> rfl
  · cases v <;> rfl

theorem boolean_gathers : Gathers (Consumes T) boolean
    (fun v p => addV2Bool v = .ok p.bytes ∧ p.usage = scalarUsage) := by
  refine (consumes_joining T).bind u8_gathers ?_
  rintro value p rfl s v s' h
  simp only [bind_eq_ok, failWhen_eq_ok, pure_eq_ok, decide_eq_false_iff_not] at h
  obtain ⟨_, s1, ⟨hle, rfl⟩, rfl, rfl⟩ := h
  refine ⟨0, ⟨?_, rfl⟩, (consumes_joining T).zero _⟩
  have hcases : value = 0 ∨ value = 1 := by
    rw [gt_iff_lt, UInt8.lt_iff_toNat_lt] at hle
    have hn : value.toNat = 0 ∨ value.toNat = 1 := by
      change ¬1 < value.toNat at hle
      omega
    rcases hn with hn | hn
    · exact Or.inl (UInt8.toNat_inj.1 hn)
    · exact Or.inr (UInt8.toNat_inj.1 hn)
  rcases hcases with rfl | rfl <;> rfl

/-! ### Strings -/

theorem outside_eq (a lo hi : UInt8) :
    decide (a < lo ∨ a > hi) = !decide (a ≥ lo ∧ a ≤ hi) := by
  rw [← decide_not, decide_eq_decide, not_and_or, ge_iff_le, UInt8.not_le, UInt8.not_le, gt_iff_lt]

/-- The two sides accept the same strings. -/
theorem validateUtf8_eq (string : Bytes) : Reader.validateUtf8 string = validateUtf8 string := by
  induction hn : string.length using Nat.strong_induction_on generalizing string with
  | _ n ih =>
    rcases string with _ | ⟨byte, rest⟩
    · rfl
    have ih' : ∀ tail : Bytes, tail.length < n → Reader.validateUtf8 tail = validateUtf8 tail :=
      fun tail hlt => ih tail.length hlt tail rfl
    subst hn
    rw [Reader.validateUtf8.eq_def, validateUtf8.eq_def]
    dsimp only
    by_cases h1 : byte < 128
    · rw [if_pos h1, if_pos h1, ih' rest (by simp)]
    rw [if_neg h1, if_neg h1]
    by_cases h2 : byte ≥ 194 ∧ byte ≤ 223
    · rw [if_pos h2, if_pos h2]
      rcases rest with _ | ⟨second, rest⟩
      · rfl
      · simp only [ih' rest (by simp)]
        cases continuation second <;> rfl
    rw [if_neg h2, if_neg h2]
    by_cases h3 : byte ≥ 224 ∧ byte ≤ 239
    · rw [if_pos h3, if_pos h3]
      rcases rest with _ | ⟨second, _ | ⟨third, rest⟩⟩
      · rfl
      · rfl
      · simp only [ih' rest (by simp; omega), outside_eq]
        split
        · cases continuation third <;> cases decide (second ≥ 160 ∧ second ≤ 191) <;> rfl
        · split
          · cases continuation third <;> cases decide (second ≥ 128 ∧ second ≤ 159) <;> rfl
          · cases continuation third <;> cases continuation second <;> rfl
    rw [if_neg h3, if_neg h3]
    by_cases h4 : byte ≥ 240 ∧ byte ≤ 244
    · rw [if_pos h4, if_pos h4]
      rcases rest with _ | ⟨second, _ | ⟨third, _ | ⟨fourth, rest⟩⟩⟩
      · rfl
      · rfl
      · rfl
      · simp only [ih' rest (by simp; omega), outside_eq]
        split
        · cases continuation third <;> cases continuation fourth <;>
            cases decide (second ≥ 144 ∧ second ≤ 191) <;> rfl
        · split
          · cases continuation third <;> cases continuation fourth <;>
              cases decide (second ≥ 128 ∧ second ≤ 143) <;> rfl
          · cases continuation third <;> cases continuation fourth <;>
              cases continuation second <;> rfl
    · rw [if_neg h4, if_neg h4]

theorem addV2String_eq_ok {string bytes : Bytes} :
    addV2String string = .ok bytes ↔
      validateUtf8 string = true ∧ string.length < 2 ^ 32 ∧
        bytes = littleEndian 4 string.length ++ string := by
  rw [addV2String]
  split
  · rename_i hvalid
    simp only [emit_append_eq_ok, addU32_eq_ok, hvalid, true_and]
    constructor
    · rintro ⟨a, b, ⟨hlt, rfl⟩, hb, rfl⟩
      cases hb
      exact ⟨hlt, rfl⟩
    · rintro ⟨hlt, rfl⟩
      exact ⟨_, _, ⟨hlt, rfl⟩, rfl, rfl⟩
  · rename_i hvalid
    refine ⟨fun h => (by cases h), fun h => absurd h.1 hvalid⟩

/-- The bytes of a string, behind their count. -/
def stringBody (v : Bytes) : Portion :=
  ⟨v, { stringBytes := v.length, longestString := v.length }⟩

theorem stringUsage_eq (v : Bytes) : stringUsage v = scalarUsage + (stringBody v).usage := by
  apply Usage.ext <;> simp [stringUsage, scalarUsage, stringBody]

/-- The part of `string` behind the count. -/
theorem string_eq_ok {v : Bytes} {s s' : Reader} :
    string s = .ok (v, s') ↔ ∃ n s1, u32 s = .ok (n, s1) ∧ v.length = n ∧
      validateUtf8 v = true ∧ Consumes T s1 (stringBody v) s' := by
  simp only [string, require, advance, bind_eq_ok, failWhen_eq_ok, modify_eq_ok, pure_eq_ok,
    peek_eq_ok, decide_eq_false_iff_not]
  constructor
  · rintro ⟨n, s1, hu32, _, s2, ⟨hmax, rfl⟩, _, s3, ⟨htotal, rfl⟩, _, s4, ⟨hcount, rfl⟩, _, s5,
      ⟨rfl, rfl⟩, _, s6, ⟨hvalid, rfl⟩, _, s7, rfl, _, s8, rfl, rfl, rfl⟩
    rw [not_lt] at hmax htotal hcount
    have hlen : (s6.rest.take n).length = n := List.length_take_of_le hcount
    rw [Bool.not_eq_false', validateUtf8_eq] at hvalid
    refine ⟨n, s6, hu32, hlen, hvalid, (List.take_append_drop n s6.rest).symm, ?_, ?_⟩
    · refine ⟨fun h => absurd h (lt_irrefl 0), fun h => ?_, fun h => absurd h (lt_irrefl 0), ?_,
        Nat.zero_le _, fun h => absurd h (lt_irrefl 0)⟩
      · simp only [stringBody, hlen] at h ⊢
        omega
      · simp only [stringBody, hlen]
        exact hmax
    · simp [Reader.after, stringBody, peakOf, hlen]
  · rintro ⟨n, s1, hu32, hlen, hvalid, hrest, hroom, hstate⟩
    change s1.rest = v ++ s'.rest at hrest
    have htake : s1.rest.take n = v := by rw [hrest, ← hlen, List.take_left]
    have hdrop : s1.rest.drop n = s'.rest := by rw [hrest, ← hlen, List.drop_left]
    have hcount : n ≤ s1.rest.length := by
      rw [hrest, List.length_append, ← hlen]
      exact Nat.le_add_right _ _
    have htotal := hroom.stringBytes
    have hmax := hroom.longestString
    simp only [stringBody, hlen] at htotal hmax
    refine ⟨n, s1, hu32, (), s1, ⟨Nat.not_lt.2 hmax, rfl⟩, (), s1, ⟨?_, rfl⟩, (), s1,
      ⟨Nat.not_lt.2 hcount, rfl⟩, v, s1, ⟨htake.symm, rfl⟩, (), s1, ⟨?_, rfl⟩, (), _, rfl, (), _,
      rfl, rfl, ?_⟩
    · omega
    · rw [validateUtf8_eq, hvalid]
      rfl
    · rw [hstate]
      simp [Reader.after, stringBody, peakOf, hlen, hdrop]

theorem string_delivers {v bytes : Bytes} (h : addV2String v = .ok bytes) :
    Delivers (Fueled T fuel) string ⟨bytes, stringUsage v⟩ v := by
  obtain ⟨hvalid, hlt, rfl⟩ := addV2String_eq_ok.1 h
  intro s s' hs
  rw [stringUsage_eq] at hs
  obtain ⟨s1, h1, h2⟩ := (fueled_splitting T fuel).add
    (a := ⟨littleEndian 4 v.length, scalarUsage⟩) (b := stringBody v) hs
  exact string_eq_ok.2 ⟨_, s1, u32_delivers (addU32_eq_ok.2 ⟨hlt, rfl⟩) s s1 h1, rfl, hvalid,
    h2.consumes⟩

theorem string_gathers : Gathers (Consumes T) string
    (fun v p => addV2String v = .ok p.bytes ∧ p.usage = stringUsage v) := by
  intro s v s' h
  obtain ⟨n, s1, hu32, hlen, hvalid, hbody⟩ := (string_eq_ok (T := T)).1 h
  obtain ⟨⟨bytes, usage⟩, ⟨hb, hu⟩, hs⟩ := u32_gathers (T := T) s n s1 hu32
  obtain ⟨hlt, rfl⟩ := addU32_eq_ok.1 hb
  refine ⟨_, ⟨?_, ?_⟩, (consumes_joining T).add hs hbody⟩
  · rw [addV2String_eq_ok, hlen]
    exact ⟨hvalid, hlt, rfl⟩
  · rw [stringUsage_eq, Portion.add_usage, hu]

/-! ### Scopes -/

/-- A portion inside one more scope. -/
def Portion.deepen (p : Portion) : Portion :=
  ⟨p.bytes, p.usage.deepen⟩

/-- The state inside a scope. -/
def Reader.entered (s : Reader) : Reader :=
  { s with depth := s.depth + 1, peak := max s.peak (s.depth + 1) }

theorem withDepth_eq_ok {α : Type} {m : Read α} {v : α} {s s' : Reader} :
    withDepth T m s = .ok (v, s') ↔ s.depth < 2 * T.nestingLimit ∧
      ∃ t, m s.entered = .ok (v, t) ∧ s' = { t with depth := t.depth - 1 } := by
  simp only [withDepth, leave, bind_eq_ok, modify_eq_ok, pure_eq_ok, enter]
  constructor
  · rintro ⟨_, s1, henter, w, t, hm, _, s2, rfl, rfl, rfl⟩
    split at henter
    · cases henter
    · cases henter
      exact ⟨by omega, t, hm, rfl⟩
  · rintro ⟨hlt, t, hm, rfl⟩
    have hnot : ¬s.depth ≥ 2 * T.nestingLimit := by omega
    exact ⟨(), s.entered, by rw [if_neg hnot]; rfl, v, t, hm, (), _, rfl, rfl, rfl⟩

theorem peakOf_deepen (depth : ℕ) (u : Usage) :
    peakOf depth u.deepen = max (depth + 1) (peakOf (depth + 1) u) := by
  have hne : ¬u.depth + 1 = 0 := Nat.succ_ne_zero _
  simp only [peakOf, Usage.deepen, hne, if_false]
  split <;> omega

theorem entered_after (s : Reader) (p : Portion) (rest : Bytes) :
    s.after p.deepen rest =
      { s.entered.after p rest with depth := (s.entered.after p rest).depth - 1 } := by
  simp only [Reader.after, Reader.entered, Portion.deepen, peakOf_deepen, max_assoc,
    Nat.add_sub_cancel]
  rfl

theorem room_deepen {s : Reader} {u : Usage} :
    Room T s u.deepen ↔ s.depth < 2 * T.nestingLimit ∧ Room T s.entered u := by
  constructor
  · rintro ⟨h1, h2, h3, h4, h5, h6⟩
    simp only [Usage.deepen] at h1 h2 h3 h4 h5 h6
    refine ⟨by omega, ⟨h1, h2, h3, h4, h5, fun h => ?_⟩⟩
    simp only [Reader.entered]
    omega
  · rintro ⟨hlt, h1, h2, h3, h4, h5, h6⟩
    simp only [Reader.entered] at h6
    refine ⟨h1, h2, h3, h4, h5, fun h => ?_⟩
    simp only [Usage.deepen]
    by_cases hd : 0 < u.depth
    · have := h6 hd
      omega
    · omega

theorem consumes_deepen {s s' : Reader} {p : Portion} :
    Consumes T s p.deepen s' ↔ s.depth < 2 * T.nestingLimit ∧
      ∃ t, Consumes T s.entered p t ∧ s' = { t with depth := t.depth - 1 } := by
  constructor
  · rintro ⟨hrest, hroom, hstate⟩
    obtain ⟨hlt, hroom'⟩ := room_deepen.1 hroom
    refine ⟨hlt, s.entered.after p s'.rest, ⟨hrest, hroom', rfl⟩, ?_⟩
    rw [hstate]
    exact entered_after s p s'.rest
  · rintro ⟨hlt, t, ⟨hrest, hroom, hstate⟩, rfl⟩
    refine ⟨hrest, room_deepen.2 ⟨hlt, hroom⟩, ?_⟩
    rw [entered_after]
    rw [hstate]
    rfl

theorem withDepth_delivers {α : Type} {m : Read α} {p : Portion} {v : α}
    (h : Delivers (Fueled T fuel) m p v) :
    Delivers (Fueled T (fuel + 1)) (withDepth T m) p.deepen v := by
  rintro s s' ⟨hfuel, hs⟩
  obtain ⟨hlt, t, ht, rfl⟩ := consumes_deepen.1 hs
  refine withDepth_eq_ok.2 ⟨hlt, t, h _ t ⟨?_, ht⟩, rfl⟩
  simp only [Reader.entered]
  omega

theorem withDepth_gathers {α : Type} {m : Read α} {Q : α → Portion → Prop}
    (h : Gathers (Consumes T) m (fun v p => Q v p.deepen)) :
    Gathers (Consumes T) (withDepth T m) Q := by
  intro s v s' hm
  obtain ⟨hlt, t, ht, rfl⟩ := withDepth_eq_ok.1 hm
  obtain ⟨p, hp, hs⟩ := h _ v t ht
  exact ⟨p.deepen, hp, consumes_deepen.2 ⟨hlt, t, hs, rfl⟩⟩

/-- What is delivered whatever the fuel is delivered inside a scope too. -/
theorem withDepth_delivers_of_all {α : Type} {m : Read α} {p : Portion} {v : α}
    (h : Delivers (Fueled T fuel) m p v) :
    Delivers (Fueled T fuel) (withDepth T m) p.deepen v :=
  (withDepth_delivers h).mono fun _ _ _ hs => hs.weaken (Nat.le_succ fuel)

end

end Stanli.PortableMir
