import Mathlib.Algebra.Order.Ring.Int
import Stanli.Graph.Basic

/-!
# Matching the ops of two lanes

The template match of `reroll.cpp` and the signature it is filtered by.  `opsMatch` compares an op
with the one at the same position of a later lane; `opSignature` folds what that comparison wants
identical into one 64-bit word, so that ops with different words need not be compared.

`opsMatch_eq_fields` says once what a match implies: the same fields up to the in-place form of a row
store, and the immediates that no lane may change.  The signature reads nothing else.
-/

namespace Stanli

variable {U : Type*}

/-! ## Kinds of ops -/

/-- `is_row_read`: one window, contiguous or strided, of one base. -/
def Op.isRowRead (op : Op U) : Bool :=
  op.ins.length == 1 && ((op.opcode == .slice && op.idata.length == 1) ||
    (op.opcode == .sliceStrided && op.idata.length == 2))

/-- `is_row_store`. -/
def Op.isRowStore (op : Op U) : Bool :=
  op.ins.length == 2 &&
    (((op.opcode == .setSlice || op.opcode == .setSliceInplace) && op.idata.length == 1) ||
      ((op.opcode == .setSliceStrided || op.opcode == .setSliceStridedInplace) &&
        op.idata.length == 2))

/-- `inplace_form`. -/
def Reroll.inplaceForm : Opcode → Opcode
  | .setSlice => .setSliceInplace
  | .setSliceStrided => .setSliceStridedInplace
  | oc => oc

/-- `is_strided`. -/
def Opcode.isStrided (oc : Opcode) : Bool :=
  oc == .sliceStrided || oc == .setSliceStrided || oc == .setSliceStridedInplace

/-- The opcodes whose only immediate is an element of a vector, which may advance with the lane. -/
def Opcode.isIndexFamily (oc : Opcode) : Bool :=
  oc == .index || oc == .setIndex || oc == .setIndexInplace

/-- The functional write and the in-place write of one row store. -/
def maybeRowStore (a b : Op U) : Bool :=
  (a.opcode == .setSlice && b.opcode == .setSliceInplace) ||
    (a.opcode == .setSliceStrided && b.opcode == .setSliceStridedInplace)

/-! ## The match -/

/-- The last part of `ops_match`, reached by ops whose visible fields agree: how far the integer
immediates may differ at the given lane distance. -/
def immediatesMatch (g : Graph U) (a b : Op U) (laneDistance : ℤ) : Bool :=
  if a.opcode.isIndexFamily then a.idata.length == 1 && b.idata.length == 1
  else if !a.isRowStore && a.isRowRead then
    if a.idata.length != b.idata.length then false
    else if a.idata == b.idata then true
    else if a.opcode.isStrided then
      b.imm 0 == a.imm 0 + laneDistance && b.imm 1 == a.imm 1
    else b.imm 0 == a.imm 0 + laneDistance * g.len a.out
  else if a.isRowStore then
    if a.idata.length != b.idata.length then false
    else if a.opcode.isStrided then
      b.imm 0 == a.imm 0 + laneDistance && b.imm 1 == a.imm 1
    else b.imm 0 == a.imm 0 + laneDistance * g.len (a.input 1)
  -- any two gathers of one width off one base are the same template
  else if a.opcode == .gather then
    a.input 0 == b.input 0 && a.idata.length == b.idata.length
  else if a.opcode.hasTrait .rerollIdataDensity then a.idata.length == b.idata.length
  else a.idata == b.idata

/-- `ops_match`.  A row store run starts with the functional write of the declaration and continues
in place. -/
def opsMatch (g : Graph U) (a b : Op U) (laneDistance : ℤ) : Bool :=
  if a.udata.isSome || b.udata.isSome then false
  else if (a.opcode == .add && a.variant != 0) || (b.opcode == .add && b.variant != 0) then false
  else if a.opcode != b.opcode && (!maybeRowStore a b || !a.isRowStore) then false
  else if a.variant != b.variant || a.ins.length != b.ins.length || a.out2.isSome ||
      b.out2.isSome || a.opcode.isEffectful || a.opcode.hasTrait .variantGrouped then false
  else if a.ins.map g.len != b.ins.map g.len then false
  else if g.len a.out != g.len b.out then false
  else if a.isRowStore && a.out != b.out then false
  else if !a.isRowStore && a.isRowRead && a.input 0 != b.input 0 then false
  else immediatesMatch g a b laneDistance

/-! ## The signature -/

/-- `mix_u64`. -/
def mixU64 (h v : UInt64) : UInt64 :=
  let v := v + 0x9e3779b97f4a7c15
  let v := v ^^^ (v >>> 30)
  let v := v * 0xbf58476d1ce4e5b9
  let v := v ^^^ (v >>> 27)
  let v := v * 0x94d049bb133111eb
  let v := v ^^^ (v >>> 31)
  (h ^^^ v) * 1099511628211

/-- `(uint64_t)(uint32_t)` of a 32-bit immediate. -/
def immWord (v : ℤ) : UInt64 :=
  UInt64.ofNat (v % 2 ^ 32).toNat

/-- The words `op_signature` mixes last: what the op's kind keeps of its output, base and
immediates. -/
def payloadWords (a : Op U) : List UInt64 :=
  if a.isRowStore then [UInt64.ofNat a.out, UInt64.ofNat a.idata.length]
  else if a.isRowRead then [UInt64.ofNat (a.input 0), UInt64.ofNat a.idata.length]
  else if a.opcode == .gather then [UInt64.ofNat (a.input 0), UInt64.ofNat a.idata.length]
  else if a.opcode.isIndexFamily then []
  else UInt64.ofNat a.idata.length ::
    if a.opcode.hasTrait .rerollIdataDensity then [] else a.idata.map immWord

/-- The words `op_signature` mixes, in order.  An op of the graph has a slot for each input and for
its output, so the word for an absent one does not occur. -/
def signatureWords (g : Graph U) (a : Op U) : List UInt64 :=
  [UInt64.ofNat (Reroll.inplaceForm a.opcode).ctorIdx, UInt64.ofNat a.variant,
      UInt64.ofNat a.ins.length] ++
    (a.ins.map g.len).map UInt64.ofNat ++ [UInt64.ofNat (g.len a.out)] ++ payloadWords a

/-- `op_signature`. -/
def opSignature (g : Graph U) (a : Op U) : UInt64 :=
  (signatureWords g a).foldl mixU64 1469598103934665603

/-! ## A match fixes the signature -/

variable {g : Graph U} {a b : Op U} {d : ℤ}

/-- What a match says of the fields of the two ops before it looks at the immediates. -/
structure SameTemplate (g : Graph U) (a b : Op U) : Prop where
  opcode : a.opcode = b.opcode ∨ maybeRowStore a b = true ∧ a.isRowStore = true
  variant : a.variant = b.variant
  arity : a.ins.length = b.ins.length
  inLens : a.ins.map g.len = b.ins.map g.len
  outLen : g.len a.out = g.len b.out
  target : a.isRowStore = true → a.out = b.out
  base : a.isRowStore = false → a.isRowRead = true → a.input 0 = b.input 0

lemma sameTemplate_of_opsMatch (h : opsMatch g a b d = true) :
    SameTemplate g a b ∧ immediatesMatch g a b d = true := by
  unfold opsMatch at h
  split at h
  · cases h
  split at h
  · cases h
  split at h
  · cases h
  rename_i hop
  split at h
  · cases h
  rename_i hfields
  split at h
  · cases h
  rename_i hins
  split at h
  · cases h
  rename_i hout
  split at h
  · cases h
  rename_i htarget
  split at h
  · cases h
  rename_i hbase
  simp only [Bool.or_eq_true, bne_iff_ne, not_or, not_not] at hfields
  refine ⟨⟨?_, hfields.1.1.1.1.1, hfields.1.1.1.1.2, ?_, ?_, ?_, ?_⟩, h⟩
  · by_cases heq : a.opcode = b.opcode
    · exact Or.inl heq
    · right
      simpa [heq] using hop
  · simpa using hins
  · simpa using hout
  · intro hs
    simpa [hs] using htarget
  · intro hs hr
    simpa [hs, hr] using hbase

/-- Whatever the lane distance, matching ops have equally many immediates. -/
lemma length_idata_of_immediatesMatch (h : immediatesMatch g a b d = true) :
    a.idata.length = b.idata.length := by
  unfold immediatesMatch at h
  split at h
  · simp only [Bool.and_eq_true, beq_iff_eq] at h
    rw [h.1, h.2]
  split at h
  · split at h
    · cases h
    · rename_i hlen
      simpa using hlen
  split at h
  · split at h
    · cases h
    · rename_i hlen
      simpa using hlen
  split at h
  · simp only [Bool.and_eq_true, beq_iff_eq] at h
    exact h.2
  split at h
  · simpa using h
  · rw [eq_of_beq h]

lemma inplaceForm_eq_of_maybeRowStore (h : maybeRowStore a b = true) :
    Reroll.inplaceForm a.opcode = Reroll.inplaceForm b.opcode := by
  simp only [maybeRowStore, Bool.or_eq_true, Bool.and_eq_true, beq_iff_eq] at h
  rcases h with ⟨ha, hb⟩ | ⟨ha, hb⟩
  · rw [ha, hb]
    rfl
  · rw [ha, hb]
    rfl

namespace SameTemplate

/-- The in-place write of a row store is one too. -/
lemma isRowStore_eq (h : SameTemplate g a b) (hlen : a.idata.length = b.idata.length) :
    a.isRowStore = b.isRowStore := by
  rcases h.opcode with heq | ⟨hm, -⟩
  · rw [Op.isRowStore, Op.isRowStore, heq, h.arity, hlen]
  · simp only [maybeRowStore, Bool.or_eq_true, Bool.and_eq_true, beq_iff_eq] at hm
    rcases hm with ⟨ha, hb⟩ | ⟨ha, hb⟩
    · rw [Op.isRowStore, Op.isRowStore, ha, hb, h.arity, hlen]
      rfl
    · rw [Op.isRowStore, Op.isRowStore, ha, hb, h.arity, hlen]
      rfl

lemma opcode_eq (h : SameTemplate g a b) (hs : a.isRowStore = false) : a.opcode = b.opcode := by
  rcases h.opcode with heq | ⟨-, hrow⟩
  · exact heq
  · rw [hs] at hrow
    cases hrow

lemma inplaceForm_eq (h : SameTemplate g a b) :
    Reroll.inplaceForm a.opcode = Reroll.inplaceForm b.opcode := by
  rcases h.opcode with heq | ⟨hm, -⟩
  · rw [heq]
  · exact inplaceForm_eq_of_maybeRowStore hm

/-- The kinds of op whose payload the signature tells apart keep the same words. -/
lemma payloadWords_eq (h : SameTemplate g a b) (hi : immediatesMatch g a b d = true) :
    payloadWords a = payloadWords b := by
  have hlen := length_idata_of_immediatesMatch hi
  have hstore := h.isRowStore_eq hlen
  unfold payloadWords
  rw [← hstore]
  by_cases hs : a.isRowStore = true
  · rw [if_pos hs, if_pos hs, h.target hs, hlen]
  · have hs' : a.isRowStore = false := by simpa using hs
    have hoc := h.opcode_eq hs'
    have hread : a.isRowRead = b.isRowRead := by
      rw [Op.isRowRead, Op.isRowRead, hoc, h.arity, hlen]
    rw [if_neg hs, if_neg hs, ← hread, ← hoc]
    by_cases hr : a.isRowRead = true
    · rw [if_pos hr, if_pos hr, h.base hs' hr, hlen]
    rw [if_neg hr, if_neg hr]
    -- past the row kinds only the immediates' own rules are left
    have hr' : a.isRowRead = false := by simpa using hr
    by_cases hg : a.opcode = .gather
    · have hi' : a.input 0 = b.input 0 := by
        simp only [immediatesMatch, hs', hr', hg, Opcode.isIndexFamily] at hi
        simpa using (show _ ∧ _ by simpa using hi).1
      simp [hg, hi', hlen]
    · have hg' : ¬ (a.opcode == .gather) = true := by simpa using hg
      rw [if_neg hg', if_neg hg']
      by_cases hx : a.opcode.isIndexFamily = true
      · rw [if_pos hx, if_pos hx]
      rw [if_neg hx, if_neg hx]
      by_cases ht : a.opcode.hasTrait .rerollIdataDensity = true
      · rw [if_pos ht, if_pos ht, hlen]
      · have heq : a.idata = b.idata := by
          simpa [immediatesMatch, hx, hs', hr', hg, ht] using hi
        rw [if_neg ht, if_neg ht, heq]

end SameTemplate

/-- Ops that match at some lane distance have one signature: every tolerance of the match is absent
from the words the signature mixes. -/
lemma opSignature_eq_of_opsMatch (h : opsMatch g a b d = true) :
    opSignature g a = opSignature g b := by
  obtain ⟨ht, hi⟩ := sameTemplate_of_opsMatch h
  have hwords : signatureWords g a = signatureWords g b := by
    rw [signatureWords, signatureWords, ht.inplaceForm_eq, ht.variant, ht.arity, ht.inLens,
      ht.outLen, ht.payloadWords_eq hi]
  rw [opSignature, opSignature, hwords]

end Stanli
