import Mathlib.Algebra.BigOperators.Group.List.Basic
import Mathlib.Algebra.BigOperators.Ring.List
import Mathlib.Algebra.Order.Ring.Nat
import Mathlib.Data.List.GetD
import Mathlib.Tactic.Common

/-!
# Mixed radix

Numbers read in a list of bases, the first digit the fastest, and what they are good for: the cells of
a box listed one after the other, and a selection of its cells by a list of coordinates for each axis.

`product` lists the choices of one entry from each list, and `number` is where a choice stands in the
box.  `entryAt` computes the `n`-th of these numbers without listing them (`product_map_number`); it
stays inside the box (`entryAt_lt`), and it grows with `n` where the coordinates of each axis do
(`entryAt_strictMono`).
-/

namespace MixedRadix

variable {α β : Type*}

/-! ## Listing a product -/

/-- The choices of one entry from each list, the first list varying fastest. -/
def product : List (List α) → List (List α)
  | [] => [[]]
  | s :: ss => (product ss).flatMap fun t => s.map (· :: t)

/-- The number with the given digits. -/
def number : List ℕ → List ℕ → ℕ
  | b :: bs, d :: ds => d + b * number bs ds
  | _, _ => 0

/-- The `n`-th number of a selection: a list of digits for each base. -/
def entryAt : List (List ℕ × ℕ) → ℕ → ℕ
  | [], _ => 0
  | (s, b) :: rest, n => s.getD (n % s.length) 0 + b * entryAt rest (n / s.length)

/-- How many choices there are. -/
def size (l : List (List ℕ × ℕ)) : ℕ := (l.map fun p => p.1.length).prod

@[simp] lemma size_nil : size [] = 1 := rfl

@[simp] lemma size_cons (p : List ℕ × ℕ) (l : List (List ℕ × ℕ)) :
    size (p :: l) = p.1.length * size l := by
  simp [size]

/-- Two nested loops are one loop over quotients and remainders. -/
lemma range_flatMap_range (f : ℕ → ℕ → β) (l p : ℕ) :
    ((List.range p).flatMap fun m => (List.range l).map fun r => f r m) =
      (List.range (l * p)).map fun n => f (n % l) (n / l) := by
  induction p with
  | zero => simp
  | succ p ih =>
    rcases Nat.eq_zero_or_pos l with rfl | hl
    · simp
    · rw [List.range_succ, List.flatMap_append, ih, Nat.mul_succ, List.range_add, List.map_append,
        List.map_map, List.flatMap_singleton]
      congr 1
      refine List.map_congr_left fun r hr => ?_
      have hr : r < l := List.mem_range.1 hr
      simp only [Function.comp_apply]
      rw [Nat.mul_add_mod, Nat.mod_eq_of_lt hr, Nat.mul_add_div hl, Nat.div_eq_of_lt hr, Nat.add_zero]

lemma map_getD_range (s : List ℕ) : (List.range s.length).map (s.getD · 0) = s := by
  refine List.ext_getElem (by simp) fun i h _ => ?_
  rw [List.length_map, List.length_range] at h
  simp [h]

/-- `entryAt` enumerates the selection. -/
theorem product_map_number (l : List (List ℕ × ℕ)) :
    (product (l.map Prod.fst)).map (number (l.map Prod.snd)) =
      (List.range (size l)).map (entryAt l) := by
  induction l with
  | nil => rfl
  | cons p l ih =>
    obtain ⟨s, b⟩ := p
    have hrow : ∀ t, (s.map (· :: t)).map (number (b :: l.map Prod.snd)) =
        (List.range s.length).map fun r => s.getD r 0 + b * number (l.map Prod.snd) t := by
      intro t
      conv_lhs => rw [← map_getD_range s]
      rw [List.map_map, List.map_map]
      rfl
    calc (product (((s, b) :: l).map Prod.fst)).map (number (((s, b) :: l).map Prod.snd))
        = ((product (l.map Prod.fst)).flatMap fun t => (List.range s.length).map fun r =>
            s.getD r 0 + b * number (l.map Prod.snd) t) := by
          rw [List.map_cons, List.map_cons, product, List.map_flatMap]
          simp only [hrow]
      _ = (((product (l.map Prod.fst)).map (number (l.map Prod.snd))).flatMap fun m =>
            (List.range s.length).map fun r => s.getD r 0 + b * m) := by
          rw [List.flatMap_map]
      _ = ((List.range (size l)).flatMap fun n => (List.range s.length).map fun r =>
            s.getD r 0 + b * entryAt l n) := by
          rw [ih, List.flatMap_map]
      _ = (List.range (size ((s, b) :: l))).map (entryAt ((s, b) :: l)) := by
          rw [range_flatMap_range (fun r n => s.getD r 0 + b * entryAt l n), size_cons]
          rfl

/-! ## Selections in a box -/

/-- Every digit is below its base. -/
def Inside (l : List (List ℕ × ℕ)) : Prop := ∀ p ∈ l, ∀ d ∈ p.1, d < p.2

/-- The digits of each base grow. -/
def Increasing (l : List (List ℕ × ℕ)) : Prop := ∀ p ∈ l, p.1.Pairwise (· < ·)

lemma getD_mod_lt {s : List ℕ} {b n : ℕ} (hs : 0 < s.length) (h : ∀ d ∈ s, d < b) :
    s.getD (n % s.length) 0 < b := by
  have hn : n % s.length < s.length := Nat.mod_lt n hs
  rw [List.getD_eq_getElem _ _ hn]
  exact h _ (List.getElem_mem hn)

/-- The choices of a selection lie in the box. -/
lemma forall₂_lt_of_mem_product {l : List (List ℕ × ℕ)} (h : Inside l) {t : List ℕ}
    (ht : t ∈ product (l.map Prod.fst)) : List.Forall₂ (· < ·) t (l.map Prod.snd) := by
  induction l generalizing t with
  | nil =>
    rw [List.map_nil, product, List.mem_singleton] at ht
    subst ht
    exact .nil
  | cons p l ih =>
    rw [List.map_cons, product, List.mem_flatMap] at ht
    obtain ⟨t', ht', ht⟩ := ht
    obtain ⟨d, hd, rfl⟩ := List.mem_map.1 ht
    exact .cons (h p (List.mem_cons_self ..) d hd)
      (ih (fun q hq => h q (List.mem_cons_of_mem _ hq)) ht')

/-- The numbers of a selection lie in the box. -/
lemma entryAt_lt {l : List (List ℕ × ℕ)} (h : Inside l) {n : ℕ} (hn : n < size l) :
    entryAt l n < (l.map Prod.snd).prod := by
  induction l generalizing n with
  | nil => simp [entryAt]
  | cons p l ih =>
    obtain ⟨s, b⟩ := p
    replace hn : n < s.length * size l := by rwa [size_cons] at hn
    have hs : 0 < s.length := Nat.pos_of_ne_zero fun h0 => by simp [h0] at hn
    have hdigit : s.getD (n % s.length) 0 < b :=
      getD_mod_lt hs fun d hd => h _ (List.mem_cons_self ..) d hd
    have hrest : entryAt l (n / s.length) < (l.map Prod.snd).prod :=
      ih (fun p hp => h p (List.mem_cons_of_mem _ hp)) ((Nat.div_lt_iff_lt_mul hs).2 (by
        rw [Nat.mul_comm]
        exact hn))
    have hmul := Nat.mul_le_mul_left b (Nat.succ_le_of_lt hrest)
    rw [Nat.mul_succ] at hmul
    simp only [entryAt, List.map_cons, List.prod_cons]
    omega

/-- Growing coordinates give growing numbers. -/
lemma entryAt_strictMono {l : List (List ℕ × ℕ)} (h : Inside l) (hinc : Increasing l) {m n : ℕ}
    (hmn : m < n) (hn : n < size l) : entryAt l m < entryAt l n := by
  induction l generalizing m n with
  | nil =>
    rw [size_nil] at hn
    omega
  | cons p l ih =>
    obtain ⟨s, b⟩ := p
    replace hn : n < s.length * size l := by rwa [size_cons] at hn
    have hs : 0 < s.length := Nat.pos_of_ne_zero fun h0 => by simp [h0] at hn
    have hdigits : ∀ d ∈ s, d < b := fun d hd => h _ (List.mem_cons_self ..) d hd
    have hquot : n / s.length < size l := (Nat.div_lt_iff_lt_mul hs).2 (by
      rw [Nat.mul_comm]
      exact hn)
    have hle : m / s.length ≤ n / s.length := Nat.div_le_div_right (Nat.le_of_lt hmn)
    rw [entryAt, entryAt]
    rcases Nat.lt_or_eq_of_le hle with hlt | heq
    · have hstep := ih (fun p hp => h p (List.mem_cons_of_mem _ hp))
        (fun p hp => hinc p (List.mem_cons_of_mem _ hp)) hlt hquot
      have hmul := Nat.mul_le_mul_left b (Nat.succ_le_of_lt hstep)
      have hdigit := @getD_mod_lt s b m hs hdigits
      rw [Nat.mul_succ] at hmul
      omega
    · have hmod : m % s.length < n % s.length := by
        have hm := Nat.div_add_mod m s.length
        have hn' := Nat.div_add_mod n s.length
        rw [heq] at hm
        omega
      have hlt : n % s.length < s.length := Nat.mod_lt n hs
      have hmlt : m % s.length < s.length := by omega
      have hpair := List.pairwise_iff_getElem.1 (hinc _ (List.mem_cons_self ..)) (m % s.length)
        (n % s.length) hmlt hlt hmod
      rw [heq, List.getD_eq_getElem _ _ hmlt, List.getD_eq_getElem _ _ hlt]
      exact Nat.add_lt_add_right hpair _

/-! ## Digits -/

/-- The digits of a number, the first the fastest. -/
def digits : List ℕ → ℕ → List ℕ
  | [], _ => []
  | b :: bs, n => n % b :: digits bs (n / b)

@[simp] lemma length_digits (bs : List ℕ) (n : ℕ) : (digits bs n).length = bs.length := by
  induction bs generalizing n with
  | nil => rfl
  | cons b bs ih => rw [digits, List.length_cons, List.length_cons, ih]

/-- A box with a number in it has no empty side. -/
lemma pos_of_lt_prod {bs : List ℕ} {n : ℕ} (h : n < bs.prod) : ∀ b ∈ bs, 0 < b := by
  intro b hb
  apply Nat.pos_of_ne_zero
  rintro rfl
  rw [List.prod_eq_zero hb] at h
  exact Nat.not_lt_zero n h

lemma digits_lt {bs : List ℕ} (h : ∀ b ∈ bs, 0 < b) (n : ℕ) :
    List.Forall₂ (· < ·) (digits bs n) bs := by
  induction bs generalizing n with
  | nil => exact .nil
  | cons b bs ih =>
    exact .cons (Nat.mod_lt n (h b (List.mem_cons_self ..)))
      (ih (fun b' hb' => h b' (List.mem_cons_of_mem _ hb')) _)

/-- The digits of a number give it back. -/
theorem number_digits {bs : List ℕ} {n : ℕ} (h : n < bs.prod) : number bs (digits bs n) = n := by
  induction bs generalizing n with
  | nil =>
    rw [List.prod_nil] at h
    exact (Nat.lt_one_iff.1 h).symm
  | cons b bs ih =>
    rw [List.prod_cons] at h
    have hb : 0 < b := Nat.pos_of_ne_zero fun h0 => by simp [h0] at h
    rw [digits, number, ih ((Nat.div_lt_iff_lt_mul hb).2 (by rwa [Nat.mul_comm]))]
    exact Nat.mod_add_div n b

/-- Digits in the box are the digits of their number. -/
theorem digits_number {bs ds : List ℕ} (h : List.Forall₂ (· < ·) ds bs) :
    digits bs (number bs ds) = ds := by
  induction h with
  | nil => rfl
  | @cons d b ds bs hd _ ih =>
    have hb : 0 < b := Nat.zero_lt_of_lt hd
    rw [number, digits, Nat.add_mul_mod_self_left, Nat.mod_eq_of_lt hd, Nat.add_mul_div_left _ _ hb,
      Nat.div_eq_of_lt hd, Nat.zero_add, ih]

lemma number_lt {bs ds : List ℕ} (h : List.Forall₂ (· < ·) ds bs) : number bs ds < bs.prod := by
  induction h with
  | nil => exact Nat.one_pos
  | @cons d b ds bs hd _ ih =>
    rw [number, List.prod_cons]
    have hmul := Nat.mul_le_mul_left b (Nat.succ_le_of_lt ih)
    rw [Nat.mul_succ] at hmul
    omega

/-- The later digits count whole boxes of the earlier ones. -/
lemma number_append {bs cs ds es : List ℕ} (h : ds.length = bs.length) :
    number (bs ++ cs) (ds ++ es) = number bs ds + bs.prod * number cs es := by
  induction bs generalizing ds with
  | nil =>
    rw [List.length_eq_zero_iff.1 h]
    simp [number]
  | cons b bs ih =>
    cases ds with
    | nil => simp at h
    | cons d ds =>
      rw [List.cons_append, List.cons_append, number, number, ih (by simpa using h), List.prod_cons]
      rw [Nat.mul_add, Nat.mul_assoc, Nat.add_assoc]

lemma digits_append (bs cs : List ℕ) (n : ℕ) :
    digits (bs ++ cs) n = digits bs n ++ digits cs (n / bs.prod) := by
  induction bs generalizing n with
  | nil => simp [digits]
  | cons b bs ih =>
    rw [List.cons_append, digits, ih, digits, List.cons_append, Nat.div_div_eq_div_mul, List.prod_cons]

/-! ## Parts of one length -/

lemma length_flatten_of_forall {parts : List (List α)} {n : ℕ} (h : ∀ p ∈ parts, p.length = n) :
    parts.flatten.length = parts.length * n := by
  rw [List.length_flatten, List.map_eq_replicate_iff.2 h, List.sum_replicate_nat]

/-- A list read entry by entry. -/
lemma map_getD_range_eq (l : List α) (d : α) : (List.range l.length).map (l.getD · d) = l := by
  refine List.ext_getElem (by simp) fun i h _ => ?_
  rw [List.length_map, List.length_range] at h
  simp [h]

/-- The parts one after the other: entry `j` of part `b`. -/
lemma getD_flatten {parts : List (List α)} {n b j : ℕ} (h : ∀ p ∈ parts, p.length = n) (hj : j < n)
    (d : α) : parts.flatten.getD (b * n + j) d = (parts.getD b []).getD j d := by
  induction parts generalizing b with
  | nil => simp
  | cons p parts ih =>
    have hp : p.length = n := h p (List.mem_cons_self ..)
    cases b with
    | zero =>
      rw [List.flatten_cons, Nat.zero_mul, Nat.zero_add, List.getD_append _ _ _ _ (by omega),
        List.getD_cons_zero]
    | succ b =>
      rw [List.flatten_cons, Nat.succ_mul, Nat.add_right_comm, List.getD_append_right _ _ _ _ (by omega),
        hp, Nat.add_sub_cancel, ih fun q hq => h q (List.mem_cons_of_mem _ hq), List.getD_cons_succ]

end MixedRadix
