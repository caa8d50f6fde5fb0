import Stanli.Program.Emitted

/-!
# Shared adjoint cells

A copy whose source is not written again shares its source's adjoint cell.  Two registers share a
cell exactly when they have the same root, and behind an instruction that is no such copy the cell of
what it writes belongs to nothing else that has been written (`undefined_of_sharesCell`).
-/

namespace Stanli

open Program

namespace IslandProg

variable {V : Type*} {R : Registry} {p : IslandProg V}

/-! ## First and last writes -/

lemma firstWrite_le {k r : ℕ} {I : Instr} (hI : p.code[k]? = some I) (hr : r ∈ p.writes I) :
    p.firstWrite r ≤ k := by
  unfold firstWrite
  split
  · omega
  · rename_i i hi
    rw [List.findIdx?_eq_some_iff_getElem] at hi
    obtain ⟨hlt, -, hmin⟩ := hi
    obtain ⟨hk, rfl⟩ := List.getElem?_eq_some_iff.1 hI
    by_contra hcon
    exact hmin k (by omega) (by simpa using hr)

lemma le_lastWrite {k r : ℕ} {I : Instr} (hI : p.code[k]? = some I) (hr : r ∈ p.writes I) :
    (k : ℤ) ≤ p.lastWrite r := le_lastPositions hI (by simpa using hr)

/-- The last write of a register is one. -/
lemma lastWrite_spec (p : IslandProg V) (r : ℕ) : p.lastWrite r = -1 ∨ ∃ (j : ℕ) (J : Instr),
    p.code[j]? = some J ∧ r ∈ p.writes J ∧ p.lastWrite r = j := by
  refine (lastPositions_spec _ p.code r).imp_right ?_
  rintro ⟨j, J, hJ, hr, hlast⟩
  exact ⟨j, J, hJ, by simpa using hr, hlast⟩

/-- The copies that share cells. -/
structure SharesCells (R : Registry) (p : IslandProg V) (i : ℕ) (I : Instr) : Prop where
  instr : p.code[i]? = some I
  copy : I.code = .mov ∨ I.code = .movr
  dst : I.dst + copyLen I ≤ p.nRegs
  src : I.a + copyLen I ≤ p.nRegs
  first : ∀ k < copyLen I, p.firstWrite (I.dst + k) = i
  last : ∀ k < copyLen I, p.lastWrite (I.dst + k) = i
  fixed : ∀ k < copyLen I, p.lastWrite (I.a + k) ≤ i
  private_ : ∀ k < copyLen I, p.noAlias R (I.dst + k) = false

lemma sharesCells_iff {i : ℕ} {I : Instr} (hI : p.code[i]? = some I) :
    p.aliasable R I i = true ↔ SharesCells R p i I ∧ 0 < copyLen I := by
  simp only [aliasable, Bool.and_eq_true, decide_eq_true_eq, List.all_eq_true, List.mem_range,
    Bool.not_eq_true']
  constructor
  · rintro ⟨⟨⟨⟨h1, h2⟩, h3⟩, h4⟩, h5⟩
    exact ⟨⟨hI, h1, h3, h4, fun k hk => (h5 k hk).1.1.1, fun k hk => (h5 k hk).1.1.2,
      fun k hk => (h5 k hk).1.2, fun k hk => (h5 k hk).2⟩, h2⟩
  · rintro ⟨h, hpos⟩
    exact ⟨⟨⟨⟨h.copy, hpos⟩, h.dst⟩, h.src⟩, fun k hk =>
      ⟨⟨⟨h.first k hk, h.last k hk⟩, h.fixed k hk⟩, h.private_ k hk⟩⟩

/-- What a copy writes. -/
lemma mem_writes_copy {I : Instr} (h : I.code = .mov ∨ I.code = .movr) {r : ℕ} :
    r ∈ p.writes I ↔ ∃ k < copyLen I, r = I.dst + k := by
  have hcall : I.code ≠ .call := by rcases h with h | h <;> simp [h]
  have hlen : I.outputLen = copyLen I := by
    rcases h with h | h <;> simp [Instr.outputLen, copyLen, h, Code.has, Code.flags]
  rw [mem_writes hcall, hlen]
  constructor
  · rintro ⟨h1, h2⟩
    exact ⟨r - I.dst, by omega, by omega⟩
  · rintro ⟨k, hk, rfl⟩
    omega

/-- The source of a checked copy is what it writes, or disjoint from it. -/
lemma Checked.copy {i : ℕ} {I : Instr} (h : p.Checked R i I) (hc : I.code = .mov ∨ I.code = .movr) :
    I.a = I.dst ∨ ∀ k < copyLen I, ∀ j < copyLen I, I.a + k ≠ I.dst + j := by
  rcases hc with hc | hc
  · rcases eq_or_ne I.a I.dst with heq | hne
    · exact Or.inl heq
    · refine Or.inr fun k hk j hj => ?_
      have : copyLen I = 1 := by simp [copyLen, hc]
      omega
  · have hlen : copyLen I = I.len := by simp [copyLen, hc]
    have hin : I.inputLen 0 = I.len := by simp [Instr.inputLen, hc, Code.has, Code.flags]
    have hout : I.outputLen = I.len := by simp [Instr.outputLen, hc, Code.has, Code.flags]
    rcases lt_or_ge 1 I.len with hlt | hle
    · have := h.disjoint (by simp [hc]) (by simp [hc]) (by simp [Instr.isRangedDensity, hc]) 0
        (by omega) (by simp [Instr.reads, Instr.rule, hc, Code.has, Code.flags]) (by omega)
      rw [hin, hout] at this
      simp only [Instr.operand] at this
      rcases this with h | h | h | ⟨-, h⟩
      · omega
      · exact Or.inr fun k hk j hj => by omega
      · exact Or.inr fun k hk j hj => by omega
      · exact Or.inl h.symm
    · rcases eq_or_ne I.a I.dst with heq | hne
      · exact Or.inl heq
      · exact Or.inr fun k hk j hj => by omega

/-! ## Roots -/

/-- Copying roots from `a` to `dst`, when the two ranges are the same or disjoint. -/
lemma copyRoots_apply {a dst n : ℕ} (h : a = dst ∨ ∀ k < n, ∀ j < n, a + k ≠ dst + j)
    (root : ℕ → ℕ) :
    let root' := (List.range n).foldl
      (fun root k => Function.update root (dst + k) (root (a + k))) root
    (∀ k < n, root' (dst + k) = root (a + k)) ∧
      ∀ r, (∀ k < n, r ≠ dst + k) → root' r = root r := by
  induction n with
  | zero => exact ⟨fun k hk => absurd hk (Nat.not_lt_zero k), fun _ _ => rfl⟩
  | succ n ih =>
    obtain ⟨h1, h2⟩ := ih (h.imp_right fun h k hk j hj => h k (by omega) j (by omega))
    have hsrc : (List.range n).foldl
        (fun root k => Function.update root (dst + k) (root (a + k))) root (a + n) =
          root (a + n) := by
      refine h2 _ fun k hk => ?_
      rcases h with rfl | h
      · omega
      · exact h n (by omega) k (by omega)
    intro root'
    have hroot : root' = Function.update ((List.range n).foldl
        (fun root k => Function.update root (dst + k) (root (a + k))) root) (dst + n)
          (root (a + n)) := by
      simp only [root', List.range_succ, List.foldl_append, List.foldl_cons, List.foldl_nil, hsrc]
    refine ⟨fun k hk => ?_, fun r hr => ?_⟩
    · rcases Nat.lt_succ_iff_lt_or_eq.1 hk with hlt | rfl
      · rw [hroot, Function.update_of_ne (by omega), h1 k hlt]
      · rw [hroot, Function.update_self]
    · rw [hroot, Function.update_of_ne (hr n (by omega)), h2 r fun k hk => hr k (by omega)]

/-- A register is its own root, or a proper copy of a register with the same root. -/
def RootStep (R : Registry) (p : IslandProg V) (n : ℕ) (root : ℕ → ℕ) : Prop :=
  (∀ r, root r = r ∨ ∃ i I k, i < n ∧ SharesCells R p i I ∧ k < copyLen I ∧ r = I.dst + k ∧
    I.a + k ≠ r ∧ root r = root (I.a + k)) ∧
  ∀ i I, i < n → p.code[i]? = some I → p.aliasable R I i = true → ∀ k < copyLen I,
    root (I.dst + k) = root (I.a + k)

/-- The roots have one step, at each prefix of the code. -/
lemma rootStep_adjRoot (hch : ∀ i I, p.code[i]? = some I → p.Checked R i I) :
    RootStep R p p.code.length (p.adjRoot R) := by
  have key : ∀ (is : List Instr) (m : ℕ) (root : ℕ → ℕ), p.code.drop m = is →
      RootStep R p m root → RootStep R p (m + is.length) ((is.zipIdx m).foldl (fun root I =>
        if p.aliasable R I.1 I.2 then
          (List.range (copyLen I.1)).foldl (fun root k =>
            Function.update root (I.1.dst + k) (root (I.1.a + k))) root
        else root) root) := by
    intro is
    induction is with
    | nil => exact fun m root _ h => by simpa using h
    | cons I is ih =>
      intro m root his h
      have hI : p.code[m]? = some I := by
        rw [← Nat.add_zero m, ← List.getElem?_drop, his]
        rfl
      have hdrop : p.code.drop (m + 1) = is := by
        rw [← List.drop_drop, his]
        rfl
      rw [List.zipIdx_cons, List.foldl_cons, List.length_cons,
        show m + (is.length + 1) = m + 1 + is.length by omega]
      refine ih (m + 1) _ hdrop ?_
      dsimp only
      split
      · rename_i hal
        obtain ⟨hs, -⟩ := (sharesCells_iff hI).1 hal
        obtain ⟨hdst, hother⟩ := copyRoots_apply ((hch m I hI).copy hs.copy) root
        generalize (List.range (copyLen I)).foldl (fun root k =>
          Function.update root (I.dst + k) (root (I.a + k))) root = root' at hdst hother
        -- A root that is not written by this copy stays as it was.
        have hkeep : ∀ (r i : ℕ), p.lastWrite r ≤ (i : ℤ) → i < m → root' r = root r := by
          intro r i hr him
          refine hother r fun k hk heq => ?_
          have := le_lastWrite (r := r) hI ((mem_writes_copy hs.copy).2 ⟨k, hk, heq⟩)
          omega
        have hsrc : ∀ k < copyLen I, root' (I.a + k) = root (I.a + k) := by
          intro k hk
          rcases (hch m I hI).copy hs.copy with heq | hne
          · rw [heq, hdst k hk, heq]
          · exact hother _ fun j hj => hne k hk j hj
        refine ⟨fun r => ?_, fun i J hi hJ halJ k hk => ?_⟩
        · by_cases hr : ∃ k < copyLen I, r = I.dst + k
          · obtain ⟨k, hk, rfl⟩ := hr
            rcases eq_or_ne (I.a + k) (I.dst + k) with heq | hne
            · rcases h.1 (I.dst + k) with h1 | ⟨i, J, j, hi, hJ, hj, hr, -, -⟩
              · exact Or.inl (by rw [hdst k hk, heq, h1])
              · have := hJ.last j hj
                rw [← hr] at this
                have := le_lastWrite (r := I.dst + k) hI ((mem_writes_copy hs.copy).2 ⟨k, hk, rfl⟩)
                omega
            · exact Or.inr ⟨m, I, k, by omega, hs, hk, rfl, hne, by rw [hdst k hk, hsrc k hk]⟩
          · push Not at hr
            rw [hother r hr]
            refine (h.1 r).imp_right ?_
            rintro ⟨i, J, j, hi, hJ, hj, rfl, hne, hroot⟩
            exact ⟨i, J, j, by omega, hJ, hj, rfl, hne, by rw [hroot, hkeep _ i (hJ.fixed j hj) hi]⟩
        · rcases Nat.lt_succ_iff_lt_or_eq.1 hi with hlt | rfl
          · obtain ⟨hsJ, -⟩ := (sharesCells_iff hJ).1 halJ
            rw [hkeep _ i (hsJ.last k hk).le hlt, hkeep _ i (hsJ.fixed k hk) hlt]
            exact h.2 i J hlt hJ halJ k hk
          · obtain rfl : I = J := Option.some.inj (hI.symm.trans hJ)
            rw [hdst k hk, hsrc k hk]
      · rename_i hal
        refine ⟨fun r => (h.1 r).imp_right ?_, fun i J hi hJ halJ k hk => ?_⟩
        · rintro ⟨i, J, j, hi, hrest⟩
          exact ⟨i, J, j, by omega, hrest⟩
        · rcases Nat.lt_succ_iff_lt_or_eq.1 hi with hlt | rfl
          · exact h.2 i J hlt hJ halJ k hk
          · obtain rfl : I = J := Option.some.inj (hI.symm.trans hJ)
            exact absurd halJ hal
  have := key p.code 0 id rfl ⟨fun r => Or.inl rfl, fun i I hi => absurd hi (Nat.not_lt_zero i)⟩
  simpa [adjRoot] using this

/-- Nothing written up to position `k` counts for a register: it is no live-in, and its first write
comes later. -/
def WrittenBehind (p : IslandProg V) (k r : ℕ) : Prop :=
  p.isLiveIn r = false ∧ (k : ℤ) < p.firstWrite r

lemma WrittenBehind.not_defined {k r : ℕ} (h : p.WrittenBehind k r) {vs : List ℕ}
    (hvs : ∀ v ∈ vs, v ≤ k) : ¬p.Defined (fun r => p.isLiveIn r = true) vs r := by
  rintro (hlive | ⟨j, hj, J, hJ, hr⟩)
  · exact absurd hlive (by simp [h.1])
  · have := firstWrite_le hJ (mem_writes_of_defines hr)
    have := hvs j hj
    have := h.2
    omega

section Roots

variable (hch : ∀ i I, p.code[i]? = some I → p.Checked R i I)

include hch

/-- A copy that shares cells gives its destination the root of its source. -/
lemma adjRoot_copy {i : ℕ} {I : Instr} (hI : p.code[i]? = some I)
    (hal : p.aliasable R I i = true) {k : ℕ} (hk : k < copyLen I) :
    p.adjRoot R (I.dst + k) = p.adjRoot R (I.a + k) :=
  (rootStep_adjRoot hch).2 i I (List.getElem?_eq_some_iff.1 hI).1 hI hal k hk

/-- What an instruction that shares no cells writes is its own root. -/
lemma adjRoot_of_writes {k w : ℕ} {I : Instr} (hI : p.code[k]? = some I)
    (hal : p.aliasable R I k = false) (hw : w ∈ p.writes I) : p.adjRoot R w = w := by
  rcases (rootStep_adjRoot hch).1 w with h | ⟨i, J, j, hi, hJ, hj, rfl, -, -⟩
  · exact h
  · exfalso
    have h1 := firstWrite_le hI hw
    have h2 := le_lastWrite hI hw
    have h3 := hJ.first j hj
    have h4 := hJ.last j hj
    obtain rfl : i = k := by omega
    obtain rfl : I = J := Option.some.inj (hI.symm.trans hJ.instr)
    rw [(sharesCells_iff hI).2 ⟨hJ, by omega⟩] at hal
    simp at hal

/-- A register with a root other than itself is no live-in, and is written after its root. -/
lemma firstWrite_of_adjRoot {r w : ℕ} (h : p.adjRoot R r = w) (hne : r ≠ w) :
    p.isLiveIn r = false ∧ ∃ (j : ℕ) (J : Instr), p.firstWrite r = j ∧ p.lastWrite w ≤ j ∧
      p.code[j]? = some J ∧ p.aliasable R J j = true := by
  have key : ∀ (n r : ℕ), p.firstWrite r ≤ n → p.adjRoot R r = w → r ≠ w →
      p.isLiveIn r = false ∧ ∃ (j : ℕ) (J : Instr), p.firstWrite r = j ∧ p.lastWrite w ≤ j ∧
        p.code[j]? = some J ∧ p.aliasable R J j = true := by
    intro n
    induction n using Nat.strong_induction_on with
    | _ n ih =>
      intro r hn hr hne
      rcases (rootStep_adjRoot hch).1 r with hself | ⟨j, J, k, hj, hJ, hk, rfl, hsrc, hroot⟩
      · exact absurd (hself.symm.trans hr) hne
      · have hfirst := hJ.first k hk
        have halJ := (sharesCells_iff hJ.instr).2 ⟨hJ, by omega⟩
        have hlive : p.isLiveIn (J.dst + k) = false := by
          have := hJ.private_ k hk
          rw [noAlias, Bool.or_eq_false_iff] at this
          exact this.1
        refine ⟨hlive, j, J, hfirst, ?_, hJ.instr, halJ⟩
        rcases eq_or_ne (J.a + k) w with rfl | hne'
        · exact hJ.fixed k hk
        · -- The source is itself a copy, made earlier.
          rcases (rootStep_adjRoot hch).1 (J.a + k) with hself | ⟨i, I, m, hi, hI, hm, heq, -, -⟩
          · exact absurd (hself.symm.trans (hroot.symm.trans hr)) hne'
          · have hlt : i < j := by
              have h1 := hI.last m hm
              have h2 := hJ.fixed k hk
              rw [heq] at h2
              rcases lt_trichotomy i j with hlt | rfl | hgt
              · exact hlt
              · obtain rfl : I = J := Option.some.inj (hI.instr.symm.trans hJ.instr)
                rcases (hch i I hI.instr).copy hI.copy with ha | ha
                · exact absurd (by omega) hsrc
                · exact absurd heq (ha k hk m hm)
              · omega
            have hfirst' : p.firstWrite (J.a + k) = i := heq ▸ hI.first m hm
            obtain ⟨-, j', J', hj', hlast, -⟩ :=
              ih i (by omega) (J.a + k) hfirst'.le (hroot.symm.trans hr) hne'
            omega
  rcases lt_or_ge (p.firstWrite r) 0 with hneg | hpos
  · exact key 0 r (by omega) h hne
  · exact key (p.firstWrite r).toNat r (by omega) h hne

/-- Behind an instruction that shares no cells, a register other than `w` with the cell of what it
writes has not been written. -/
lemma writtenBehind_of_root {k w r : ℕ} {I : Instr} (hI : p.code[k]? = some I)
    (hal : p.aliasable R I k = false) (hw : w ∈ p.writes I)
    (hroot : p.adjRoot R r = p.adjRoot R w) (hne : r ≠ w) : p.WrittenBehind k r := by
  rw [adjRoot_of_writes hch hI hal hw] at hroot
  obtain ⟨hlive, j, J, hfirst, hlast, hJ, halJ⟩ := firstWrite_of_adjRoot hch hroot hne
  refine ⟨hlive, ?_⟩
  have := le_lastWrite hI hw
  rw [hfirst]
  refine lt_of_le_of_ne (by omega) fun heq => ?_
  obtain rfl : k = j := by omega
  obtain rfl : I = J := Option.some.inj (hI.symm.trans hJ)
  rw [hal] at halJ
  simp at halJ

end Roots

/-! ## Cells -/

/-- Registers of the file have the same cell exactly when they have the same root. -/
lemma adjCell_inj {r r' : ℕ} (hr : r < p.nRegs) (hr' : r' < p.nRegs) :
    p.adjCell R r = p.adjCell R r' ↔ p.adjRoot R r = p.adjRoot R r' := by
  have hlt : ∀ x y, x < p.nRegs → p.adjRoot R x < p.adjRoot R y → p.adjCell R x < p.adjCell R y := by
    intro x y hx hxy
    have hused : p.usedRoot R (p.adjRoot R x) = true :=
      List.any_eq_true.2 ⟨x, List.mem_range.2 hx, by simp⟩
    have hsplit : List.range (p.adjRoot R y) = List.range (p.adjRoot R x + 1) ++
        (List.range (p.adjRoot R y - (p.adjRoot R x + 1))).map (p.adjRoot R x + 1 + ·) := by
      rw [← List.range_add]
      congr 1
      omega
    unfold adjCell
    rw [hsplit, List.filter_append, List.length_append, List.range_succ, List.filter_append,
      List.length_append, List.filter_singleton, hused, cond_true, List.length_singleton]
    omega
  constructor
  · intro h
    rcases lt_trichotomy (p.adjRoot R r) (p.adjRoot R r') with hl | he | hg
    · exact absurd (hlt r r' hr hl) (by omega)
    · exact he
    · exact absurd (hlt r' r hr' hg) (by omega)
  · intro h
    rw [adjCell, adjCell, h]

/-- The cells of a mapped range are consecutive. -/
lemma mapRange_spec {r len c k : ℕ} (h : p.mapRange R r len = some c) (hk : k < len) :
    p.adjCell R (r + k) = c + k := by
  unfold mapRange at h
  rw [if_neg (by omega)] at h
  split at h
  · rename_i hall
    obtain rfl := Option.some.inj h
    simpa using List.all_eq_true.1 hall k (List.mem_range.2 hk)
  · simp at h

end IslandProg

end Stanli
