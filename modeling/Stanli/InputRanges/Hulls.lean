import Mathlib.Data.List.Induction
import Stanli.InputRanges.Compact

/-!
# The hulls of a callback graph

What `compact_imports` has found out about a graph it accepts: every op reads inside the hulls
(`ChildHull`), and the hull of a slot that is only read through windows is the least interval that
covers them (`IsWindowHull`).
-/

namespace Stanli

variable {U V S W : Type*}

/-! ## Windows -/

/-- A nonempty window that some op reads of the slot. -/
def Graph.HasWindow (g : Graph U) (s start stop : ℕ) : Prop :=
  ∃ op ∈ g.ops, op.isWindowRead = true ∧ s ∈ op.ins ∧ 0 < g.len op.out ∧
    start = (op.imm 0).toNat ∧ stop = start + g.len op.out

/-- No op writes the slot, it is not the result, and ops read it through windows only. -/
def Graph.OnlyWindows (g : Graph U) (s : ℕ) : Prop :=
  g.pinned s = false ∧ ∀ op ∈ g.ops, s ∈ op.ins → op.isWindowRead = true

/-- `[lo, hi)` is the least interval that covers the windows of the slot; it is `[0, 0)` if there are
none. -/
structure Graph.IsWindowHull (g : Graph U) (s lo hi : ℕ) : Prop where
  covers : ∀ start stop, g.HasWindow s start stop → lo ≤ start ∧ stop ≤ hi
  least : (∃ stop, g.HasWindow s lo stop) ∧ (∃ start, g.HasWindow s start hi) ∨
    lo = 0 ∧ hi = 0 ∧ ∀ start stop, ¬ g.HasWindow s start stop

/-- What one op reads of one input lies inside the hulls. -/
structure Graph.ReadsInside (g : Graph U) (h : Hull) (op : Op U) (s : ℕ) : Prop where
  whole : op.isWindowRead = false → h.lo s = 0 ∧ h.hi s = g.len s
  idata : op.isWindowRead = true → op.idata = [((op.imm 0).toNat : ℤ)]
  fits : op.isWindowRead = true → (op.imm 0).toNat + g.len op.out ≤ g.len s
  element : op.isWindowRead = true → op.opcode = .index → g.len op.out = 1
  window : op.isWindowRead = true → 0 < g.len op.out →
    h.lo s ≤ (op.imm 0).toNat ∧ (op.imm 0).toNat + g.len op.out ≤ h.hi s

/-- The hulls of an accepted graph. -/
structure ChildHull (g : Graph U) (fills : Fills V) (h : Hull) : Prop where
  result : ∃ r, g.resultSlot = some r
  copying : ∀ op ∈ g.ops, op.opcode.isInplaceStore = false
  payload : ∀ op ∈ g.ops, op.isWindowRead = true → op.udata = none
  pinned : ∀ s, g.pinned s = true → h.lo s = 0 ∧ h.hi s = g.len s
  le : ∀ s, h.lo s ≤ h.hi s ∧ h.hi s ≤ g.len s
  reads : ∀ op ∈ g.ops, ∀ s ∈ op.ins, g.ReadsInside h op s
  hull : ∀ s, g.OnlyWindows s → g.IsWindowHull s (h.lo s) (h.hi s)
  rest : ∀ s, ¬ g.OnlyWindows s → h.lo s = 0 ∧ h.hi s = g.len s
  fills : ∀ f ∈ fills, f.2.length = g.len f.1

/-! ## The read loop -/

section ReadLoop

variable {g : Graph U}

/-- A read of a part: the slot, and where the part starts and stops. -/
abbrev Part := ℕ × ℕ × ℕ

/-- The hull of a list of parts. -/
def Graph.partsHull (g : Graph U) (parts : List Part) : Hull :=
  parts.foldl (fun h p => h.widen p.1 p.2.1 p.2.2) g.emptyHull

/-- The parts that the ops read are these. -/
structure Graph.ReadsParts (g : Graph U) (reads : List (Op U × ℕ)) (parts : List Part) : Prop where
  sound : ∀ p ∈ parts, ∃ r ∈ reads, r.2 = p.1 ∧ g.readPart r.1 p.1 = some (some p.2)
  complete : ∀ r ∈ reads, ∃ part, g.readPart r.1 r.2 = some part ∧
    ∀ p, part = some p → (r.2, p) ∈ parts

theorem Graph.readInput_eq_some {op : Op U} {h h' : Hull} {s : ℕ} (hread : g.readInput op h s = some h') :
    ∃ part, g.readPart op s = some part ∧
      h' = (part.toList.map fun p => (s, p)).foldl (fun h p => h.widen p.1 p.2.1 p.2.2) h := by
  unfold Graph.readInput at hread
  split at hread
  · cases hread
  · rename_i hpart
    exact ⟨none, hpart, (Option.some.inj hread).symm⟩
  · rename_i start stop hpart
    exact ⟨some (start, stop), hpart, (Option.some.inj hread).symm⟩

theorem Graph.foldlM_readInput {op : Op U} {ins : List ℕ} {h h' : Hull}
    (hread : ins.foldlM (g.readInput op) h = some h') :
    ∃ parts, h' = parts.foldl (fun h p => h.widen p.1 p.2.1 p.2.2) h ∧
      g.ReadsParts (ins.map fun s => (op, s)) parts := by
  induction ins generalizing h with
  | nil =>
    cases hread
    exact ⟨[], rfl, by simp, by simp⟩
  | cons s ins ih =>
    rw [List.foldlM_cons] at hread
    cases hs : g.readInput op h s with
    | none =>
      rw [hs] at hread
      cases hread
    | some h₁ =>
      rw [hs] at hread
      obtain ⟨part, hpart, rfl⟩ := Graph.readInput_eq_some hs
      obtain ⟨parts, rfl, hparts⟩ := ih hread
      refine ⟨part.toList.map (fun p => (s, p)) ++ parts, ?_, ?_, ?_⟩
      · rw [List.foldl_append]
      · intro p hp
        rcases List.mem_append.1 hp with hp | hp
        · obtain ⟨q, hq, rfl⟩ := List.mem_map.1 hp
          obtain rfl := Option.mem_toList.1 hq
          exact ⟨(op, s), by simp, rfl, hpart⟩
        · obtain ⟨r, hr, hrp⟩ := hparts.sound p hp
          exact ⟨r, by simp_all, hrp⟩
      · intro r hr
        rcases List.mem_cons.1 hr with rfl | hr
        · exact ⟨part, hpart, fun p hp => by simp [hp]⟩
        · obtain ⟨part', hpart', hmem⟩ := hparts.complete r hr
          exact ⟨part', hpart', fun p hp => List.mem_append_right _ (hmem p hp)⟩

/-- The reads of a list of ops. -/
def opReads (ops : List (Op U)) : List (Op U × ℕ) :=
  ops.flatMap fun op => op.ins.map fun s => (op, s)

theorem Graph.readHull_eq_some {h : Hull} (hread : g.readHull = some h) :
    ∃ parts, h = g.partsHull parts ∧ g.ReadsParts (opReads g.ops) parts := by
  have key : ∀ (ops : List (Op U)) (h₀ : Hull),
      ops.foldlM (fun h op => op.ins.foldlM (g.readInput op) h) h₀ = some h →
      ∃ parts, h = parts.foldl (fun h p => h.widen p.1 p.2.1 p.2.2) h₀ ∧
        g.ReadsParts (opReads ops) parts := by
    intro ops
    induction ops with
    | nil =>
      intro h₀ hread
      cases hread
      exact ⟨[], rfl, by simp, by simp [opReads]⟩
    | cons op ops ih =>
      intro h₀ hread
      rw [List.foldlM_cons] at hread
      cases hop : op.ins.foldlM (g.readInput op) h₀ with
      | none =>
        rw [hop] at hread
        cases hread
      | some h₁ =>
        rw [hop] at hread
        obtain ⟨parts₁, rfl, hparts₁⟩ := Graph.foldlM_readInput hop
        obtain ⟨parts₂, rfl, hparts₂⟩ := ih _ hread
        refine ⟨parts₁ ++ parts₂, by rw [List.foldl_append], ?_, ?_⟩
        · intro p hp
          rw [opReads, List.flatMap_cons]
          rcases List.mem_append.1 hp with hp | hp
          · obtain ⟨r, hr, hrp⟩ := hparts₁.sound p hp
            exact ⟨r, List.mem_append_left _ hr, hrp⟩
          · obtain ⟨r, hr, hrp⟩ := hparts₂.sound p hp
            exact ⟨r, List.mem_append_right _ hr, hrp⟩
        · intro r hr
          rw [opReads, List.flatMap_cons] at hr
          rcases List.mem_append.1 hr with hr | hr
          · obtain ⟨part, hpart, hmem⟩ := hparts₁.complete r hr
            exact ⟨part, hpart, fun p hp => List.mem_append_left _ (hmem p hp)⟩
          · obtain ⟨part, hpart, hmem⟩ := hparts₂.complete r hr
            exact ⟨part, hpart, fun p hp => List.mem_append_right _ (hmem p hp)⟩
  exact key g.ops g.emptyHull hread

/-- The hull of parts covers each of them, and each of its ends is where one of them ends, if it has
moved. -/
structure Hull.CoversParts (g : Graph U) (h : Hull) (parts : List Part) : Prop where
  covers : ∀ p ∈ parts, h.lo p.1 ≤ p.2.1 ∧ p.2.2 ≤ h.hi p.1
  lo : ∀ s, h.lo s = g.len s ∨ ∃ p ∈ parts, p.1 = s ∧ p.2.1 = h.lo s
  hi : ∀ s, h.hi s = 0 ∨ ∃ p ∈ parts, p.1 = s ∧ p.2.2 = h.hi s

theorem Graph.coversParts_partsHull (parts : List Part) :
    (g.partsHull parts).CoversParts g parts := by
  induction parts using List.reverseRecOn with
  | nil => exact ⟨by simp, fun _ => .inl rfl, fun _ => .inl rfl⟩
  | append_singleton parts p ih =>
    have hstep : g.partsHull (parts ++ [p]) = (g.partsHull parts).widen p.1 p.2.1 p.2.2 := by
      rw [Graph.partsHull, List.foldl_append]
      rfl
    rw [hstep]
    constructor
    · intro q hq
      by_cases hs : q.1 = p.1
      · simp only [Hull.widen, hs, Function.update_self]
        rcases List.mem_append.1 hq with hq | hq
        · have := ih.covers q hq
          rw [hs] at this
          omega
        · rw [List.mem_singleton.1 hq]
          omega
      · simp only [Hull.widen, Function.update_of_ne hs]
        rcases List.mem_append.1 hq with hq | hq
        · exact ih.covers q hq
        · exact absurd (by rw [List.mem_singleton.1 hq]) hs
    · intro s
      by_cases hs : s = p.1
      · subst hs
        simp only [Hull.widen, Function.update_self]
        rcases Nat.le_total ((g.partsHull parts).lo p.1) p.2.1 with hle | hle
        · rw [Nat.min_eq_left hle]
          rcases ih.lo p.1 with hlo | ⟨q, hq, hqs, hqlo⟩
          · exact .inl hlo
          · exact .inr ⟨q, List.mem_append_left _ hq, hqs, hqlo⟩
        · rw [Nat.min_eq_right hle]
          exact .inr ⟨p, by simp, rfl, rfl⟩
      · simp only [Hull.widen, Function.update_of_ne hs]
        rcases ih.lo s with hlo | ⟨q, hq, hqs, hqlo⟩
        · exact .inl hlo
        · exact .inr ⟨q, List.mem_append_left _ hq, hqs, hqlo⟩
    · intro s
      by_cases hs : s = p.1
      · subst hs
        simp only [Hull.widen, Function.update_self]
        rcases Nat.le_total ((g.partsHull parts).hi p.1) p.2.2 with hle | hle
        · rw [Nat.max_eq_right hle]
          exact .inr ⟨p, by simp, rfl, rfl⟩
        · rw [Nat.max_eq_left hle]
          rcases ih.hi p.1 with hhi | ⟨q, hq, hqs, hqhi⟩
          · exact .inl hhi
          · exact .inr ⟨q, List.mem_append_left _ hq, hqs, hqhi⟩
      · simp only [Hull.widen, Function.update_of_ne hs]
        rcases ih.hi s with hhi | ⟨q, hq, hqs, hqhi⟩
        · exact .inl hhi
        · exact .inr ⟨q, List.mem_append_left _ hq, hqs, hqhi⟩

end ReadLoop

/-! ## Accepted graphs -/

section Accepted

variable {g : Graph U}

theorem mem_opReads {ops : List (Op U)} {r : Op U × ℕ} :
    r ∈ opReads ops ↔ r.1 ∈ ops ∧ r.2 ∈ r.1.ins := by
  simp only [opReads, List.mem_flatMap, List.mem_map]
  constructor
  · rintro ⟨op, hop, s, hs, rfl⟩
    exact ⟨hop, hs⟩
  · rintro ⟨hop, hs⟩
    exact ⟨r.1, hop, r.2, hs, rfl⟩

theorem Graph.readPart_whole {op : Op U} {s : ℕ} (hw : op.isWindowRead = false) :
    g.readPart op s = some (some (0, g.len s)) := by
  rw [Graph.readPart, if_neg (by simp [hw])]

/-- What a window read that fits says about its op. -/
theorem Graph.readPart_window {op : Op U} {s : ℕ} {part : Option (ℕ × ℕ)}
    (hw : op.isWindowRead = true) (hpart : g.readPart op s = some part) :
    op.idata = [((op.imm 0).toNat : ℤ)] ∧ (op.imm 0).toNat + g.len op.out ≤ g.len s ∧
      (op.opcode = .index → g.len op.out = 1) ∧
      part = if g.len op.out = 0 then none
        else some ((op.imm 0).toNat, (op.imm 0).toNat + g.len op.out) := by
  rw [Graph.readPart, if_pos hw] at hpart
  split at hpart
  · cases hpart
  · rename_i hlength
    split at hpart
    · cases hpart
    · rename_i hfits
      rw [not_not] at hlength
      simp only [not_or, not_and, Int.not_lt] at hfits
      obtain ⟨hnonneg, -, hfits, hindex⟩ := hfits
      obtain ⟨d, hd⟩ := List.length_eq_one_iff.1 hlength
      have himm : op.imm 0 = d := by simp [Op.imm, hd]
      refine ⟨?_, by omega, fun hi => by simpa using hindex hi, ?_⟩
      · rw [hd, ← himm, Int.toNat_of_nonneg hnonneg]
      · split at hpart
        · rename_i hzero
          rw [if_pos hzero, ← Option.some.inj hpart]
        · rename_i hzero
          rw [if_neg hzero, ← Option.some.inj hpart]

theorem Op.input_eq_of_isWindowRead {op : Op U} (hw : op.isWindowRead = true) :
    op.ins = [op.input 0] := by
  simp only [Op.isWindowRead, Bool.and_eq_true, decide_eq_true_iff] at hw
  obtain ⟨s, hs⟩ := List.length_eq_one_iff.1 hw.1.1.1
  simp [Op.input, hs]

/-- A part does not end before it starts, nor behind the slot. -/
theorem Graph.readPart_bounds {op : Op U} {s : ℕ} {p : ℕ × ℕ}
    (hpart : g.readPart op s = some (some p)) : p.1 ≤ p.2 ∧ p.2 ≤ g.len s := by
  cases hw : op.isWindowRead with
  | true =>
    obtain ⟨-, hfits, -, hp⟩ := Graph.readPart_window hw hpart
    split at hp
    · cases hp
    · cases hp
      exact ⟨Nat.le_add_right _ _, hfits⟩
  | false =>
    rw [Graph.readPart_whole hw] at hpart
    cases hpart
    exact ⟨Nat.zero_le _, Nat.le_refl _⟩

theorem Graph.hasWindow_iff {parts : List Part} (hparts : g.ReadsParts (opReads g.ops) parts) {s : ℕ}
    (honly : g.OnlyWindows s) (start stop : ℕ) :
    g.HasWindow s start stop ↔ (s, start, stop) ∈ parts := by
  constructor
  · rintro ⟨op, hop, hw, hs, hpos, rfl, rfl⟩
    obtain ⟨part, hpart, hmem⟩ := hparts.complete (op, s) (mem_opReads.2 ⟨hop, hs⟩)
    obtain ⟨-, -, -, hp⟩ := Graph.readPart_window hw hpart
    rw [if_neg (Nat.pos_iff_ne_zero.1 hpos)] at hp
    exact hmem _ hp
  · intro hmem
    obtain ⟨r, hr, hrs, hpart⟩ := hparts.sound _ hmem
    obtain ⟨hop, hs⟩ := mem_opReads.1 hr
    rw [hrs] at hs
    have hw := honly.2 r.1 hop hs
    obtain ⟨-, -, -, hp⟩ := Graph.readPart_window hw hpart
    split at hp
    · cases hp
    · rename_i hpos
      cases hp
      exact ⟨r.1, hop, hw, hs, Nat.pos_of_ne_zero hpos, rfl, rfl⟩

/-- The settled hull of the parts that the ops read. -/
theorem Graph.settleHull_le {parts : List Part} (hparts : g.ReadsParts (opReads g.ops) parts) (s : ℕ) :
    (g.settleHull (g.partsHull parts)).lo s ≤ (g.settleHull (g.partsHull parts)).hi s ∧
      (g.settleHull (g.partsHull parts)).hi s ≤ g.len s := by
  have hcov := g.coversParts_partsHull parts
  unfold Graph.settleHull
  dsimp only
  split
  · exact ⟨Nat.zero_le _, Nat.le_refl _⟩
  · rcases hcov.hi s with hhi | ⟨p, hp, rfl, hphi⟩
    · rw [if_pos hhi, hhi]
      exact ⟨Nat.le_refl _, Nat.zero_le _⟩
    · obtain ⟨r, -, -, hpart⟩ := hparts.sound p hp
      have hb := Graph.readPart_bounds hpart
      have hlo := (hcov.covers p hp).1
      split <;> omega

theorem Graph.settleHull_readsInside {parts : List Part}
    (hparts : g.ReadsParts (opReads g.ops) parts) {op : Op U} (hop : op ∈ g.ops) {s : ℕ}
    (hs : s ∈ op.ins) : g.ReadsInside (g.settleHull (g.partsHull parts)) op s := by
  have hcov := g.coversParts_partsHull parts
  have hle := Graph.settleHull_le hparts s
  obtain ⟨part, hpart, hmem⟩ := hparts.complete (op, s) (mem_opReads.2 ⟨hop, hs⟩)
  have hinside : ∀ p, part = some p → (g.settleHull (g.partsHull parts)).lo s ≤ p.1 ∧
      p.2 ≤ (g.settleHull (g.partsHull parts)).hi s := by
    intro p hp
    have hc := hcov.covers _ (hmem p hp)
    have hb := Graph.readPart_bounds (hp ▸ hpart)
    unfold Graph.settleHull
    dsimp only at hc ⊢
    split
    · exact ⟨Nat.zero_le _, hb.2⟩
    · split <;> omega
  constructor
  · intro hw
    rw [Graph.readPart_whole hw] at hpart
    have hin := hinside _ (Option.some.inj hpart).symm
    dsimp only at hin
    omega
  · exact fun hw => (Graph.readPart_window hw hpart).1
  · exact fun hw => (Graph.readPart_window hw hpart).2.1
  · exact fun hw => (Graph.readPart_window hw hpart).2.2.1
  · intro hw hpos
    obtain ⟨-, -, -, hp⟩ := Graph.readPart_window hw hpart
    rw [if_neg (Nat.pos_iff_ne_zero.1 hpos)] at hp
    exact hinside _ hp

theorem Graph.settleHull_isWindowHull {parts : List Part}
    (hparts : g.ReadsParts (opReads g.ops) parts) {s : ℕ} (honly : g.OnlyWindows s) :
    g.IsWindowHull s ((g.settleHull (g.partsHull parts)).lo s)
      ((g.settleHull (g.partsHull parts)).hi s) := by
  have hcov := g.coversParts_partsHull parts
  have hwindow := Graph.hasWindow_iff hparts honly
  have hpos : ∀ start stop, (s, start, stop) ∈ parts → start < stop ∧ stop ≤ g.len s := by
    intro start stop hmem
    obtain ⟨r, -, -, hpart⟩ := hparts.sound _ hmem
    obtain ⟨op, -, -, -, hlen, rfl, rfl⟩ := (hwindow start stop).2 hmem
    exact ⟨by omega, (Graph.readPart_bounds hpart).2⟩
  have hpin : ¬ g.pinned s = true := by simp [honly.1]
  simp only [Graph.settleHull, if_neg hpin]
  by_cases hhi : (g.partsHull parts).hi s = 0
  · rw [if_pos hhi, hhi]
    have hnone : ∀ start stop, ¬ g.HasWindow s start stop := by
      intro start stop hw
      have hmem := (hwindow start stop).1 hw
      have hc := hcov.covers _ hmem
      have := hpos start stop hmem
      dsimp only at hc
      omega
    exact ⟨fun start stop hw => absurd hw (hnone start stop), .inr ⟨rfl, rfl, hnone⟩⟩
  · rw [if_neg hhi]
    obtain ⟨⟨s', start, stop⟩, hp, rfl, hphi⟩ := (hcov.hi s).resolve_left hhi
    dsimp only at hp hphi hwindow hpos ⊢
    refine ⟨fun start' stop' hw => hcov.covers _ ((hwindow start' stop').1 hw), .inl ⟨?_, ?_⟩⟩
    · rcases hcov.lo s' with hlo | ⟨⟨s'', start', stop'⟩, hq, hs, hqlo⟩
      · have hc := hcov.covers _ hp
        have := hpos start stop hp
        dsimp only at hc
        omega
      · dsimp only at hs hqlo
        rw [hs, hqlo] at hq
        exact ⟨stop', (hwindow _ _).2 hq⟩
    · exact ⟨start, (hwindow _ _).2 (hphi ▸ hp)⟩

theorem Graph.settleHull_rest {parts : List Part} (hparts : g.ReadsParts (opReads g.ops) parts)
    {s : ℕ} (honly : ¬ g.OnlyWindows s) :
    (g.settleHull (g.partsHull parts)).lo s = 0 ∧
      (g.settleHull (g.partsHull parts)).hi s = g.len s := by
  cases hpin : g.pinned s with
  | true => simp [Graph.settleHull, hpin]
  | false =>
    obtain ⟨op, hop, hs, hw⟩ : ∃ op ∈ g.ops, s ∈ op.ins ∧ op.isWindowRead = false := by
      by_contra hnone
      refine honly ⟨hpin, fun op hop hs => ?_⟩
      by_contra hw
      exact hnone ⟨op, hop, hs, by simpa using hw⟩
    exact (Graph.settleHull_readsInside hparts hop hs).whole hw

theorem checkChildOp_eq_ok {K : Kernels U V S W} {dynamicGeometry : Op U → Bool}
    {opcodeName : Opcode → String} {op : Op U}
    (h : checkChildOp K dynamicGeometry opcodeName g op = .ok ()) :
    g.supports K dynamicGeometry op = true := by
  unfold checkChildOp at h
  split at h
  · cases h
  · rename_i hs
    simpa using hs

theorem forM_eq_ok {α ε : Type*} {f : α → Except ε Unit} {as : List α} (h : as.forM f = .ok ()) :
    ∀ a ∈ as, f a = .ok () := by
  induction as with
  | nil => simp
  | cons a as ih =>
    rw [List.forM_eq_forM, List.forM_cons] at h
    cases ha : f a with
    | error e =>
      rw [ha] at h
      cases h
    | ok u =>
      rw [ha] at h
      intro b hb
      rcases List.mem_cons.1 hb with rfl | hb
      · exact ha
      · exact ih h b hb

theorem childHull_eq_ok {K : Kernels U V S W} {dynamicGeometry : Op U → Bool}
    {opcodeName : Opcode → String} {fills : Fills V} {h : Hull}
    (hok : childHull K dynamicGeometry opcodeName g fills = .ok h) : ChildHull g fills h := by
  unfold childHull at hok
  split at hok
  · cases hok
  rename_i hresult
  split at hok
  · cases hok
  split at hok
  · cases hok
  rename_i hops
  split at hok
  · cases hok
  rename_i hread
  split at hok
  · cases hok
  rename_i hfills
  cases hok
  obtain ⟨parts, rfl, hparts⟩ := Graph.readHull_eq_some hread
  have hsupports : ∀ op ∈ g.ops, g.supports K dynamicGeometry op = true :=
    fun op hop => checkChildOp_eq_ok (forM_eq_ok hops op hop)
  simp only [Graph.supports, Bool.and_eq_true, Bool.or_eq_true] at hsupports
  constructor
  · cases hr : g.resultSlot with
    | none => simp [hr] at hresult
    | some r => exact ⟨r, rfl⟩
  · intro op hop
    have hnot := (hsupports op hop).1.1.1.2
    by_contra hip
    rw [Bool.not_eq_false, Opcode.isInplaceStore_iff] at hip
    rcases hip with hip | hip | hip <;> simp [hip] at hnot
  · intro op hop hw
    rcases (hsupports op hop).1.1.1.1.1.1.2 with hnone | htrait
    · simpa using hnone
    · simp only [Op.isWindowRead, Bool.and_eq_true, Bool.or_eq_true, decide_eq_true_iff] at hw
      rcases hw.2 with hoc | hoc <;> rw [hoc] at htrait <;> exact absurd htrait (by decide)
  · intro s hs
    simp [Graph.settleHull, hs]
  · exact fun s => Graph.settleHull_le hparts s
  · exact fun op hop s hs => Graph.settleHull_readsInside hparts hop hs
  · exact fun s honly => Graph.settleHull_isWindowHull hparts honly
  · exact fun s honly => Graph.settleHull_rest hparts honly
  · intro f hf
    rw [Bool.not_eq_false, List.all_eq_true] at hfills
    have hfill := hfills f hf
    rw [Bool.and_eq_true, decide_eq_true_iff] at hfill
    exact hfill.2

end Accepted

end Stanli
