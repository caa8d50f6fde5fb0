import Stanli.Program.Spans

/-!
# The copies the forward scan knows

Whatever the forward scan knows in front of an instruction holds in every file that a run finds
there: an instruction keeps what it does not overwrite (`transfer_holds`), and a position knows no
more than each of the ways to it brings (`CopyScan.arrive_spec`).
-/

namespace Stanli

open Program

namespace Program

variable {V E S : Type*}

/-- The known copies are copies. -/
def Holds (f : ℕ → Option ℕ) (x : ℕ → V) : Prop := ∀ r b, f r = some b → x r = x b

/-- One table knows no more than another. -/
def Knows (f g : ℕ → Option ℕ) : Prop := ∀ r b, f r = some b → g r = some b

lemma Knows.refl (f : ℕ → Option ℕ) : Knows f f := fun _ _ h => h

lemma Knows.trans {f g h : ℕ → Option ℕ} (hfg : Knows f g) (hgh : Knows g h) : Knows f h :=
  fun r b hr => hgh r b (hfg r b hr)

lemma Holds.mono {f g : ℕ → Option ℕ} {x : ℕ → V} (h : Holds g x) (hfg : Knows f g) : Holds f x :=
  fun r b hr => h r b (hfg r b hr)

namespace CopyScan

lemma meet_knows_left (f g : ℕ → Option ℕ) : Knows (meet f g) f := by
  intro r b h
  unfold meet at h
  split at h
  · exact h
  · simp at h

lemma meet_knows_right (f g : ℕ → Option ℕ) : Knows (meet f g) g := by
  intro r b h
  unfold meet at h
  split at h
  · rename_i heq
    rwa [← heq]
  · simp at h

/-- Every copy is a register of the file, and among the dependents of its original. -/
structure Wf (n : ℕ) (st : CopyScan) : Prop where
  copy : ∀ r b, st.copyOf r = some b → r < n ∧ r ∈ st.dependents b
  arrived : ∀ pc f, st.arrived pc = some f → ∀ r b, f r = some b → r < n

variable {n : ℕ} {st : CopyScan}

/-- Clearing the dependents of a register. -/
lemma clear_spec {reg : ℕ} (deps : List ℕ) {f : ℕ → Option ℕ} {r b : ℕ}
    (h : deps.foldl (fun f dep => if f dep = some reg then Function.update f dep none else f) f r =
      some b) : f r = some b ∧ (r ∈ deps → b ≠ reg) := by
  induction deps generalizing f with
  | nil => exact ⟨h, by simp⟩
  | cons d deps ih =>
    rw [List.foldl_cons] at h
    obtain ⟨h1, h2⟩ := ih h
    split at h1
    · have hrd : r ≠ d := by
        rintro rfl
        simp at h1
      rw [Function.update_of_ne hrd] at h1
      exact ⟨h1, fun hmem => h2 ((List.mem_cons.1 hmem).resolve_left hrd)⟩
    · rename_i hd
      refine ⟨h1, fun hmem => ?_⟩
      rcases List.mem_cons.1 hmem with rfl | hmem
      · rintro rfl
        exact hd h1
      · exact h2 hmem

lemma kill_copyOf (h : st.Wf n) {reg r b : ℕ} (hr : (st.kill reg).copyOf r = some b) :
    st.copyOf r = some b ∧ r ≠ reg ∧ b ≠ reg := by
  have hne : r ≠ reg := by
    rintro rfl
    simp [kill] at hr
  rw [kill] at hr
  simp only [Function.update_of_ne hne] at hr
  obtain ⟨h1, h2⟩ := clear_spec _ hr
  refine ⟨h1, hne, ?_⟩
  rintro rfl
  exact h2 (h.copy r b h1).2 rfl

lemma Wf.kill (h : st.Wf n) (reg : ℕ) : (st.kill reg).Wf n := by
  refine ⟨fun r b hr => ?_, h.arrived⟩
  obtain ⟨h1, -, hb⟩ := kill_copyOf h hr
  refine ⟨(h.copy r b h1).1, ?_⟩
  change r ∈ Function.update st.dependents reg [] b
  rw [Function.update_of_ne hb]
  exact (h.copy r b h1).2

/-- What is known behind the writes of an instruction is about registers it does not write. -/
lemma killAll_spec (h : st.Wf n) (writes : List Span) :
    (st.killAll writes).Wf n ∧ ∀ r b, (st.killAll writes).copyOf r = some b →
      st.copyOf r = some b ∧ r ∉ writes.flatMap Span.regs ∧ b ∉ writes.flatMap Span.regs := by
  unfold killAll
  generalize writes.flatMap Span.regs = regs
  induction regs generalizing st with
  | nil => exact ⟨h, fun r b hr => ⟨hr, by simp, by simp⟩⟩
  | cons reg regs ih =>
    obtain ⟨hwf, hknown⟩ := ih (h.kill reg)
    rw [List.foldl_cons]
    refine ⟨hwf, fun r b hr => ?_⟩
    obtain ⟨h1, h2, h3⟩ := hknown r b hr
    obtain ⟨h1, h4, h5⟩ := kill_copyOf h h1
    refine ⟨h1, ?_, ?_⟩
    · simp [h2, h4]
    · simp [h3, h5]

lemma Wf.record (h : st.Wf n) {reg : ℕ} (hreg : reg < n) (root : ℕ) : (st.record reg root).Wf n := by
  have hmem : ∀ {c d}, c ∈ st.dependents d → c ∈ (st.record reg root).dependents d := by
    intro c d hc
    unfold CopyScan.record Function.update
    dsimp only
    split
    · rename_i hd
      subst hd
      exact List.mem_append_left _ hc
    · exact hc
  refine ⟨fun r b hr => ?_, h.arrived⟩
  by_cases hrr : r = reg
  · subst hrr
    obtain rfl : root = b := by simpa [CopyScan.record] using hr
    exact ⟨hreg, by simp [CopyScan.record]⟩
  · have hr : st.copyOf r = some b := by simpa [CopyScan.record, Function.update_of_ne hrr] using hr
    exact ⟨(h.copy r b hr).1, hmem (h.copy r b hr).2⟩

lemma record_copyOf {reg root r b : ℕ} (h : (st.record reg root).copyOf r = some b) :
    (r = reg ∧ b = root) ∨ st.copyOf r = some b := by
  by_cases hr : r = reg
  · subst hr
    exact Or.inl ⟨rfl, by simpa [CopyScan.record, eq_comm] using h⟩
  · exact Or.inr (by simpa [CopyScan.record, Function.update_of_ne hr] using h)

/-- The copies of a move, on top of what is known. -/
lemma recordRoots_spec (h : st.Wf n) {dst : ℕ} {roots : List (Option ℕ)}
    (hroots : dst + roots.length ≤ n) :
    (st.recordRoots dst roots).Wf n ∧ ∀ r b, (st.recordRoots dst roots).copyOf r = some b →
      st.copyOf r = some b ∨ ∃ k, roots[k]? = some (some b) ∧ r = dst + k := by
  have key : ∀ (l : List (Option ℕ)) (m : ℕ) (st : CopyScan), st.Wf n → dst + m + l.length ≤ n →
      ((l.zipIdx m).foldl (recordRoot dst) st).Wf n ∧
      ∀ r b, ((l.zipIdx m).foldl (recordRoot dst) st).copyOf r = some b →
        st.copyOf r = some b ∨ ∃ k, l[k]? = some (some b) ∧ r = dst + m + k := by
    intro l
    induction l with
    | nil => exact fun m st hst _ => ⟨hst, fun r b hr => Or.inl hr⟩
    | cons o l ih =>
      intro m st hst hle
      rw [List.length_cons] at hle
      rw [List.zipIdx_cons, List.foldl_cons]
      cases o with
      | none =>
        obtain ⟨hwf, hknown⟩ := ih (m + 1) st hst (by omega)
        refine ⟨hwf, fun r b hr => (hknown r b hr).imp_right ?_⟩
        rintro ⟨k, hk, rfl⟩
        exact ⟨k + 1, by simpa using hk, by omega⟩
      | some root =>
        obtain ⟨hwf, hknown⟩ := ih (m + 1) _ (hst.record (show dst + m < n by omega) root) (by omega)
        refine ⟨hwf, fun r b hr => ?_⟩
        rcases hknown r b hr with hr | ⟨k, hk, rfl⟩
        · rcases record_copyOf hr with ⟨rfl, rfl⟩ | hr
          · exact Or.inr ⟨0, rfl, rfl⟩
          · exact Or.inl hr
        · exact Or.inr ⟨k + 1, by simpa using hk, by omega⟩
  simpa only [recordRoots, Nat.add_zero] using key roots 0 st h (by omega)

lemma Wf.reload (h : st.Wf n) {f : ℕ → Option ℕ} (hf : ∀ r b, f r = some b → r < n) :
    (st.reload n f).Wf n := by
  refine ⟨fun r b hr => ?_, h.arrived⟩
  have hr : f r = some b := hr
  refine ⟨hf r b hr, ?_⟩
  change r ∈ (List.range n).filter _
  rw [List.mem_filter, List.mem_range, decide_eq_true_eq]
  exact ⟨hf r b hr, hr⟩

/-- What is known where control arrives. -/
lemma arrive_spec (h : st.Wf n) (target : Bool) (pc : ℕ) :
    (st.arrive n target pc).Wf n ∧ (st.arrive n target pc).reachable = true ∧
    (st.reachable = true → Knows (st.arrive n target pc).copyOf st.copyOf) ∧
    (∀ f, target = true → st.arrived pc = some f → Knows (st.arrive n target pc).copyOf f) ∧
    ∀ d f, d ≠ pc → st.arrived d = some f → (st.arrive n target pc).arrived d = some f := by
  have hnone : ((st.reload n fun _ => none) : CopyScan).Wf n := h.reload fun _ _ hr => by simp at hr
  unfold arrive
  split
  · rename_i htarget
    cases hin : st.arrived pc with
    | some f =>
      dsimp only
      split
      · rename_i hreach
        refine ⟨⟨fun r b hr => h.copy r b (meet_knows_left _ _ r b hr), fun pc' g hg => ?_⟩, rfl,
          fun _ => meet_knows_left _ _, ?_, fun d g hd hg => ?_⟩
        · unfold Function.update at hg
          dsimp only at hg
          split at hg
          · simp at hg
          · exact h.arrived pc' g hg
        · rintro g - hg
          obtain rfl := Option.some.inj hg
          exact meet_knows_right _ _
        · change Function.update st.arrived pc none d = some g
          rwa [Function.update_of_ne hd]
      · rename_i hreach
        have hwf := h.reload (h.arrived pc f hin)
        refine ⟨⟨hwf.copy, fun pc' g hg => ?_⟩, rfl, fun hr => absurd hr hreach, ?_,
          fun d g hd hg => ?_⟩
        · unfold Function.update at hg
          dsimp only at hg
          split at hg
          · simp at hg
          · exact h.arrived pc' g hg
        · rintro g - hg
          obtain rfl := Option.some.inj hg
          exact Knows.refl _
        · change Function.update st.arrived pc none d = some g
          rwa [Function.update_of_ne hd]
    | none =>
      dsimp only
      split
      · rename_i hreach
        exact ⟨h, hreach, fun _ => Knows.refl _, fun f _ hf => by simp at hf, fun _ _ _ hg => hg⟩
      · rename_i hreach
        exact ⟨⟨hnone.copy, hnone.arrived⟩, rfl, fun hr => absurd hr hreach,
          fun f _ hf => by simp at hf, fun _ _ _ hg => hg⟩
  · rename_i htarget
    split
    · rename_i hreach
      exact ⟨h, hreach, fun _ => Knows.refl _, fun f hf => absurd hf htarget, fun _ _ _ hg => hg⟩
    · rename_i hreach
      exact ⟨⟨hnone.copy, hnone.arrived⟩, rfl, fun hr => absurd hr hreach,
        fun f hf => absurd hf htarget, fun _ _ _ hg => hg⟩

lemma bring_arrived (st : CopyScan) (dst d : ℕ) : (st.bring dst).arrived d =
    if d = dst then some (st.brought dst) else st.arrived d := by
  simp only [bring, Function.update_apply]

/-- A branch brings no more than is known, and than was there already. -/
lemma brought_knows (st : CopyScan) (dst : ℕ) : Knows (st.brought dst) st.copyOf ∧
    ∀ slot, st.arrived dst = some slot → Knows (st.brought dst) slot := by
  unfold brought
  cases st.arrived dst with
  | none => exact ⟨Knows.refl _, fun slot h => by simp at h⟩
  | some slot =>
    refine ⟨meet_knows_right _ _, fun slot' h => ?_⟩
    obtain rfl := Option.some.inj h
    exact meet_knows_left _ _

/-- An instruction leaves what branches have brought. -/
lemma transfer_arrived (p : Program V) (st : CopyScan) (I : Instr) :
    (st.transfer p I).arrived = st.arrived ∧ (st.transfer p I).reachable = st.reachable := by
  have hkill : ∀ (regs : List ℕ) (st : CopyScan), (regs.foldl CopyScan.kill st).arrived = st.arrived ∧
      (regs.foldl CopyScan.kill st).reachable = st.reachable := by
    intro regs
    induction regs with
    | nil => exact fun st => ⟨rfl, rfl⟩
    | cons r regs ih => exact fun st => ih (st.kill r)
  have hroots : ∀ (dst : ℕ) (roots : List (Option ℕ × ℕ)) (st : CopyScan),
      (roots.foldl (recordRoot dst) st).arrived = st.arrived ∧
      (roots.foldl (recordRoot dst) st).reachable = st.reachable := by
    intro dst roots
    induction roots with
    | nil => exact fun st => ⟨rfl, rfl⟩
    | cons e roots ih =>
      intro st
      rw [List.foldl_cons]
      obtain ⟨o, k⟩ := e
      cases o with
      | none => exact ih st
      | some root => exact ih (st.record (dst + k) root)
  unfold transfer
  dsimp only
  split
  · exact ⟨rfl, rfl⟩
  · split
    · exact ⟨(hroots _ _ _).1.trans (hkill _ _).1, (hroots _ _ _).2.trans (hkill _ _).2⟩
    · exact hkill _ _

end CopyScan

/-! ## What an instruction does to the facts -/

section Transfer

variable [Field V] {M : StanMath V E S} {p q : Program V} {n : ℕ} {st : CopyScan} {J : Instr}

omit [Field V] in
lemma mem_moveRoots {f : ℕ → Option ℕ} {a dst len k root : ℕ}
    (h : (moveRoots f a dst len)[k]? = some (some root)) :
    k < len ∧ (a + len ≤ dst ∨ dst + len ≤ a) ∧ (root < dst ∨ dst + len ≤ root) ∧
      (f (a + k) = some root ∨ root = a + k) := by
  obtain ⟨hlt, hget⟩ := List.getElem?_eq_some_iff.1 h
  simp only [moveRoots, List.length_map, List.length_range] at hlt
  simp only [moveRoots, List.getElem_map, List.getElem_range, Option.ite_none_right_eq_some,
    Option.some.injEq] at hget
  obtain ⟨⟨hdisj, hout⟩, heq⟩ := hget
  rw [heq] at hout
  refine ⟨hlt, hdisj, hout, ?_⟩
  cases hf : f (a + k) with
  | none =>
    rw [hf] at heq
    exact Or.inr heq.symm
  | some b =>
    rw [hf] at heq
    exact Or.inl (congrArg some heq)

omit [Field V] in
lemma outputLen_of_move (h : J.isMove = true) : J.outputLen = J.moveLen ∧ J.code ≠ .call ∧
    J.code ≠ .transform ∧ J.isJump = false ∧ J.isEligible := by
  simp only [Instr.isMove, decide_eq_true_eq] at h
  rcases h with h | h <;>
    simp [Instr.outputLen, Instr.moveLen, Instr.isJump, Instr.isEligible, Instr.rule, h, Code.has,
      Code.flags]

omit [Field V] in
/-- An instruction keeps the tables in order. -/
lemma CopyScan.Wf.transfer (h : st.Wf n) (hfile : ∀ r ∈ p.writes J, r < n) :
    (st.transfer p J).Wf n := by
  unfold CopyScan.transfer
  dsimp only
  split
  · exact h
  · split
    · rename_i hmove
      obtain ⟨hlen, hcall, -⟩ := outputLen_of_move hmove
      have hkill := (CopyScan.killAll_spec h ((p.eachWrite J).filter fun s => decide (0 < s.len))).1
      rcases Nat.eq_zero_or_pos J.moveLen with h0 | hpos
      · simpa [moveRoots, h0, CopyScan.recordRoots] using hkill
      · refine (CopyScan.recordRoots_spec hkill ?_).1
        have := hfile (J.dst + (J.moveLen - 1)) ((mem_writes hcall).2 (by omega))
        simp only [moveRoots, List.length_map, List.length_range]
        omega
    · exact (CopyScan.killAll_spec h _).1

/-- A move copies its source where the two do not overlap. -/
lemma exec_move (hmove : J.isMove = true) (hdisj : J.a + J.moveLen ≤ J.dst ∨ J.dst + J.moveLen ≤ J.a)
    {s s' : File V S} (hex : q.exec M J s = .ok s') {k : ℕ} (hk : k < J.moveLen) :
    s'.reg (J.dst + k) = s.reg (J.a + k) := by
  simp only [Instr.isMove, decide_eq_true_eq] at hmove
  rcases hmove with hc | hc
  · simp only [Instr.moveLen, hc, if_true] at hk
    obtain rfl : k = 0 := by omega
    simp only [exec, hc] at hex
    obtain rfl := Except.ok.inj hex
    exact Function.update_self ..
  · have hlen : J.moveLen = J.len := by simp [Instr.moveLen, hc]
    rw [hlen] at hdisj hk
    simp only [exec, hc] at hex
    obtain ⟨reg, hreg, rfl⟩ := map_eq_ok hex
    have := writeLoop_value (fun i hi x y hxy => ?_) hreg hk
    · exact (Except.ok.inj this).symm
    · rw [hxy (J.a + i) (by omega)]

/-- A move onto itself changes nothing. -/
lemma exec_noOp (hno : J.isNoOp = true) {s s' : File V S} (hex : q.exec M J s = .ok s') :
    s' = s := by
  simp only [Instr.isNoOp, Instr.isMove, Bool.and_eq_true, decide_eq_true_eq] at hno
  obtain ⟨⟨hc, -⟩, ha⟩ := hno
  rcases hc with hc | hc
  · simp only [exec, hc] at hex
    obtain rfl := Except.ok.inj hex
    simp [File.set, ha]
  · simp only [exec, hc] at hex
    have hloop : writeLoop (fun k reg => Except.ok (ε := E) (reg (J.a + k))) J.dst J.len s.reg =
        .ok s.reg := by
      rw [ha]
      induction J.len with
      | zero => rfl
      | succ n ih =>
        rw [writeLoop_succ, ih]
        simp [Except.bind, Except.map]
    rw [hloop] at hex
    exact (Except.ok.inj hex).symm

/-- What is known behind an instruction holds behind it. -/
theorem transfer_holds (h : st.Wf n) (hJ : J.isEligible) (hfile : ∀ r ∈ p.writes J, r < n)
    (hpq : q.writes J = p.writes J) {s s' : File V S} (hs : Holds st.copyOf s.reg)
    (hex : q.exec M J s = .ok s') : Holds (st.transfer p J).copyOf s'.reg := by
  have hframe : ∀ {r}, r ∉ p.writes J → s'.reg r = s.reg r := fun hr =>
    IslandProg.exec_frame (p := ⟨q, [], {}⟩) hJ.plain hex (by rwa [hpq])
  have htr := hJ.code_ne_transform
  have hkill : ∀ r b, (st.killAll ((p.eachWrite J).filter fun s => decide (0 < s.len))).copyOf r =
      some b → s'.reg r = s'.reg b := by
    intro r b hr
    obtain ⟨h1, h2, h3⟩ := (CopyScan.killAll_spec h _).2 r b hr
    rw [mem_eachWrite htr] at h2 h3
    rw [hframe h2, hframe h3]
    exact hs r b h1
  unfold CopyScan.transfer
  dsimp only
  split
  · rename_i hno
    rw [exec_noOp hno hex]
    exact hs
  · split
    · rename_i hmove
      obtain ⟨hlen, hcall, -⟩ := outputLen_of_move hmove
      intro r b hr
      rcases Nat.eq_zero_or_pos J.moveLen with h0 | hpos
      · exact hkill r b (by simpa [moveRoots, h0, CopyScan.recordRoots] using hr)
      have hle : J.dst + (moveRoots st.copyOf J.a J.dst J.moveLen).length ≤ n := by
        have := hfile (J.dst + (J.moveLen - 1)) ((mem_writes hcall).2 (by omega))
        simp only [moveRoots, List.length_map, List.length_range]
        omega
      rcases (CopyScan.recordRoots_spec (CopyScan.killAll_spec h _).1 hle).2 r b hr with
        hr | ⟨k, hk, rfl⟩
      · exact hkill r b hr
      · obtain ⟨hlt, hdisj, hout, hroot⟩ := mem_moveRoots hk
        rw [exec_move hmove hdisj hex hlt, hframe (r := b) (by rw [mem_writes hcall]; omega)]
        rcases hroot with hroot | rfl
        · exact hs _ _ hroot
        · rfl
    · exact hkill

end Transfer

end Program

end Stanli
