import Mathlib.Algebra.Order.Ring.Nat
import Stanli.Graph.Stores
import Stanli.Lowering.IslandInputs
import Stanli.Program.Checked

/-!
# Packed island inputs hold the data of direct descriptors

`Moves` says what emitting value-moving ops does: the graph grows, and running the new ops changes
slots of their own only.  Each loop of `packIslandInputs` has one lemma that says what the slots it
emits hold; together they give `packIslandInputs_seeds`: the registers are seeded as if each live-in
had been bound to its own slot.
-/

namespace Stanli

open Program

variable {U V S W : Type*}

/-! ## Narrowed windows -/

namespace Program

section Trim

variable {read : ℕ → Bool}

lemma trimFront_spec (read : ℕ → Bool) (reg n : ℕ) :
    reg ≤ (trimFront read reg n).reg ∧
      (trimFront read reg n).reg + (trimFront read reg n).len = reg + n ∧
      ∀ r, reg ≤ r → r < (trimFront read reg n).reg → read r = false := by
  induction n generalizing reg with
  | zero => exact ⟨le_rfl, rfl, fun r h h' => absurd h' (by simp only [trimFront]; omega)⟩
  | succ n ih =>
    rw [trimFront]
    by_cases h : read reg = true
    · rw [if_pos h]
      exact ⟨le_rfl, rfl, fun r h h' => absurd h' (by simp only []; omega)⟩
    · rw [if_neg h]
      obtain ⟨h1, h2, h3⟩ := ih (reg + 1)
      refine ⟨by omega, by omega, fun r hr hr' => ?_⟩
      rcases Nat.eq_or_lt_of_le hr with rfl | hlt
      · simpa using h
      · exact h3 r hlt hr'

lemma trimBack_spec (read : ℕ → Bool) (reg n : ℕ) :
    trimBack read reg n ≤ n ∧ ∀ r, reg + trimBack read reg n ≤ r → r < reg + n → read r = false := by
  induction n with
  | zero => exact ⟨le_rfl, fun r _ h => absurd h (by omega)⟩
  | succ n ih =>
    rw [trimBack]
    by_cases h : read (reg + n) = true
    · rw [if_pos h]
      exact ⟨le_rfl, fun r h h' => absurd h' (by omega)⟩
    · rw [if_neg h]
      refine ⟨by omega, fun r hr hr' => ?_⟩
      rcases Nat.lt_or_ge r (reg + n) with hlt | hge
      · exact ih.2 r hr hlt
      · obtain rfl : r = reg + n := by omega
        simpa using h

/-- A trimmed range is part of the range and keeps every register that is read. -/
lemma trimSpan_spec (read : ℕ → Bool) (s : Span) :
    s.reg ≤ (trimSpan read s).reg ∧
      (trimSpan read s).reg + (trimSpan read s).len ≤ s.reg + s.len ∧
      ∀ r ∈ s.regs, read r = true → r ∈ (trimSpan read s).regs := by
  obtain ⟨f1, f2, f3⟩ := trimFront_spec read s.reg s.len
  obtain ⟨b1, b2⟩ := trimBack_spec read (trimFront read s.reg s.len).reg
    (trimFront read s.reg s.len).len
  rw [trimSpan]
  by_cases h : 0 < trimBack read (trimFront read s.reg s.len).reg (trimFront read s.reg s.len).len
  · rw [if_pos h]
    refine ⟨f1, by simp only []; omega, fun r hr hread => ?_⟩
    rw [Span.mem_regs] at hr ⊢
    have hfront : (trimFront read s.reg s.len).reg ≤ r := by
      by_contra hlt
      exact absurd hread (by rw [f3 r hr.1 (by omega)]; decide)
    have hback : r < (trimFront read s.reg s.len).reg +
        trimBack read (trimFront read s.reg s.len).reg (trimFront read s.reg s.len).len := by
      by_contra hle
      exact absurd hread (by rw [b2 r (by omega) (by omega)]; decide)
    exact ⟨hfront, hback⟩
  · rw [if_neg h]
    exact ⟨le_rfl, le_rfl, fun r hr _ => hr⟩

end Trim

/-- A narrowed live-in seeds some of its registers, each from the element it had, and these are all
that anything reads. -/
structure LiveIn.Narrowed (read : ℕ → Bool) (li li' : LiveIn) : Prop where
  reg_le : li.reg ≤ li'.reg
  end_le : li'.reg + li'.len ≤ li.reg + li.len
  offset_eq : li'.offset + li.reg = li.offset + li'.reg
  input_eq : li'.input = li.input
  keeps : ∀ r ∈ li.regs, read r = true → r ∈ li'.regs

lemma LiveIn.Narrowed.refl (read : ℕ → Bool) (li : LiveIn) : li.Narrowed read li :=
  ⟨le_rfl, le_rfl, rfl, rfl, fun _ hr _ => hr⟩

lemma LiveIn.narrowed_trimSpan (read : ℕ → Bool) (li : LiveIn) :
    li.Narrowed read (li.narrow (trimSpan read ⟨li.reg, li.len⟩)) := by
  obtain ⟨h1, h2, h3⟩ := trimSpan_spec read ⟨li.reg, li.len⟩
  have hle : li.reg ≤ (trimSpan read ⟨li.reg, li.len⟩).reg := h1
  refine ⟨h1, h2, ?_, rfl, h3⟩
  simp only [LiveIn.narrow]
  omega

lemma LiveIn.narrow_self (li : LiveIn) : li.narrow ⟨li.reg, li.len⟩ = li := by
  simp [LiveIn.narrow]

lemma zipWith_narrow_self (ins : List LiveIn) :
    List.zipWith LiveIn.narrow ins (ins.map fun li => ⟨li.reg, li.len⟩) = ins := by
  induction ins with
  | nil => rfl
  | cons li ins ih => rw [List.map_cons, List.zipWith_cons_cons, ih, LiveIn.narrow_self]

/-- The windows before register compaction. -/
theorem narrowInputs_narrowed (R : Registry) (p : Program V) (ins : List LiveIn) :
    List.Forall₂ (LiveIn.Narrowed (p.readAnywhere R)) ins (p.narrowInputs R ins) := by
  rw [narrowInputs, usedProgramInputs]
  split
  · rw [zipWith_narrow_self]
    exact List.forall₂_same.2 fun li _ => LiveIn.Narrowed.refl _ li
  · induction ins with
    | nil => exact .nil
    | cons li ins ih => exact .cons (LiveIn.narrowed_trimSpan _ li) ih

end Program

namespace Lowering

/-! ## Running what is emitted -/

/-- The binding of a graph that has grown out of `g`: every slot has its own buffer. -/
structure Agrees (b : Binding) (g : Graph U) : Prop where
  home : b.home = id
  len : ∀ s < g.slots.length, b.len s = g.len s

/-- No op shares the primal of another one: lowering emits none that does. -/
def NoPrimal (g : Graph U) : Prop := ∀ op ∈ g.ops, op.primalSource = none

/-- From `g` to `g'` ops were emitted that take the arena from `m` to `m'`: they do not fail, they
touch nothing but the arena, and there only slots of their own. -/
structure Moves (K : Kernels U V S W) (b : Binding) (g g' : Graph U) (m m' : Arena V) : Prop where
  slots : g.slots <+: g'.slots
  ops : ∃ ops, g'.ops = g.ops ++ ops ∧ ∀ (w : W) (sh : ℕ → Option (Option S)),
    ((forwardMachine K b).run ops ⟨m, w, sh⟩).state = ⟨m', w, sh⟩ ∧
      ((forwardMachine K b).run ops ⟨m, w, sh⟩).error = none
  frame : ∀ s < g.slots.length, m' s = m s

section Moves

variable {K : Kernels U V S W} {b : Binding} {g g' g'' : Graph U} {m m' m'' : Arena V}

lemma Moves.refl (K : Kernels U V S W) (b : Binding) (g : Graph U) (m : Arena V) :
    Moves K b g g m m where
  slots := List.prefix_rfl
  ops := ⟨[], by simp, fun _ _ => ⟨rfl, rfl⟩⟩
  frame := fun _ _ => rfl

lemma Moves.trans (h : Moves K b g g' m m') (h' : Moves K b g' g'' m' m'') :
    Moves K b g g'' m m'' where
  slots := h.slots.trans h'.slots
  ops := by
    obtain ⟨ops, hops, hrun⟩ := h.ops
    obtain ⟨ops', hops', hrun'⟩ := h'.ops
    refine ⟨ops ++ ops', by rw [hops', hops, List.append_assoc], fun w sh => ?_⟩
    obtain ⟨hs, he⟩ := @Machine.run_append _ _ _ _ _ ops ops' _ (hrun w sh).2
    rw [hs, he, (hrun w sh).1]
    exact hrun' w sh
  frame := fun s hs => by
    rw [h'.frame s (by have := h.slots.length_le; omega), h.frame s hs]

lemma Moves.length_le (h : Moves K b g g' m m') : g.slots.length ≤ g'.slots.length :=
  h.slots.length_le

lemma Moves.run (h : Moves K b g g' m m') (w : W) (sh : ℕ → Option (Option S)) :
    ((forwardMachine K b).run (g'.ops.drop g.ops.length) ⟨m, w, sh⟩).state = ⟨m', w, sh⟩ ∧
      ((forwardMachine K b).run (g'.ops.drop g.ops.length) ⟨m, w, sh⟩).error = none := by
  obtain ⟨ops, hops, hrun⟩ := h.ops
  rw [hops, List.drop_left]
  exact hrun w sh

lemma len_of_extends (h : g.slots <+: g'.slots) {s : ℕ} (hs : s < g.slots.length) :
    g'.len s = g.len s := by
  obtain ⟨t, ht⟩ := h
  rw [Graph.len, Graph.len, ← ht, List.getElem?_append_left hs]

lemma Agrees.of_extends (h : Agrees b g') (hp : g.slots <+: g'.slots) : Agrees b g where
  home := h.home
  len := fun s hs => by rw [h.len s (by have := hp.length_le; omega), len_of_extends hp hs]

lemma Agrees.length_read (h : Agrees b g) {s : ℕ} (hs : s < g.slots.length) (m : Arena V) :
    (b.read m s).length = g.len s := by
  rw [Binding.read, List.length_map, List.length_range, h.len s hs]

/-- Slots that were there before read the same. -/
lemma Moves.read_eq (h : Moves K b g g' m m') (hb : b.home = id) {s : ℕ} (hs : s < g.slots.length) :
    b.read m' s = b.read m s := by
  rw [Binding.read, Binding.read, hb, id_eq, h.frame s hs]

lemma Moves.map_read (h : Moves K b g g' m m') (hb : b.home = id) {slots : List ℕ}
    (hs : ∀ s ∈ slots, s < g.slots.length) : slots.map (b.read m') = slots.map (b.read m) :=
  List.map_congr_left fun s hmem => h.read_eq hb (hs s hmem)

end Moves

/-! ## One op -/

/-- The kernels of `OP_SLICE` and `OP_CONCAT2` (`slice_fwd` and `concat2_fwd` of `elementwise.cpp`). -/
structure MovesValues (K : Kernels U V S W) : Prop where
  slice : ∀ (c : KernelCall U) (n n2 : ℕ) (xs : List V), c.opcode = .slice →
    ∃ r, K.forward c n n2 [xs] = .ok r ∧
      ∀ i < n, ∀ v, xs[(c.idata.getD 0 0).toNat + i]? = some v → r.out i = v
  concat2 : ∀ (c : KernelCall U) (n n2 : ℕ) (xs ys : List V), c.opcode = .concat2 →
    ∃ r, K.forward c n n2 [xs, ys] = .ok r ∧ ∀ i < n, ∀ v, (xs ++ ys)[i]? = some v → r.out i = v

section Emit

variable {K : Kernels U V S W} {b : Binding} {g : Graph U}

@[simp] lemma emitRaw_slot (oc : Opcode) (ins : List ℕ) (n : ℕ) (idata : List ℤ) (g : Graph U) :
    (emitRaw oc ins n idata g).slot = g.slots.length := rfl

@[simp] lemma emitRaw_slots (oc : Opcode) (ins : List ℕ) (n : ℕ) (idata : List ℤ) (g : Graph U) :
    (emitRaw oc ins n idata g).graph.slots = g.slots ++ [⟨n, false⟩] := rfl

lemma emitRaw_len (oc : Opcode) (ins : List ℕ) (n : ℕ) (idata : List ℤ) (g : Graph U) :
    (emitRaw oc ins n idata g).graph.len g.slots.length = n := by
  simp [Graph.len]

lemma NoPrimal.emitRaw (h : NoPrimal g) (oc : Opcode) (ins : List ℕ) (n : ℕ) (idata : List ℤ) :
    NoPrimal (emitRaw oc ins n idata g).graph := by
  intro op hop
  rcases List.mem_append.1 hop with hop | hop
  · exact h op hop
  · rw [List.mem_singleton.1 hop]

/-- Emitting one op, from what its step does. -/
lemma emitRaw_moves {oc : Opcode} {ins : List ℕ} {n : ℕ} {idata : List ℤ}
    {m : Arena V} {buf : ℕ → V}
    (hstep : ∀ (w : W) (sh : ℕ → Option (Option S)), ∃ o,
      forwardOp K b { opcode := oc, out := g.slots.length, ins := ins, idata := idata } ⟨m, w, sh⟩ =
        .ok (⟨Function.update m g.slots.length buf, w, sh⟩, o)) :
    Moves K b g (emitRaw oc ins n idata g).graph m (Function.update m g.slots.length buf) where
  slots := List.prefix_append _ _
  ops := by
    refine ⟨_, rfl, fun w sh => ?_⟩
    obtain ⟨o, ho⟩ := hstep w sh
    have hmachine : (forwardMachine K b).step
        { opcode := oc, out := g.slots.length, ins := ins, idata := idata } ⟨m, w, sh⟩ =
          .ok (⟨Function.update m g.slots.length buf, w, sh⟩, o) := ho
    have hrun := Machine.run_cons_ok hmachine []
    constructor
    · exact congrArg Outcome.state hrun
    · exact congrArg Outcome.error hrun
  frame := fun s hs => Function.update_of_ne (by omega) _ _

/-- Reading the slot an op was just given. -/
lemma read_update_eq {n : ℕ} {xs : List V} {buf : ℕ → V} {m : Arena V} {s : ℕ}
    (hhome : b.home = id) (hlen : b.len s = n) (hxs : xs.length = n)
    (hbuf : ∀ i < n, ∀ v, xs[i]? = some v → buf i = v) :
    b.read (Function.update m s buf) s = xs := by
  refine List.ext_getElem? fun i => ?_
  rw [Binding.read, hlen, hhome, id_eq, Function.update_self]
  rcases Nat.lt_or_ge i n with hi | hi
  · rw [List.getElem?_map, List.getElem?_range hi, Option.map_some,
      List.getElem?_eq_getElem (by omega)]
    exact congrArg some (hbuf i hi _ (List.getElem?_eq_getElem (by omega)))
  · rw [List.getElem?_eq_none (by simpa using hi), List.getElem?_eq_none (by omega)]

/-- A step that reads one element. -/
lemma forwardOp_index {op : Op U} {m : Arena V} (hp : op.primalSource = none)
    (hop : op.opcode = .index) (hhome : b.home = id) (w : W) (sh : ℕ → Option (Option S)) :
    ∃ o, forwardOp K b op ⟨m, w, sh⟩ =
      .ok (⟨Function.update m op.out
        (Function.update (m op.out) 0 (m (op.input 0) (op.imm 0).toNat)), w, sh⟩, o) := by
  have hroute : op.routed b m =
      some (Function.update (m op.out) 0 (m (op.input 0) (op.imm 0).toNat)) := by
    simp only [Op.routed, hop, if_true, hhome, id_eq]
  refine ⟨⟨op.shown b m, none⟩, ?_⟩
  rw [forwardOp_routed hp hroute, hhome]
  rfl

/-- A step of a kernel that moves values. -/
lemma forwardOp_moves {op : Op U} {m : Arena V} {r : KernelOut V S} (hp : op.primalSource = none)
    (hroute : op.opcode.isRouted = false) (heff : K.hasEffect op.call = false)
    (hout2 : op.out2 = none) (hhome : b.home = id)
    (hcall : K.forward op.call (b.len op.out) 0 (op.ins.map (b.read m)) = .ok r) (w : W)
    (sh : ℕ → Option (Option S)) : ∃ o, forwardOp K b op ⟨m, w, sh⟩ =
      .ok (⟨Function.update m op.out r.out, w, sh⟩, o) := by
  refine ⟨⟨op.shown b m, some r.scratch⟩, ?_⟩
  have hK : K.call b op (op.ins.map (b.read m)) w = .ok (r, w) := by
    rw [Kernels.call, heff, hout2]
    simp only [Option.map_none, Option.getD_none]
    rw [hcall]
    rfl
  have hstore : op.store b r.out r.out2 m = Function.update m op.out r.out := by
    unfold Op.store
    rw [hout2, hhome]
    rfl
  rw [forwardOp_kernel hp hroute, hK, Except.map]
  simp only [hstore]

lemma emitWindow_eq (slot offset len : ℕ) (g : Graph U) : emitWindow slot offset len g =
    emitRaw (if len = 1 then .index else .slice) [slot] len [(offset : ℤ)] g := rfl

/-- A window cut out of a slot. -/
lemma emitWindow_moves (hK : MovesValues K) {slot offset len : ℕ}
    (hb : Agrees b (emitWindow slot offset len g).graph) (hs : slot < g.slots.length)
    (hfit : offset + len ≤ g.len slot) (m : Arena V) :
    ∃ m', Moves K b g (emitWindow slot offset len g).graph m m' ∧
      b.read m' (emitWindow slot offset len g).slot = (b.read m slot).window offset len := by
  have hslots : (emitWindow slot offset len g).graph.slots = g.slots ++ [⟨len, false⟩] := rfl
  have hbg : Agrees b g := hb.of_extends (by rw [hslots]; exact List.prefix_append _ _)
  have hread : (b.read m slot).length = g.len slot := hbg.length_read hs m
  have hnew : b.len g.slots.length = len := by
    rw [hb.len _ (by simp [hslots])]
    exact emitRaw_len _ _ _ _ g
  have hwin : ((b.read m slot).window offset len).length = len :=
    List.length_window (by omega)
  by_cases h1 : len = 1
  · -- `OP_INDEX`
    subst h1
    refine ⟨_, emitRaw_moves fun w sh => forwardOp_index rfl rfl hb.home w sh, ?_⟩
    refine read_update_eq hb.home hnew hwin fun i hi v hv => ?_
    obtain rfl : i = 0 := by omega
    rw [List.getElem?_window (by omega), Binding.read, List.getElem?_map, Nat.add_zero,
      List.getElem?_range (by rw [hbg.len slot hs]; omega), hb.home] at hv
    exact (Function.update_self _ _ _).trans (Option.some.inj hv)
  · -- `OP_SLICE`
    have heq : emitWindow slot offset len g = emitRaw .slice [slot] len [(offset : ℤ)] g := by
      rw [emitWindow_eq, if_neg h1]
    rw [heq]
    obtain ⟨r, hr, hout⟩ := hK.slice ⟨.slice, 0, [(offset : ℤ)], none⟩ len 0 (b.read m slot) rfl
    refine ⟨_, emitRaw_moves fun w sh => forwardOp_moves (r := r) rfl rfl rfl rfl hb.home ?_ w sh, ?_⟩
    · have hlen : b.len g.slots.length = len := hnew
      simp only [hlen]
      exact hr
    · refine read_update_eq hb.home hnew hwin fun i hi v hv => hout i hi v ?_
      rw [List.getElem?_window hi] at hv
      exact hv

/-- Two slots, one behind the other. -/
lemma emitConcat_moves (hK : MovesValues K) {slot slot' : ℕ}
    (hb : Agrees b (emitRaw .concat2 [slot, slot'] (g.len slot + g.len slot') [] g).graph)
    (hs : slot < g.slots.length) (hs' : slot' < g.slots.length) (m : Arena V) :
    ∃ m', Moves K b g (emitRaw .concat2 [slot, slot'] (g.len slot + g.len slot') [] g).graph m m' ∧
      b.read m' g.slots.length = b.read m slot ++ b.read m slot' := by
  have hbg : Agrees b g := hb.of_extends (List.prefix_append _ _)
  have hnew : b.len g.slots.length = g.len slot + g.len slot' := by
    rw [hb.len _ (by simp)]
    exact emitRaw_len _ _ _ _ g
  obtain ⟨r, hr, hout⟩ := hK.concat2 ⟨.concat2, 0, [], none⟩ (g.len slot + g.len slot') 0
    (b.read m slot) (b.read m slot') rfl
  refine ⟨_, emitRaw_moves fun w sh => forwardOp_moves (r := r) rfl rfl rfl rfl hb.home ?_ w sh, ?_⟩
  · simp only [hnew]
    exact hr
  · refine read_update_eq hb.home hnew ?_ fun i hi v hv => hout i hi v hv
    rw [List.length_append, hbg.length_read hs, hbg.length_read hs']

end Emit

/-! ## Packing -/

/-- The window of a live-in lies in the slot it is bound to. -/
def Fits (g : Graph U) (li : LiveIn) (s : ℕ) : Prop :=
  s < g.slots.length ∧ li.offset + li.len ≤ g.len s

instance (g : Graph U) (li : LiveIn) (s : ℕ) : Decidable (Fits g li s) :=
  inferInstanceAs (Decidable (_ ∧ _))

/-- What each live-in is to be seeded with: its window of its slot. -/
def windows (read : ℕ → List V) (ins : List LiveIn) (slots : List ℕ) : List (ℕ × List V) :=
  List.zipWith (fun li s => (li.reg, (read s).window li.offset li.len)) ins slots

section Pack

variable {K : Kernels U V S W} {b : Binding} {g g' : Graph U} {m m' : Arena V}

lemma Fits.of_extends {li : LiveIn} {s : ℕ} (h : Fits g li s) (hp : g.slots <+: g'.slots) :
    Fits g' li s :=
  ⟨by have := hp.length_le; have := h.1; omega, by rw [len_of_extends hp h.1]; exact h.2⟩

/-- A narrowed window fits where the window did. -/
lemma Fits.narrowed {read : ℕ → Bool} {li li' : LiveIn} {s : ℕ} (h : Fits g li s)
    (hn : li.Narrowed read li') : Fits g li' s := by
  have hoffset := hn.offset_eq
  have hend := hn.end_le
  have hfit := h.2
  exact ⟨h.1, by omega⟩

/-- Live-ins that are bound to whole slots and then narrowed. -/
lemma fits_narrowInputs (R : Registry) (p : Program V) {ins : List LiveIn} {slots : List ℕ}
    (h : List.Forall₂ (Fits g) ins slots) :
    List.Forall₂ (Fits g) (p.narrowInputs R ins) slots := by
  have hn := narrowInputs_narrowed R p ins
  generalize p.narrowInputs R ins = ins' at hn ⊢
  induction hn generalizing slots with
  | nil => exact h
  | cons hli _ ih =>
    cases h with
    | cons hs hrest => exact .cons (hs.narrowed hli) (ih hrest)

lemma forall_lt_of_fits {ins : List LiveIn} {slots : List ℕ} (h : List.Forall₂ (Fits g) ins slots) :
    ∀ s ∈ slots, s < g.slots.length := by
  induction h with
  | nil => simp
  | cons hf _ ih =>
    intro s hs
    rcases List.mem_cons.1 hs with rfl | hs
    · exact hf.1
    · exact ih s hs

lemma windows_congr {read read' : ℕ → List V} {ins : List LiveIn} {slots : List ℕ}
    (h : ∀ s ∈ slots, read' s = read s) : windows read' ins slots = windows read ins slots := by
  induction slots generalizing ins with
  | nil => cases ins <;> rfl
  | cons s slots ih =>
    cases ins with
    | nil => rfl
    | cons li ins =>
      rw [windows, windows, List.zipWith_cons_cons, List.zipWith_cons_cons, h s (by simp)]
      exact congrArg _ (ih fun t ht => h t (by simp [ht]))

/-! ### Cutting out the windows -/

lemma cutWindow_extends (li : LiveIn) (slot : ℕ) (g : Graph U) :
    g.slots <+: (cutWindow li slot g).2.graph.slots := by
  rw [cutWindow]
  split
  · exact List.prefix_rfl
  · exact List.prefix_append _ _

lemma cutWindows_extends (ins : List LiveIn) (slots : List ℕ) (g : Graph U) :
    g.slots <+: (cutWindows ins slots g).graph.slots := by
  induction ins generalizing slots g with
  | nil => exact List.prefix_rfl
  | cons li ins ih =>
    cases slots with
    | nil => exact List.prefix_rfl
    | cons slot slots => exact (cutWindow_extends li slot g).trans (ih slots _)

/-- One live-in: the slot it ends with holds the same window. -/
lemma cutWindow_spec (hK : MovesValues K) {li : LiveIn} {slot : ℕ} (hf : Fits g li slot)
    (hb : Agrees b (cutWindow li slot g).2.graph) (m : Arena V) :
    ∃ m', Moves K b g (cutWindow li slot g).2.graph m m' ∧
      Fits (cutWindow li slot g).2.graph (cutWindow li slot g).1 (cutWindow li slot g).2.slot ∧
      (b.read m' (cutWindow li slot g).2.slot).window (cutWindow li slot g).1.offset
        (cutWindow li slot g).1.len = (b.read m slot).window li.offset li.len := by
  have hread := (hb.of_extends (cutWindow_extends li slot g)).length_read hf.1 m
  unfold cutWindow at hb ⊢
  by_cases h : li.len = 0 ∨ li.len = g.len slot
  · rw [if_pos h]
    exact ⟨m, Moves.refl K b g m, hf, rfl⟩
  · rw [if_neg h] at hb ⊢
    obtain ⟨m', hm, hr⟩ := emitWindow_moves hK hb hf.1 hf.2 m
    have hlen : (emitWindow slot li.offset li.len g).graph.len g.slots.length = li.len :=
      emitRaw_len _ _ _ _ g
    refine ⟨m', hm, ⟨by simp [emitWindow], ?_⟩, ?_⟩
    · exact le_of_eq ((Nat.zero_add _).trans hlen.symm)
    · have hwin := List.window_all ((b.read m slot).window li.offset li.len)
      rw [List.length_window (by have := hf.2; omega)] at hwin
      simp only [hr]
      exact hwin

lemma cutWindows_spec (hK : MovesValues K) {ins : List LiveIn} {slots : List ℕ}
    (hf : List.Forall₂ (Fits g) ins slots) (hb : Agrees b (cutWindows ins slots g).graph)
    (m : Arena V) :
    ∃ m', Moves K b g (cutWindows ins slots g).graph m m' ∧
      List.Forall₂ (Fits (cutWindows ins slots g).graph) (cutWindows ins slots g).ins
        (cutWindows ins slots g).slots ∧
      windows (b.read m') (cutWindows ins slots g).ins (cutWindows ins slots g).slots =
        windows (b.read m) ins slots := by
  induction ins generalizing slots g m with
  | nil =>
    cases hf
    exact ⟨m, Moves.refl K b g m, .nil, rfl⟩
  | cons li ins ih =>
    cases slots with
    | nil => cases hf
    | cons slot slots =>
      obtain ⟨hf1, hf2⟩ := List.forall₂_cons.1 hf
      have hpre := cutWindow_extends li slot g
      have hpre' := cutWindows_extends ins slots (cutWindow li slot g).2.graph
      obtain ⟨m1, hm1, hfit1, hw1⟩ := cutWindow_spec hK hf1 (hb.of_extends hpre') m
      obtain ⟨m2, hm2, hfit2, hw2⟩ := ih (hf2.imp fun _ _ h => h.of_extends hpre) hb m1
      refine ⟨m2, hm1.trans hm2, .cons (hfit1.of_extends hpre') hfit2, ?_⟩
      have hhead : b.read m2 (cutWindow li slot g).2.slot = b.read m1 (cutWindow li slot g).2.slot :=
        hm2.read_eq hb.home hfit1.1
      have htail : windows (b.read m1) ins slots = windows (b.read m) ins slots :=
        windows_congr fun s hs => hm1.read_eq hb.home (forall_lt_of_fits hf2 s hs)
      have hreg : (cutWindow li slot g).1.reg = li.reg := by
        rw [cutWindow]
        split <;> rfl
      simp only [cutWindows, windows, List.zipWith_cons_cons, hhead, hw1, hreg]
      exact congrArg _ (hw2.trans htail)

lemma cutWindows_slots_length {ins : List LiveIn} {slots : List ℕ}
    (h : ins.length = slots.length) : (cutWindows ins slots g).slots.length = slots.length := by
  induction ins generalizing slots g with
  | nil => rfl
  | cons li ins ih =>
    cases slots with
    | nil => rfl
    | cons slot slots => exact congrArg (· + 1) (ih (by simpa using h))

/-! ### Concatenating -/

lemma concatSlots_extends (packed packedLen : ℕ) (slots : List ℕ) (g : Graph U) :
    g.slots <+: (concatSlots packed packedLen slots g).graph.slots := by
  induction slots generalizing packed packedLen g with
  | nil => exact List.prefix_rfl
  | cons slot slots ih =>
    have hstep : g.slots <+:
        (emitRaw .concat2 [packed, slot] (packedLen + g.len slot) [] g).graph.slots :=
      List.prefix_append _ _
    exact hstep.trans (ih g.slots.length (packedLen + g.len slot) _)

lemma concatSlots_spec (hK : MovesValues K) {packed : ℕ} {slots : List ℕ}
    (hp : packed < g.slots.length) (hs : ∀ s ∈ slots, s < g.slots.length)
    (hb : Agrees b (concatSlots packed (g.len packed) slots g).graph) (m : Arena V) :
    ∃ m', Moves K b g (concatSlots packed (g.len packed) slots g).graph m m' ∧
      (concatSlots packed (g.len packed) slots g).slot <
        (concatSlots packed (g.len packed) slots g).graph.slots.length ∧
      b.read m' (concatSlots packed (g.len packed) slots g).slot =
        b.read m packed ++ slots.flatMap (b.read m) := by
  induction slots generalizing packed g m with
  | nil => exact ⟨m, Moves.refl K b g m, hp, (List.append_nil _).symm⟩
  | cons slot slots ih =>
    have hslot : slot < g.slots.length := hs slot (by simp)
    have hslots : ∀ s ∈ slots, s < g.slots.length := fun s h => hs s (by simp [h])
    obtain ⟨g1, hg1⟩ : ∃ g1,
        (emitRaw .concat2 [packed, slot] (g.len packed + g.len slot) [] g).graph = g1 := ⟨_, rfl⟩
    have hg1s : g1.slots = g.slots ++ [⟨g.len packed + g.len slot, false⟩] := by rw [← hg1]; rfl
    have hlen : g1.len g.slots.length = g.len packed + g.len slot := by
      rw [← hg1]
      exact emitRaw_len _ _ _ _ g
    have heq : concatSlots packed (g.len packed) (slot :: slots) g =
        concatSlots g.slots.length (g1.len g.slots.length) slots g1 := by
      rw [hlen, ← hg1]
      rfl
    rw [heq] at hb ⊢
    have hbg1 : Agrees b g1 := hb.of_extends (concatSlots_extends _ _ slots g1)
    obtain ⟨m1, hm1, hr1⟩ := emitConcat_moves hK (hg1 ▸ hbg1) hp hslot m
    rw [hg1] at hm1
    obtain ⟨m2, hm2, hlt, hr2⟩ := @ih g1 g.slots.length (by simp [hg1s])
      (fun s h => by have := hslots s h; simp only [hg1s, List.length_append]; omega) hb m1
    refine ⟨m2, hm1.trans hm2, hlt, ?_⟩
    have hrest : slots.flatMap (b.read m1) = slots.flatMap (b.read m) :=
      congrArg List.flatten (hm1.map_read hb.home hslots)
    rw [hr2, hr1, hrest, List.flatMap_cons, List.append_assoc]

/-! ### The records -/

lemma seeds_append (inputs : List (List V)) (k : ℕ) (ins ins' : List LiveIn) :
    seeds inputs k (ins ++ ins') = seeds inputs k ins ++ seeds inputs (k + ins.length) ins' := by
  induction ins generalizing k with
  | nil => rfl
  | cons li ins ih =>
    rw [List.cons_append, seeds, seeds, ih, List.cons_append, List.length_cons, Nat.add_right_comm k 1,
      Nat.add_assoc]

/-- Records into one packed input: their windows stand one behind the other in it, each as far behind
its slot's contents as the running offset says. -/
lemma seeds_rebase {read : ℕ → List V} {inputs : List (List V)} {ins : List LiveIn}
    {slots : List ℕ} (hf : List.Forall₂ (Fits g) ins slots)
    (hread : ∀ s < g.slots.length, (read s).length = g.len s) {pre : List V}
    (hin : inputs.getD 0 [] = pre ++ slots.flatMap read) (k : ℕ) :
    seeds inputs k (rebase g pre.length ins slots) = windows read ins slots := by
  induction hf generalizing pre k with
  | nil => rfl
  | @cons li s ins slots hf _ ih =>
    have hlen := hread s hf.1
    have hvalues : LiveIn.values { li with input := some 0, offset := li.offset + pre.length }
        inputs k = (read s).window li.offset li.len := by
      simp only [LiveIn.values, Option.getD_some]
      rw [hin, List.window_append_right, List.flatMap_cons,
        List.window_append_left _ (by rw [hlen]; exact hf.2)]
    have hrest := @ih (pre ++ read s) (by rw [hin, List.flatMap_cons, List.append_assoc]) (k + 1)
    rw [List.length_append, hlen] at hrest
    rw [rebase, seeds, hvalues, hrest]
    rfl

/-- Records with an input each, counted from `j`. -/
lemma seeds_bindInputs {read : ℕ → List V} {inputs : List (List V)} {ins : List LiveIn}
    {slots : List ℕ} {j : ℕ} (hlen : ins.length = slots.length)
    (hin : ∀ i s, slots[i]? = some s → inputs[j + i]? = some (read s)) (k : ℕ) :
    seeds inputs k (bindInputs j ins slots) = windows read ins slots := by
  induction ins generalizing slots j k with
  | nil => cases slots <;> rfl
  | cons li ins ih =>
    cases slots with
    | nil => cases hlen
    | cons s slots =>
      have h0 : inputs[j]? = some (read s) := hin 0 s rfl
      have hvalues : LiveIn.values { li with input := some j } inputs k =
          (read s).window li.offset li.len := by
        simp only [LiveIn.values, Option.getD_some]
        rw [List.getD_eq_getElem?_getD, h0, Option.getD_some]
      rw [bindInputs, seeds, hvalues, ih (by simpa using hlen) (fun i t hi => ?_)]
      · rfl
      · rw [Nat.add_right_comm, Nat.add_assoc]
        exact hin (i + 1) t hi

/-- Direct descriptors. -/
lemma seeds_direct {read : ℕ → List V} {inputs : List (List V)} {ins : List LiveIn}
    {slots : List ℕ} {k : ℕ} (hlen : ins.length = slots.length)
    (hin : ∀ i s, slots[i]? = some s → inputs[k + i]? = some (read s)) :
    seeds inputs k (ins.map LiveIn.direct) = windows read ins slots := by
  induction ins generalizing slots k with
  | nil => cases slots <;> rfl
  | cons li ins ih =>
    cases slots with
    | nil => cases hlen
    | cons s slots =>
      have h0 : inputs[k]? = some (read s) := hin 0 s rfl
      have hvalues : li.direct.values inputs k = (read s).window li.offset li.len := by
        simp only [LiveIn.values, LiveIn.direct, Option.getD_none]
        rw [List.getD_eq_getElem?_getD, h0, Option.getD_some]
      rw [List.map_cons, seeds, hvalues, ih (by simpa using hlen) (fun i t hi => ?_)]
      · rfl
      · rw [Nat.add_right_comm, Nat.add_assoc]
        exact hin (i + 1) t hi

lemma windows_append {read : ℕ → List V} {ins ins' : List LiveIn} {slots slots' : List ℕ}
    (h : ins.length = slots.length) :
    windows read (ins ++ ins') (slots ++ slots') =
      windows read ins slots ++ windows read ins' slots' :=
  List.zipWith_append h

/-! ### The whole -/

lemma packIslandInputs_extends (ins : List LiveIn) (slots : List ℕ) (g : Graph U) :
    g.slots <+: (packIslandInputs ins slots g).graph.slots := by
  rw [packIslandInputs]
  split
  · exact List.prefix_rfl
  · exact (cutWindows_extends _ _ g).trans (concatSlots_extends _ _ _ _)

lemma NoPrimal.cutWindows (h : NoPrimal g) (ins : List LiveIn) (slots : List ℕ) :
    NoPrimal (cutWindows ins slots g).graph := by
  induction ins generalizing slots g with
  | nil => exact h
  | cons li ins ih =>
    cases slots with
    | nil => exact h
    | cons slot slots =>
      have hcut : NoPrimal (cutWindow li slot g).2.graph := by
        rw [cutWindow]
        split
        · exact h
        · exact h.emitRaw _ _ _ _
      exact ih hcut slots

lemma NoPrimal.concatSlots (h : NoPrimal g) (packed packedLen : ℕ) (slots : List ℕ) :
    NoPrimal (concatSlots packed packedLen slots g).graph := by
  induction slots generalizing packed packedLen g with
  | nil => exact h
  | cons slot slots ih => exact ih (h.emitRaw _ _ _ _) _ _

lemma NoPrimal.packIslandInputs (h : NoPrimal g) (ins : List LiveIn) (slots : List ℕ) :
    NoPrimal (packIslandInputs ins slots g).graph := by
  rw [Lowering.packIslandInputs]
  split
  · exact h
  · exact (h.cutWindows _ _).concatSlots _ _ _

/-- The op has at most six inputs. -/
lemma length_packIslandInputs (ins : List LiveIn) (slots : List ℕ) (g : Graph U) :
    (packIslandInputs ins slots g).slots.length ≤ 6 := by
  rw [packIslandInputs]
  split
  · assumption
  · simp only [List.length_cons, List.length_drop]
    omega

/-- The registers are seeded as by direct descriptors. -/
theorem packIslandInputs_seeds (hK : MovesValues K) {ins : List LiveIn} {slots : List ℕ}
    (hf : List.Forall₂ (Fits g) ins slots) (hb : Agrees b (packIslandInputs ins slots g).graph)
    (m : Arena V) :
    ∃ m', Moves K b g (packIslandInputs ins slots g).graph m m' ∧
      (∀ s ∈ (packIslandInputs ins slots g).slots,
        s < (packIslandInputs ins slots g).graph.slots.length) ∧
      seeds ((packIslandInputs ins slots g).slots.map (b.read m')) 0
        (packIslandInputs ins slots g).ins = windows (b.read m) ins slots := by
  unfold packIslandInputs at hb ⊢
  by_cases h6 : slots.length ≤ 6
  · rw [if_pos h6]
    refine ⟨m, Moves.refl K b g m, forall_lt_of_fits hf, seeds_bindInputs hf.length_eq ?_ 0⟩
    intro i s hi
    rw [Nat.zero_add, List.getElem?_map, hi, Option.map_some]
  · rw [if_neg h6] at hb ⊢
    obtain ⟨n, hn⟩ : ∃ n, slots.length - 5 = n := ⟨_, rfl⟩
    simp only [hn] at hb ⊢
    obtain ⟨cut, hcut⟩ : ∃ cut, cutWindows (ins.take n) (slots.take n) g = cut := ⟨_, rfl⟩
    simp only [hcut] at hb ⊢
    have hft : List.Forall₂ (Fits g) (ins.take n) (slots.take n) := List.forall₂_take n hf
    have hfd : List.Forall₂ (Fits g) (ins.drop n) (slots.drop n) := List.forall₂_drop n hf
    obtain ⟨m1, hm1, hfit1, hw1⟩ := cutWindows_spec hK hft
      (hcut ▸ hb.of_extends (concatSlots_extends _ _ _ cut.graph)) m
    rw [hcut] at hm1 hfit1 hw1
    cases hslots : cut.slots with
    | nil =>
      have hlen := (cutWindows_slots_length (g := g) hft.length_eq).trans List.length_take
      rw [hcut, hslots, List.length_nil] at hlen
      omega
    | cons s0 rest =>
      rw [hslots] at hfit1 hw1 hb
      simp only [List.headD_cons, List.tail_cons] at hb ⊢
      have hlt := forall_lt_of_fits hfit1
      obtain ⟨m2, hm2, hplt, hr2⟩ := concatSlots_spec hK (hlt s0 (by simp))
        (fun s h => hlt s (by simp [h])) hb m1
      obtain ⟨packed, hpacked⟩ :
          ∃ packed, concatSlots s0 (cut.graph.len s0) rest cut.graph = packed := ⟨_, rfl⟩
      rw [hpacked] at hb hm2 hplt hr2 ⊢
      have hm := hm1.trans hm2
      have hdrop := forall_lt_of_fits hfd
      refine ⟨m2, hm, fun s hs => ?_, ?_⟩
      · rcases List.mem_cons.1 hs with rfl | hs
        · exact hplt
        · have := hdrop s hs
          have := hm.length_le
          omega
      · obtain ⟨inputs, hinputs⟩ :
            ∃ inputs, (packed.slot :: slots.drop n).map (b.read m2) = inputs := ⟨_, rfl⟩
        have hhead : inputs.getD 0 [] = [] ++ (s0 :: rest).flatMap (b.read m1) := by
          rw [← hinputs, List.map_cons, List.getD_cons_zero, hr2]
          rfl
        have hlead : seeds inputs 0 (rebase packed.graph 0 cut.ins (s0 :: rest)) =
            windows (b.read m1) cut.ins (s0 :: rest) :=
          seeds_rebase (hfit1.imp fun _ _ h => h.of_extends hm2.slots)
            (fun s hs => hb.length_read hs m1) hhead 0
        have htail : ∀ i s, (slots.drop n)[i]? = some s → inputs[1 + i]? = some (b.read m2 s) := by
          intro i s hi
          rw [← hinputs, List.map_cons, Nat.add_comm, List.getElem?_cons_succ, List.getElem?_map, hi,
            Option.map_some]
        have hrest : ∀ k, seeds inputs k (bindInputs 1 (ins.drop n) (slots.drop n)) =
            windows (b.read m2) (ins.drop n) (slots.drop n) :=
          fun k => seeds_bindInputs hfd.length_eq htail k
        rw [seeds_append, hinputs, hlead, hrest, hw1, windows_congr fun s hs => hm.read_eq hb.home (hdrop s hs),
          ← windows_append hft.length_eq, List.take_append_drop, List.take_append_drop]

/-- A record keeps its registers. -/
def SameRegs (li li' : LiveIn) : Prop := li'.reg = li.reg ∧ li'.len = li.len

/-- A record keeps its registers and names one of `n` inputs. -/
def Points (n : ℕ) (li li' : LiveIn) : Prop :=
  SameRegs li li' ∧ ∃ j < n, li'.input = some j

lemma cutWindows_sameRegs {ins : List LiveIn} {slots : List ℕ} (h : ins.length = slots.length) :
    List.Forall₂ SameRegs ins (cutWindows ins slots g).ins := by
  induction ins generalizing slots g with
  | nil => exact .nil
  | cons li ins ih =>
    cases slots with
    | nil => cases h
    | cons slot slots =>
      refine .cons ?_ (ih (by simpa using h))
      rw [cutWindow]
      split <;> exact ⟨rfl, rfl⟩

lemma rebase_points {n offset : ℕ} (hn : 0 < n) {ins : List LiveIn} {slots : List ℕ}
    (h : ins.length = slots.length) : List.Forall₂ (Points n) ins (rebase g offset ins slots) := by
  induction ins generalizing slots offset with
  | nil => exact .nil
  | cons li ins ih =>
    cases slots with
    | nil => cases h
    | cons slot slots => exact .cons ⟨⟨rfl, rfl⟩, 0, hn, rfl⟩ (ih (by simpa using h))

lemma bindInputs_points {n j : ℕ} {ins : List LiveIn} {slots : List ℕ}
    (h : ins.length = slots.length) (hn : j + slots.length ≤ n) :
    List.Forall₂ (Points n) ins (bindInputs j ins slots) := by
  induction ins generalizing slots j with
  | nil => exact .nil
  | cons li ins ih =>
    cases slots with
    | nil => cases h
    | cons slot slots =>
      rw [List.length_cons] at hn
      exact .cons ⟨⟨rfl, rfl⟩, j, by omega, rfl⟩ (ih (by simpa using h) (by omega))

lemma points_of_sameRegs {n : ℕ} {ins ins' ins'' : List LiveIn} (h : List.Forall₂ SameRegs ins ins')
    (h' : List.Forall₂ (Points n) ins' ins'') : List.Forall₂ (Points n) ins ins'' :=
  @forall₂_trans _ _ _ SameRegs (Points n) (Points n)
    (fun _ _ _ h h' => ⟨⟨h'.1.1.trans h.1, h'.1.2.trans h.2⟩, h'.2⟩) _ _ _ h h'

/-- Every record names an input of the op and keeps its registers. -/
lemma packIslandInputs_points {ins : List LiveIn} {slots : List ℕ} (h : ins.length = slots.length) :
    List.Forall₂ (Points (packIslandInputs ins slots g).slots.length) ins
      (packIslandInputs ins slots g).ins := by
  unfold packIslandInputs
  by_cases h6 : slots.length ≤ 6
  · rw [if_pos h6]
    exact bindInputs_points h (by simp only []; omega)
  · rw [if_neg h6]
    obtain ⟨n, hn⟩ : ∃ n, slots.length - 5 = n := ⟨_, rfl⟩
    simp only [hn]
    have ht : (ins.take n).length = (slots.take n).length := by
      rw [List.length_take, List.length_take, h]
    have hd : (ins.drop n).length = (slots.drop n).length := by
      rw [List.length_drop, List.length_drop, h]
    obtain ⟨cut, hcut⟩ : ∃ cut, cutWindows (ins.take n) (slots.take n) g = cut := ⟨_, rfl⟩
    have hsame : List.Forall₂ SameRegs (ins.take n) cut.ins := hcut ▸ cutWindows_sameRegs ht
    have hlen : cut.ins.length = cut.slots.length := by
      rw [← hsame.length_eq, ← hcut, cutWindows_slots_length ht, ht]
    have hlead : ∀ g' : Graph U, List.Forall₂ (Points ((slots.drop n).length + 1)) (ins.take n)
        (rebase g' 0 cut.ins cut.slots) := fun g' =>
      points_of_sameRegs hsame (rebase_points (Nat.succ_pos _) hlen)
    have hrest : List.Forall₂ (Points ((slots.drop n).length + 1)) (ins.drop n)
        (bindInputs 1 (ins.drop n) (slots.drop n)) := bindInputs_points hd (Nat.add_comm _ _).le
    have hall := List.rel_append (hlead (concatSlots (cut.slots.headD 0)
      (cut.graph.len (cut.slots.headD 0)) cut.slots.tail cut.graph).graph) hrest
    simp only [List.take_append_drop] at hall
    rw [hcut]
    exact hall

lemma getElem?_seeds (inputs : List (List V)) (k i : ℕ) (ins : List LiveIn) :
    (seeds inputs k ins)[i]? = (ins[i]?).map fun li => (li.reg, li.values inputs (k + i)) := by
  induction ins generalizing k i with
  | nil => rfl
  | cons li ins ih =>
    cases i with
    | zero => rfl
    | succ i =>
      rw [seeds, List.getElem?_cons_succ, List.getElem?_cons_succ, ih, Nat.add_right_comm k 1,
        Nat.add_assoc]

/-- The record of one live-in: its input holds its window at its offset. -/
lemma packIslandInputs_record {ins : List LiveIn} {slots : List ℕ}
    (hf : List.Forall₂ (Fits g) ins slots) (hb : Agrees b (packIslandInputs ins slots g).graph)
    (hseeds : seeds ((packIslandInputs ins slots g).slots.map (b.read m')) 0
      (packIslandInputs ins slots g).ins = windows (b.read m) ins slots)
    {k s : ℕ} {li : LiveIn} (hk : ins[k]? = some li) (hs : slots[k]? = some s) :
    ∃ (li' : LiveIn) (j s' : ℕ), (packIslandInputs ins slots g).ins[k]? = some li' ∧
      li'.reg = li.reg ∧ li'.len = li.len ∧ li'.input = some j ∧
      (packIslandInputs ins slots g).slots[j]? = some s' ∧ ∀ i < li.len, ∃ v,
        (b.read m' s')[li'.offset + i]? = some v ∧ (b.read m s)[li.offset + i]? = some v := by
  have hpts := List.forall₂_iff_get.1 (@packIslandInputs_points U g ins slots hf.length_eq)
  obtain ⟨hklt, rfl⟩ := List.getElem?_eq_some_iff.1 hk
  obtain ⟨hslt, rfl⟩ := List.getElem?_eq_some_iff.1 hs
  have hk' : k < (packIslandInputs ins slots g).ins.length := by rw [← hpts.1]; exact hklt
  have hpoints : Points (packIslandInputs ins slots g).slots.length ins[k]
    (packIslandInputs ins slots g).ins[k] := hpts.2 k hklt hk'
  obtain ⟨⟨hreg, hlen⟩, j, hj, hin⟩ := hpoints
  have hfit : Fits g ins[k] slots[k] := (List.forall₂_iff_get.1 hf).2 k hklt hslt
  refine ⟨_, j, _, List.getElem?_eq_getElem hk', hreg, hlen, hin, List.getElem?_eq_getElem hj,
    fun i hi => ?_⟩
  have hwindow : (windows (b.read m) ins slots)[k]? =
      some (ins[k].reg, (b.read m slots[k]).window ins[k].offset ins[k].len) := by
    simp [windows, hklt, hslt]
  rw [← hseeds, getElem?_seeds, List.getElem?_eq_getElem hk', Option.map_some] at hwindow
  have hvalues := congrArg Prod.snd (Option.some.inj hwindow)
  simp only [LiveIn.values, hin, Option.getD_some, hlen] at hvalues
  rw [List.getD_eq_getElem?_getD, List.getElem?_map, List.getElem?_eq_getElem hj, Option.map_some,
    Option.getD_some] at hvalues
  have hsource : ins[k].offset + i < (b.read m slots[k]).length := by
    rw [(hb.of_extends (packIslandInputs_extends ins slots g)).length_read hfit.1]
    have := hfit.2
    omega
  have hentry := congrArg (fun l => l[i]?) hvalues
  simp only [List.getElem?_window hi] at hentry
  exact ⟨_, hentry.trans (List.getElem?_eq_getElem hsource), List.getElem?_eq_getElem hsource⟩

end Pack

end Lowering

end Stanli
