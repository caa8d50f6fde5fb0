import Mathlib.Algebra.Order.Group.Multiset
import Stanli.Lib.Interleaving

/-!
# The executor pool

`ExecutorPool` lends clones of an executor for one evaluation each.  A thread without an autodiff stack gets a
tape with its first lease, which its leases share; the last of them gives it back, emptied.  The sections under
the lock are the steps of `Step`; the rest of a thread's code touches what is its own.

In every interleaving a clone is in the free list or in exactly one lease, a tape is in the free list or is
installed in exactly one thread, and a thread that holds a lease has a stack (`Reaches.wellLeased`).
-/

namespace Stanli

namespace ExecutorPool

open Interleaving Function

variable {Θ : Type}

/-! ## The pool -/

inductive Stage
  | acquiring
  | held
  | releasing
  deriving DecidableEq

/-- A lease, from the first step of `acquire` to the last of the destructor, with the thread it belongs to.
One that was moved from has neither an executor nor a tape. -/
structure Lease (Θ : Type) where
  thread : Θ
  stage : Stage
  ex : Option ℕ
  tape : Option ℕ

/-- `ChainableStack::instance_` of a thread. -/
inductive Stack
  | null
  /-- The stack a thread came with. -/
  | own
  | pooled (tape : ℕ)
  deriving DecidableEq

/-- Executors and tapes are numbered as they are made. -/
structure Pool (Θ : Type) where
  clones : ℕ
  free : List ℕ
  tapes : ℕ
  freeTapes : List ℕ
  /-- `Tape::leases` of each tape, and whether its storage holds anything. -/
  users : ℕ → ℕ
  dirty : ℕ → Bool
  /-- `Tape::current()` of each thread. -/
  current : Θ → Option ℕ
  stack : Θ → Stack
  leases : Multiset (Lease Θ)

/-- Some threads come with a stack of their own. -/
def Pool.start (own : Θ → Bool) : Pool Θ where
  clones := 0
  free := []
  tapes := 0
  freeTapes := []
  users := fun _ => 0
  dirty := fun _ => false
  current := fun _ => none
  stack := fun θ => if own θ then .own else .null
  leases := 0

namespace Pool

variable (s : Pool Θ)

/-- The thread is not within `acquire` or a destructor. -/
def Idle (θ : Θ) : Prop := ∀ l ∈ s.leases, l.thread = θ → l.stage = .held

variable [DecidableEq Θ]

/-- The tape becomes the stack of the thread, with the lease of an executor as its first. -/
def install (θ : Θ) (e τ : ℕ) (rest : Multiset (Lease Θ)) : Pool Θ :=
  { s with
    users := update s.users τ (s.users τ + 1)
    current := update s.current θ (some τ)
    stack := update s.stack θ (.pooled τ)
    leases := ⟨θ, .held, some e, some τ⟩ ::ₘ rest }

/-- A step of a thread. -/
inductive Step (θ : Θ) : Pool Θ → Prop
  /-- `acquire` takes an executor off the free list, or makes one. -/
  | pop {e : ℕ} {es : List ℕ} (hidle : s.Idle θ) (h : s.free = es ++ [e]) :
      Step θ { s with free := es, leases := ⟨θ, .acquiring, some e, none⟩ ::ₘ s.leases }
  | miss (hidle : s.Idle θ) (h : s.free = []) :
      Step θ { s with leases := ⟨θ, .acquiring, none, none⟩ ::ₘ s.leases }
  | clone {rest : Multiset (Lease Θ)} (h : s.leases = ⟨θ, .acquiring, none, none⟩ ::ₘ rest) :
      Step θ
        { s with clones := s.clones + 1, leases := ⟨θ, .acquiring, some s.clones, none⟩ ::ₘ rest }
  /-- The constructor of `Lease`, by the stack of the thread. -/
  | share {e τ : ℕ} {rest : Multiset (Lease Θ)} (h : s.leases = ⟨θ, .acquiring, some e, none⟩ ::ₘ rest)
      (hcur : s.current θ = some τ) :
      Step θ
        { s with
          users := update s.users τ (s.users τ + 1)
          leases := ⟨θ, .held, some e, some τ⟩ ::ₘ rest }
  | own {e : ℕ} {rest : Multiset (Lease Θ)} (h : s.leases = ⟨θ, .acquiring, some e, none⟩ ::ₘ rest)
      (hcur : s.current θ = none) (hstack : s.stack θ ≠ .null) :
      Step θ { s with leases := ⟨θ, .held, some e, none⟩ ::ₘ rest }
  | takeTape {e τ : ℕ} {ts : List ℕ} {rest : Multiset (Lease Θ)}
      (h : s.leases = ⟨θ, .acquiring, some e, none⟩ ::ₘ rest) (hcur : s.current θ = none)
      (hstack : s.stack θ = .null) (hts : s.freeTapes = ts ++ [τ]) :
      Step θ (install { s with freeTapes := ts } θ e τ rest)
  | newTape {e : ℕ} {rest : Multiset (Lease Θ)} (h : s.leases = ⟨θ, .acquiring, some e, none⟩ ::ₘ rest)
      (hcur : s.current θ = none) (hstack : s.stack θ = .null) (hts : s.freeTapes = []) :
      Step θ (install { s with tapes := s.tapes + 1 } θ e s.tapes rest)
  | evaluate {l : Lease Θ} {τ : ℕ} (hl : l ∈ s.leases) (hθ : l.thread = θ) (hheld : l.stage = .held)
      (hstack : s.stack θ = .pooled τ) : Step θ { s with dirty := update s.dirty τ true }
  | move {ex tape : Option ℕ} {rest : Multiset (Lease Θ)} (h : s.leases = ⟨θ, .held, ex, tape⟩ ::ₘ rest) :
      Step θ { s with leases := ⟨θ, .held, none, none⟩ ::ₘ ⟨θ, .held, ex, tape⟩ ::ₘ rest }
  /-- The destructor of `Lease`. -/
  | giveBack {ex tape : Option ℕ} {rest : Multiset (Lease Θ)} (hidle : s.Idle θ)
      (h : s.leases = ⟨θ, .held, ex, tape⟩ ::ₘ rest) :
      Step θ { s with free := s.free ++ ex.toList, leases := ⟨θ, .releasing, none, tape⟩ ::ₘ rest }
  | drop {rest : Multiset (Lease Θ)} (h : s.leases = ⟨θ, .releasing, none, none⟩ ::ₘ rest) :
      Step θ { s with leases := rest }
  | unshare {τ : ℕ} {rest : Multiset (Lease Θ)} (h : s.leases = ⟨θ, .releasing, none, some τ⟩ ::ₘ rest)
      (hu : s.users τ - 1 ≠ 0) :
      Step θ { s with users := update s.users τ (s.users τ - 1), leases := rest }
  | giveBackTape {τ : ℕ} {rest : Multiset (Lease Θ)}
      (h : s.leases = ⟨θ, .releasing, none, some τ⟩ ::ₘ rest) (hu : s.users τ - 1 = 0) :
      Step θ
        { s with
          freeTapes := s.freeTapes ++ [τ]
          users := update s.users τ (s.users τ - 1)
          dirty := update s.dirty τ false
          current := update s.current θ none
          stack := update s.stack θ .null
          leases := rest }

/-- The states the pool reaches. -/
def Reaches (own : Θ → Bool) (s : Pool Θ) : Prop :=
  Runs (fun s (_ : Option Empty) s' => ∃ θ, Step s θ s') (start own) s []

/-! ## Executors -/

variable {s} {s' : Pool Θ} {θ : Θ} {own : Θ → Bool}

/-- A clone is in the free list or in one lease. -/
def Placed (s : Pool Θ) : Prop := (s.free : Multiset ℕ) + s.leases.filterMap Lease.ex = Multiset.range s.clones

lemma Placed.step (h : s.Placed) (hs : s.Step θ s') : s'.Placed := by
  unfold Placed at h ⊢
  cases hs with
  | pop _ hfree =>
    rw [hfree] at h
    simpa [Multiset.filterMap_cons, ← Multiset.coe_add, add_assoc] using h
  | miss => simpa [Multiset.filterMap_cons] using h
  | clone hl =>
    rw [hl] at h
    rw [Multiset.range_succ, ← h]
    simp
  | @giveBack ex _ _ _ hl =>
    rw [hl] at h
    cases ex <;> simpa [Multiset.filterMap_cons, ← Multiset.coe_add, add_assoc] using h
  | evaluate => exact h
  | share hl | own hl | takeTape hl | newTape hl | move hl | drop hl | unshare hl | giveBackTape hl =>
    rw [hl] at h
    simpa [install, Multiset.filterMap_cons] using h

/-! ## Tapes -/

/-- The tapes of leases, with the threads of these. -/
def borrowed (leases : Multiset (Lease Θ)) : Multiset (Θ × ℕ) :=
  leases.filterMap fun l => l.tape.map (l.thread, ·)

/-- What the tapes of the leases, the free tapes and the stacks of the threads have to do with one another. -/
structure Taped (own : Θ → Bool) (s : Pool Θ) : Prop where
  users : ∀ τ, s.users τ = (borrowed s.leases).countP (·.2 = τ)
  current : ∀ θ τ, s.current θ = some τ ↔ (θ, τ) ∈ borrowed s.leases
  apart : ∀ θ θ' τ, s.current θ = some τ → s.current θ' = some τ → θ = θ'
  nodup : s.freeTapes.Nodup
  free : ∀ τ, τ ∈ s.freeTapes ↔ τ < s.tapes ∧ ∀ θ, s.current θ ≠ some τ
  bound : ∀ θ τ, s.current θ = some τ → τ < s.tapes
  clean : ∀ τ ∈ s.freeTapes, s.dirty τ = false
  stack : ∀ θ, s.stack θ = (s.current θ).elim (if own θ then .own else .null) .pooled
  without : ∀ θ, own θ = true → s.current θ = none

omit [DecidableEq Θ] in
/-- Steps that leave the tapes where they are. -/
lemma Taped.congr (h : s.Taped own) {leases : Multiset (Lease Θ)} {clones : ℕ} {free : List ℕ}
    (hb : borrowed leases = borrowed s.leases) :
    Taped own { s with clones := clones, free := free, leases := leases } :=
  ⟨fun τ => (h.users τ).trans (by rw [hb]), fun θ τ => (h.current θ τ).trans (by rw [hb]), h.apart, h.nodup,
    h.free, h.bound, h.clean, h.stack, h.without⟩

/-- A thread without a stack gets a tape that no thread has. -/
lemma Taped.install (h : s.Taped own) {e τ tapes : ℕ} {freeTapes : List ℕ} {rest : Multiset (Lease Θ)}
    (hl : s.leases = ⟨θ, .acquiring, some e, none⟩ ::ₘ rest) (hcur : s.current θ = none)
    (hstack : s.stack θ = .null) (hτ : ∀ θ, s.current θ ≠ some τ) (hle : s.tapes ≤ tapes) (hlt : τ < tapes)
    (hnew : ∀ σ < tapes, σ = τ ∨ σ < s.tapes) (hnodup : freeTapes.Nodup)
    (hfree : ∀ σ, σ ∈ freeTapes ↔ σ ≠ τ ∧ σ ∈ s.freeTapes) :
    Taped own (Pool.install { s with tapes := tapes, freeTapes := freeTapes } θ e τ rest) := by
  have hb : borrowed (⟨θ, .held, some e, some τ⟩ ::ₘ rest) = (θ, τ) ::ₘ borrowed s.leases := by
    simp [borrowed, hl]
  refine ⟨fun σ => ?_, fun η σ => ?_, fun η η' σ => ?_, hnodup, fun σ => ?_, fun η σ => ?_,
    fun σ hσ => h.clean σ ((hfree σ).1 hσ).2, fun η => ?_, fun η hη => ?_⟩
  · have := h.users σ
    simp only [Pool.install, hb, Multiset.countP_cons, update_apply]
    grind
  · have := h.current η σ
    simp only [Pool.install, hb, Multiset.mem_cons, update_apply]
    grind
  · have := h.apart η η' σ
    simp only [Pool.install, update_apply]
    grind
  · have := h.free σ
    simp only [Pool.install, update_apply]
    grind
  · have := h.bound η σ
    simp only [Pool.install, update_apply]
    grind
  · have := h.stack η
    simp only [Pool.install, update_apply]
    grind
  · have := h.stack θ
    have := h.without η hη
    simp only [Pool.install, update_apply]
    grind

lemma Taped.step (h : s.Taped own) (hs : s.Step θ s') : s'.Taped own := by
  cases hs with
  | pop | miss => exact h.congr (by simp [borrowed])
  | clone hl | own hl | move hl | giveBack _ hl | drop hl =>
    exact h.congr (by simp [borrowed, hl, Multiset.filterMap_cons])
  | @share e τ rest hl hcur =>
    have hb : borrowed (⟨θ, .held, some e, some τ⟩ ::ₘ rest) = (θ, τ) ::ₘ borrowed s.leases := by
      simp [borrowed, hl]
    refine ⟨fun σ => ?_, fun η σ => ?_, h.apart, h.nodup, h.free, h.bound, h.clean, h.stack, h.without⟩
    · have := h.users σ
      simp only [hb, Multiset.countP_cons, update_apply]
      grind
    · have := h.current η σ
      simp only [hb, Multiset.mem_cons]
      grind
  | @takeTape e τ ts rest hl hcur hstack hts =>
    obtain ⟨hlt, hτ⟩ := (h.free τ).1 (by simp [hts])
    have hnodup := h.nodup
    rw [hts, List.nodup_append] at hnodup
    refine h.install hl hcur hstack hτ le_rfl hlt (fun σ hσ => .inr hσ) hnodup.1 fun σ => ?_
    rw [hts]
    grind
  | @newTape e rest hl hcur hstack hts =>
    refine h.install hl hcur hstack (fun η hη => ?_) (Nat.le_succ _) (Nat.lt_succ_self _) (fun σ hσ => ?_) h.nodup
      fun σ => ?_
    · exact lt_irrefl _ (h.bound η _ hη)
    · omega
    · simp [hts]
  | @evaluate l τ hl hθ hheld hstack =>
    have hcur : s.current θ = some τ := by
      have := h.stack θ
      cases hc : s.current θ <;> grind
    refine ⟨h.users, h.current, h.apart, h.nodup, h.free, h.bound, fun σ hσ => ?_, h.stack, h.without⟩
    have hne : σ ≠ τ := fun he => ((h.free σ).1 hσ).2 θ (he ▸ hcur)
    simp only [update_of_ne hne, h.clean σ hσ]
  | @unshare τ rest hl hu =>
    have hb : borrowed s.leases = (θ, τ) ::ₘ borrowed rest := by simp [borrowed, hl]
    have hcount := h.users τ
    have hmem : (θ, τ) ∈ borrowed rest := by
      -- another lease has the tape, and it belongs to the same thread
      simp only [hb, Multiset.countP_cons, if_true] at hcount
      obtain ⟨⟨η, σ⟩, hp, rfl⟩ := Multiset.countP_pos.1 (by omega : 0 < (borrowed rest).countP (·.2 = τ))
      have hη := (h.current η σ).2 (hb ▸ Multiset.mem_cons_of_mem hp)
      rwa [h.apart θ η σ ((h.current θ σ).2 (hb ▸ Multiset.mem_cons_self ..)) hη]
    refine ⟨fun σ => ?_, fun η σ => ?_, h.apart, h.nodup, h.free, h.bound, h.clean, h.stack, h.without⟩
    · have := h.users σ
      simp only [hb, Multiset.countP_cons, update_apply] at this ⊢
      grind
    · have := h.current η σ
      simp only [hb, Multiset.mem_cons] at this
      grind
  | @giveBackTape τ rest hl hu =>
    have hb : borrowed s.leases = (θ, τ) ::ₘ borrowed rest := by simp [borrowed, hl]
    have hcur : s.current θ = some τ := (h.current θ τ).2 (hb ▸ Multiset.mem_cons_self ..)
    have hcount := h.users τ
    simp only [hb, Multiset.countP_cons, if_true] at hcount
    have hnone := Multiset.countP_eq_zero.1 (by omega : (borrowed rest).countP (·.2 = τ) = 0)
    refine ⟨fun σ => ?_, fun η σ => ?_, fun η η' σ => ?_, ?_, fun σ => ?_, fun η σ => ?_, fun σ => ?_,
      fun η => ?_, fun η hη => ?_⟩
    · have := h.users σ
      simp only [hb, Multiset.countP_cons, update_apply] at this ⊢
      grind
    · have := h.current η σ
      have := hnone (η, σ)
      simp only [hb, Multiset.mem_cons, update_apply] at *
      grind
    · have := h.apart η η' σ
      simp only [update_apply]
      grind
    · have := (h.free τ).1
      have := h.nodup
      rw [List.nodup_append]
      grind
    · have hothers : (∀ η, update s.current θ none η ≠ some σ) ↔ σ = τ ∨ ∀ η, s.current η ≠ some σ := by
        have := h.apart θ
        simp only [update_apply]
        grind
      have := h.free σ
      have := h.bound θ τ hcur
      simp only [List.mem_append, List.mem_singleton, hothers]
      grind
    · have := h.bound η σ
      simp only [update_apply]
      grind
    · have := h.clean σ
      simp only [List.mem_append, List.mem_singleton, update_apply]
      grind
    · have := h.stack η
      have := h.without θ
      simp only [update_apply]
      grind
    · have := h.without η hη
      simp only [update_apply]
      grind

/-! ## Leases -/

/-- A lease with an executor has a tape, if its thread has no stack of its own. -/
def Equipped (own : Θ → Bool) (s : Pool Θ) : Prop :=
  ∀ l ∈ s.leases, l.stage = .held → l.ex ≠ none → l.tape = none → own l.thread = true

lemma Equipped.step (h : s.Equipped own) (ht : s.Taped own) (hs : s.Step θ s') : s'.Equipped own := by
  unfold Equipped at h ⊢
  cases hs with
  | evaluate => exact h
  | pop | miss => simpa using h
  | own hl hcur hstack =>
    have hown := ht.stack θ
    rw [hl] at h
    simp only [Multiset.mem_cons, forall_eq_or_imp] at h ⊢
    refine ⟨fun _ _ _ => ?_, h.2⟩
    grind
  | clone hl | share hl | takeTape hl | newTape hl | move hl | giveBack _ hl | drop hl | unshare hl
  | giveBackTape hl =>
    rw [hl] at h
    simp only [install, Multiset.mem_cons, forall_eq_or_imp] at h ⊢
    grind

/-- What `ExecutorPool` promises. -/
structure Sound (own : Θ → Bool) (s : Pool Θ) : Prop where
  placed : s.Placed
  /-- An executor is lent with a stack to evaluate on. -/
  stack : ∀ l ∈ s.leases, l.stage = .held → l.ex ≠ none → s.stack l.thread ≠ .null
  tape : ∀ l ∈ s.leases, ∀ τ, l.tape = some τ → s.stack l.thread = .pooled τ
  /-- A thread without leases has the stack it came with. -/
  restored : ∀ θ, (∀ l ∈ s.leases, l.thread ≠ θ) → s.stack θ = if own θ then .own else .null
  /-- A tape is in the free list, or it is the stack of one thread. -/
  tapes : ∀ τ < s.tapes, τ ∈ s.freeTapes ↔ ∀ θ, s.stack θ ≠ .pooled τ
  apart : ∀ θ θ' τ, s.stack θ = .pooled τ → s.stack θ' = .pooled τ → θ = θ'
  nodup : s.freeTapes.Nodup
  clean : ∀ τ ∈ s.freeTapes, s.dirty τ = false

/-- In every interleaving. -/
theorem Reaches.wellLeased (h : Reaches own s) : s.Sound own := by
  have hinv : s.Placed ∧ s.Taped own ∧ s.Equipped own := by
    refine h.invariant (I := fun s _ => s.Placed ∧ s.Taped own ∧ s.Equipped own) ⟨?_, ?_, ?_⟩ ?_
    · simp [Placed, start]
    · constructor <;> simp [start, borrowed]
    · simp [Equipped, start]
    · rintro s l s' - ⟨hp, ht, he⟩ ⟨θ, hs⟩
      exact ⟨hp.step hs, ht.step hs, he.step ht hs⟩
  obtain ⟨hp, ht, he⟩ := hinv
  have hpooled : ∀ θ τ, s.stack θ = .pooled τ ↔ s.current θ = some τ := fun θ τ => by
    have := ht.stack θ
    cases hc : s.current θ <;> grind
  have htape : ∀ l ∈ s.leases, ∀ τ, l.tape = some τ → s.stack l.thread = .pooled τ := fun l hl τ hτ => by
    rw [hpooled, ht.current]
    exact (Multiset.mem_filterMap _ _).2 ⟨l, hl, by rw [hτ]; rfl⟩
  refine ⟨hp, fun l hl hheld hex => ?_, htape, fun θ hθ => ?_, fun τ hτ => ?_, fun θ θ' τ => ?_, ht.nodup,
    ht.clean⟩
  · cases hτ : l.tape with
    | some τ => simp [htape l hl τ hτ]
    | none =>
      have hown := he l hl hheld hex hτ
      simp [ht.stack, ht.without _ hown, hown]
  · have hcur : s.current θ = none := Option.eq_none_iff_forall_ne_some.2 fun τ hτ => by
      rw [ht.current] at hτ
      obtain ⟨l, hl, heq⟩ := (Multiset.mem_filterMap _ _).1 hτ
      obtain ⟨τ, -, hpair⟩ := Option.map_eq_some_iff.1 heq
      exact hθ l hl (Prod.mk.inj hpair).1
    rw [ht.stack, hcur]
    rfl
  · simp only [ht.free, hτ, hpooled, true_and, ne_eq]
  · rw [hpooled, hpooled]
    exact ht.apart θ θ' τ

/-- Two threads acquire leases at the same time and get a tape each, which the second lease of one of them
shares. -/
theorem Reaches.wellLeased_twoThreads : ∃ s : Pool Bool,
    s.leases = {⟨true, .held, some 2, some 0⟩, ⟨false, .held, some 1, some 1⟩,
      ⟨true, .held, some 0, some 0⟩} ∧ s.Sound fun _ => false := by
  have h : Reaches (fun _ => false) (start fun _ => false : Pool Bool) := .start
  have h := h.silent ⟨true, .miss (by simp [Idle, start]) rfl⟩
  have h := h.silent ⟨true, @Step.clone _ _ _ _ 0 rfl⟩
  have h := h.silent ⟨false, .miss (by simp [Idle, start]) rfl⟩
  have h := h.silent ⟨false, @Step.clone _ _ _ _ {⟨true, .acquiring, some 0, none⟩} rfl⟩
  have hswap := Multiset.cons_swap (Lease.mk false .acquiring (some 1) none) (.mk true .acquiring (some 0) none) 0
  have h := h.silent ⟨true, @Step.newTape _ _ _ _ 0 _ hswap rfl rfl rfl⟩
  have hswap := Multiset.cons_swap (Lease.mk true .held (some 0) (some 0)) (.mk false .acquiring (some 1) none) 0
  have h := h.silent ⟨false, @Step.newTape _ _ _ _ 1 _ hswap rfl rfl rfl⟩
  have h := h.silent ⟨true, .miss (by simp [Idle, install, start]) rfl⟩
  have h := h.silent ⟨true,
    @Step.clone _ _ _ _ {⟨false, .held, some 1, some 1⟩, ⟨true, .held, some 0, some 0⟩} rfl⟩
  have h := h.silent ⟨true,
    @Step.share _ _ _ _ _ _ {⟨false, .held, some 1, some 1⟩, ⟨true, .held, some 0, some 0⟩} rfl rfl⟩
  exact ⟨_, rfl, Reaches.wellLeased h⟩

end Pool

end ExecutorPool

end Stanli
