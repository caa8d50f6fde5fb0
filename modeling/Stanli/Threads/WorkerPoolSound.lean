import Mathlib.Algebra.Order.BigOperators.Group.Finset
import Stanli.Threads.WorkerPool

/-!
# The worker pool is a loop

Between two calls every worker rests at the latest generation (`Resting`).  While a call runs, its jobs are
shared out and `remaining_` counts the workers that are not yet through with it (`Working`).  So in every
interleaving a call runs each of its jobs exactly once, is over only when all workers rest again, and throws
what the first of its jobs throws: the calls that are over are equivalent to loops that ran one after the
other (`Reaches.serially`).  A worker is never asleep with work to do (`Worker.Holds`), so a call that is
running can always go on (`Reaches.completes`).
-/

namespace Stanli

namespace WorkerPool

open Interleaving Function

variable {C D E : Type} {W : ℕ}

/-! ## Workers and the generation -/

section

variable (g : UInt64)

/-- At rest, with nothing to do. -/
def Worker.Rests : Worker → Prop
  | wait seen => seen = g
  | asleep seen => seen = g
  | consume _ _ => False
  | done _ => False

/-- A worker of the current generation, or of the one before and not yet begun. -/
def Worker.Fits : Worker → Prop
  | wait seen => seen = g ∨ seen + 1 = g
  | asleep seen => seen = g ∨ seen + 1 = g
  | consume seen _ => seen = g
  | done seen => seen = g

/-- Through with the jobs. -/
def Worker.IsOut : Worker → Prop
  | wait seen => seen = g
  | asleep seen => seen = g
  | consume _ _ => False
  | done _ => True

/-- What holds of a worker while a call runs.  `out` says that the counter has passed the jobs, `announced`
that the workers are still to be woken. -/
structure Worker.Holds (out announced : Prop) (w : Worker) : Prop where
  fits : w.Fits g
  isOut : w.IsOut g → out
  /-- No worker has missed the announcement. -/
  awake : ∀ seen, w = .asleep seen → seen = g ∨ announced

/-- Whether `remaining_` still counts the worker. -/
def Worker.owes : Worker → ℕ
  | wait seen => if seen = g then 0 else 1
  | asleep seen => if seen = g then 0 else 1
  | consume _ _ => 1
  | done _ => 1

end

lemma ne_add_one (g : UInt64) : g ≠ g + 1 := by
  intro h
  have := congrArg UInt64.toNat h
  rw [UInt64.toNat_add] at this
  have := g.toNat_lt
  simp only [UInt64.reduceToNat] at *
  omega

lemma Worker.Fits.rests {g : UInt64} {w : Worker} (h : w.Fits g) (hw : w.owes g = 0) : w.Rests g := by
  cases w with
  | wait seen | asleep seen =>
    by_contra hne
    simp [owes, show seen ≠ g from hne] at hw
  | consume seen stage => cases hw
  | done seen => cases hw

lemma Worker.Rests.held {g : UInt64} {w : Worker} (h : w.Rests g) : w.held = none := by
  cases w with
  | consume seen stage => exact h.elim
  | wait seen | asleep seen | done seen => rfl

/-- A worker at rest when a call is published. -/
lemma Worker.Rests.next {g : UInt64} {w : Worker} (h : w.Rests g) :
    w.Fits (g + 1) ∧ w.owes (g + 1) = 1 ∧ ¬w.IsOut (g + 1) := by
  cases w with
  | wait seen | asleep seen =>
    obtain rfl : seen = g := h
    exact ⟨.inr rfl, if_neg (ne_add_one seen), ne_add_one seen⟩
  | consume seen stage => exact h.elim
  | done seen => exact h.elim

@[simp] lemma Worker.held_wake (w : Worker) : w.wake.held = w.held := by cases w <;> rfl

@[simp] lemma Worker.owes_wake (g : UInt64) (w : Worker) : w.wake.owes g = w.owes g := by cases w <;> rfl

@[simp] lemma Worker.fits_wake {g : UInt64} {w : Worker} : w.wake.Fits g ↔ w.Fits g := by cases w <;> rfl

@[simp] lemma Worker.isOut_wake {g : UInt64} {w : Worker} : w.wake.IsOut g ↔ w.IsOut g := by cases w <;> rfl

lemma Worker.wake_ne_asleep {w : Worker} {seen : UInt64} : w.wake ≠ .asleep seen := by
  cases w <;> simp [wake]

@[simp] lemma Caller.held_wake (c : Caller D E) : c.wake.held = c.held := by cases c <;> rfl

/-- Through with the jobs. -/
def Caller.IsOut : Caller D E → Prop
  | wait _ => True
  | asleep _ => True
  | leave _ => True
  | _ => False

/-- Behind the publication of the call. -/
def Caller.Runs (call : Call D E) : Caller D E → Prop
  | notify a => a = call
  | consume a _ => a = call
  | wait a => a = call
  | asleep a => a = call
  | leave a => a = call
  | _ => False

@[simp] lemma Caller.isOut_wake {c : Caller D E} : c.wake.IsOut ↔ c.IsOut := by cases c <;> rfl

@[simp] lemma Caller.runs_wake {c : Caller D E} {call : Call D E} : c.wake.Runs call ↔ c.Runs call := by
  cases c <;> rfl

lemma Caller.wake_ne_asleep {c : Caller D E} {call : Call D E} : c.wake ≠ .asleep call := by
  cases c <;> simp [wake]

lemma Caller.wake_eq_leave {c : Caller D E} {call : Call D E} : c.wake = .leave call ↔ c = .leave call := by
  cases c <;> simp [wake]

/-! ## Jobs -/

namespace Pool

variable {s s' : Pool C D E W} {c : C} {call : Call D E} {job : C ⊕ Fin W → Option ℕ}

/-- What the jobs of the call have done so far. -/
structure Jobs (call : Call D E) (job : C ⊕ Fin W → Option ℕ) (s : Pool C D E W) : Prop where
  jobs : s.jobs = call.count
  work : s.work = call.work
  share : ShareOut s.jobs s.next job s.ran
  length : s.errors.length = s.jobs
  errors : ∀ i < s.jobs, s.errors[i]? = some (if i ∈ s.ran then (s.work i (s.before i)).2 else none)
  children : ∀ i, s.children i = if i ∈ s.ran then (s.work i (s.before i)).1 else s.before i

/-- A job is run by the thread that has it. -/
lemma Jobs.run [DecidableEq C] (h : Jobs call job s) {t : C ⊕ Fin W} {i : ℕ} (ht : job t = some i) :
    Jobs call (update job t none) (s.runJob i) := by
  obtain ⟨hi, -, hran⟩ := h.share.held_lt t i ht
  have hdata : s.children i = s.before i := by rw [h.children, if_neg hran]
  have hlen : (s.runJob i).errors.length = s.jobs := by
    simp only [runJob]
    split
    · rw [List.length_set, h.length]
    · exact h.length
  refine ⟨h.jobs, h.work, h.share.finish ht, hlen, fun k hk => ?_, fun k => ?_⟩
  · obtain rfl | hne := eq_or_ne k i
    · have hmem : k ∈ (s.runJob k).ran := List.mem_cons_self
      rw [if_pos hmem]
      simp only [runJob, hdata]
      split
      · next e he => rw [List.getElem?_set_self (h.length ▸ hi), he]
      · next he => rw [h.errors k hi, if_neg hran, he]
    · have hmem : k ∈ (s.runJob i).ran ↔ k ∈ s.ran := by simp [runJob, hne]
      simp only [hmem]
      simp only [runJob]
      split
      · rw [List.getElem?_set_ne hne.symm, h.errors k hk]
      · exact h.errors k hk
  · obtain rfl | hne := eq_or_ne k i
    · have hmem : k ∈ (s.runJob k).ran := List.mem_cons_self
      rw [if_pos hmem]
      simp only [runJob, update_self, hdata]
    · have hmem : k ∈ (s.runJob i).ran ↔ k ∈ s.ran := by simp [runJob, hne]
      simp only [hmem]
      simp only [runJob, update_of_ne hne, h.children k]

/-- When no thread has a job any more, the call has had its effect. -/
lemma Jobs.over (h : Jobs call job s) (hheld : ∀ t, job t = none) (hnext : s.jobs ≤ s.next) :
    s.children = call.effect s.before ∧ s.errors.findSome? id = call.thrown s.before ∧
      s.ran.Perm (List.range call.count) := by
  have hmem : ∀ i, i ∈ s.ran ↔ i < s.jobs := fun i => h.share.mem_of_released hheld hnext
  refine ⟨funext fun i => ?_, ?_, h.jobs ▸ h.share.perm_range hheld hnext⟩
  · simp only [h.children i, hmem, Call.effect, h.jobs, h.work]
  · have herr : s.errors = (List.range call.count).map fun i => (call.work i (s.before i)).2 := by
      refine List.ext_getElem? fun i => ?_
      by_cases hi : i < s.jobs
      · rw [h.errors i hi, if_pos ((hmem i).2 hi), List.getElem?_map,
          List.getElem?_range (h.jobs ▸ hi), h.work]
        rfl
      · rw [List.getElem?_eq_none (h.length ▸ not_lt.1 hi), List.getElem?_eq_none (by simp; rw [← h.jobs]; omega)]
    rw [herr, List.findSome?_map]
    rfl

/-- A thread takes a job. -/
lemma Jobs.take [DecidableEq C] (h : Jobs call job s) {t : C ⊕ Fin W} (ht : job t = none)
    (hnext : s.next < s.jobs) : Jobs call (update job t (some s.next)) { s with next := s.next + 1 } :=
  ⟨h.jobs, h.work, h.share.take ht hnext, h.length, h.errors, h.children⟩

lemma Jobs.miss (h : Jobs call job s) (hnext : s.jobs ≤ s.next) : Jobs call job { s with next := s.next + 1 } :=
  ⟨h.jobs, h.work, h.share.miss hnext, h.length, h.errors, h.children⟩

lemma held_caller [DecidableEq C] (s : Pool C D E W) (c : C) (x : Caller D E) :
    held { s with callers := update s.callers c x } = update s.held (.inl c) x.held := by
  funext t
  obtain a | w := t
  · obtain rfl | hne := eq_or_ne a c
    · simp [held]
    · simp [held, hne]
  · simp [held]

lemma held_worker [DecidableEq C] (s : Pool C D E W) (w : Fin W) (x : Worker) :
    held { s with workers := update s.workers w x } = update s.held (.inr w) x.held := by
  funext t
  obtain a | v := t
  · simp [held]
  · obtain rfl | hne := eq_or_ne v w
    · simp [held]
    · simp [held, hne]

lemma update_held [DecidableEq C] {t : C ⊕ Fin W} {o : Option ℕ} (h : s.held t = o) :
    update s.held t o = s.held := by
  rw [← h, update_eq_self]

/-- Threads move on with the jobs they have then. -/
lemma Jobs.moved (h : Jobs call job s) {callers : C → Caller D E} {workers : Fin W → Worker} {remaining : ℕ}
    (hheld : held { s with callers := callers, workers := workers } = job) :
    Jobs call (held { s with callers := callers, workers := workers })
      { s with remaining := remaining, callers := callers, workers := workers } := by
  rw [hheld]
  exact ⟨h.jobs, h.work, h.share, h.length, h.errors, h.children⟩

lemma Jobs.caller [DecidableEq C] (h : Jobs call job s) {x : Caller D E}
    (hjob : update s.held (.inl c) x.held = job) :
    Jobs call (held { s with callers := update s.callers c x }) { s with callers := update s.callers c x } :=
  h.moved ((held_caller s c x).trans hjob)

lemma Jobs.worker [DecidableEq C] (h : Jobs call job s) {w : Fin W} {x : Worker}
    (hjob : update s.held (.inr w) x.held = job) :
    Jobs call (held { s with workers := update s.workers w x }) { s with workers := update s.workers w x } :=
  h.moved ((held_worker s w x).trans hjob)

/-! ## A call that is running -/

variable (s) in
/-- Every worker rests. -/
def Resting : Prop := ∀ w, (s.workers w).Rests s.generation

variable (s c call) in
/-- The call of the thread is running. -/
structure Working : Prop where
  jobs : Jobs call s.held s
  workers : ∀ w, (s.workers w).Holds s.generation (s.jobs ≤ s.next) (s.callers c = .notify call)
  remaining : s.remaining = ∑ w, (s.workers w).owes s.generation
  callerOut : (s.callers c).IsOut → s.jobs ≤ s.next
  callerAwake : s.callers c = .asleep call → s.remaining ≠ 0
  leave : s.callers c = .leave call → s.remaining = 0

lemma Resting.held (h : s.Resting) (hc : ∀ a, (s.callers a).held = none) (t : C ⊕ Fin W) : s.held t = none := by
  obtain a | w := t
  · exact hc a
  · exact (h w).held

lemma Working.resting (h : s.Working c call) (hrem : s.remaining = 0) : s.Resting := by
  rw [h.remaining, Finset.sum_eq_zero_iff] at hrem
  exact fun w => (h.workers w).fits.rests (hrem w (Finset.mem_univ w))

/-- One worker moves on. -/
lemma Working.worker (h : s.Working c call) {w : Fin W} {x : Worker} (hjobs : Jobs call s'.held s')
    (hcallers : s'.callers = s.callers) (hworkers : s'.workers = update s.workers w x)
    (hgen : s'.generation = s.generation) (hrem : s'.remaining = s.remaining) (hcount : s'.jobs = s.jobs)
    (hnext : s.next ≤ s'.next) (howes : x.owes s.generation = (s.workers w).owes s.generation)
    (hx : x.Holds s.generation (s'.jobs ≤ s'.next) (s.callers c = .notify call)) : s'.Working c call := by
  have hout : s.jobs ≤ s.next → s'.jobs ≤ s'.next := fun hle => (hcount ▸ hle).trans hnext
  refine ⟨hjobs, ?_, ?_, ?_, ?_, ?_⟩
  · rw [hworkers, hgen, hcallers]
    exact forall_update hx fun v =>
      ⟨(h.workers v).fits, fun hv => hout ((h.workers v).isOut hv), (h.workers v).awake⟩
  · have hsum := sum_update_add s.workers w x fun y => y.owes s.generation
    rw [hrem, h.remaining, hgen, hworkers]
    omega
  · exact hcallers ▸ fun hc => hout (h.callerOut hc)
  · exact hcallers ▸ hrem ▸ h.callerAwake
  · exact hcallers ▸ hrem ▸ h.leave

variable [DecidableEq C]

/-- The calling thread moves on. -/
lemma Working.caller (h : s.Working c call) {y : Caller D E} (hjobs : Jobs call s'.held s')
    (hcallers : s'.callers = update s.callers c y) (hworkers : s'.workers = s.workers)
    (hgen : s'.generation = s.generation) (hrem : s'.remaining = s.remaining) (hcount : s'.jobs = s.jobs)
    (hnext : s.next ≤ s'.next) (hnotify : s.callers c ≠ .notify call) (hout : y.IsOut → s'.jobs ≤ s'.next)
    (hasleep : y = .asleep call → s.remaining ≠ 0) (hleave : y = .leave call → s.remaining = 0) :
    s'.Working c call := by
  have hc : s'.callers c = y := by rw [hcallers, update_self]
  refine ⟨hjobs, fun v => ?_, ?_, fun h' => hout (hc ▸ h'), fun h' => hrem ▸ hasleep (hc ▸ h'),
    fun h' => hrem ▸ hleave (hc ▸ h')⟩
  · rw [hgen, hworkers]
    exact ⟨(h.workers v).fits, fun hv => (hcount ▸ (h.workers v).isOut hv).trans hnext,
      fun seen hv => .inl (((h.workers v).awake seen hv).resolve_right hnotify)⟩
  · rw [hrem, h.remaining, hgen, hworkers]

/-! ## The steps -/

omit [DecidableEq C] in
lemma Resting.set (h : s.Resting) {w : Fin W} {x : Worker} (hx : x.Rests s.generation) :
    Resting { s with workers := update s.workers w x } := by
  intro v
  obtain rfl | hne := eq_or_ne v w
  · simpa using hx
  · simpa [hne] using h v

omit [DecidableEq C] in
lemma Resting.workerStep {w : Fin W} (h : s.Resting) (hs : s.WorkerStep w s') :
    s'.Resting ∧ ∃ workers, s' = { s with workers := workers } := by
  have hw := h w
  cases hs with
  | sleep hwait hseen => exact ⟨h.set hseen.symm, _, rfl⟩
  | begin hwait hseen =>
    rw [hwait] at hw
    exact absurd hw.symm hseen
  | take hc | miss hc | work hc | count hc =>
    rw [hc] at hw
    exact hw.elim

/-- A worker's step while the call of a thread is running. -/
lemma Working.workerStep {w : Fin W} (h : s.Working c call) (hs : s.WorkerStep w s') :
    s'.Working c call := by
  have hx := h.workers w
  cases hs with
  | @sleep seen hw hseen =>
    have hheld : s.held (.inr w) = none := congrArg Worker.held hw
    rw [hw] at hx
    refine h.worker (h.jobs.worker (update_held hheld)) rfl rfl rfl rfl rfl le_rfl (by rw [hw]; rfl)
      ⟨hx.fits, hx.isOut, ?_⟩
    rintro seen ⟨⟩
    exact .inl hseen.symm
  | @begin seen hw hseen =>
    have hheld : s.held (.inr w) = none := congrArg Worker.held hw
    refine h.worker (h.jobs.worker (update_held hheld)) rfl rfl rfl rfl rfl le_rfl ?_ ⟨rfl, nofun, nofun⟩
    rw [hw]
    exact (if_neg hseen.symm).symm
  | @take seen hw hnext =>
    have hheld : s.held (.inr w) = none := congrArg Worker.held hw
    rw [hw] at hx
    exact h.worker ((h.jobs.take hheld hnext).worker rfl) rfl rfl rfl rfl rfl (Nat.le_succ _) (by rw [hw]; rfl)
      ⟨hx.fits, nofun, nofun⟩
  | @miss seen hw hnext =>
    have hheld : s.held (.inr w) = none := congrArg Worker.held hw
    rw [hw] at hx
    exact h.worker ((h.jobs.miss hnext).worker (update_held hheld)) rfl rfl rfl rfl rfl (Nat.le_succ _)
      (by rw [hw]; rfl) ⟨hx.fits, fun _ => Nat.le_succ_of_le hnext, nofun⟩
  | @work seen i hw =>
    have hheld : s.held (.inr w) = some i := congrArg Worker.held hw
    rw [hw] at hx
    exact h.worker ((h.jobs.run hheld).worker rfl) rfl rfl rfl rfl rfl le_rfl (by rw [hw]; rfl)
      ⟨hx.fits, nofun, nofun⟩
  | @count seen hw =>
    have hheld : s.held (.inr w) = none := congrArg Worker.held hw
    rw [hw] at hx
    obtain rfl : seen = s.generation := hx.fits
    have hsum := sum_update_add s.workers w (.wait s.generation) fun y => y.owes s.generation
    rw [hw, ← h.remaining] at hsum
    have hzero : (Worker.wait s.generation).owes s.generation = 0 := if_pos rfl
    have hone : (Worker.done s.generation).owes s.generation = 1 := rfl
    refine ⟨?_, forall_update ⟨.inl rfl, fun _ => hx.isOut trivial, nofun⟩ fun v => ?_, ?_,
      fun hc => h.callerOut (Caller.isOut_wake.1 hc), fun hc => absurd hc Caller.wake_ne_asleep, fun hc => ?_⟩
    · refine h.jobs.moved (Eq.trans ?_ ((held_worker s w (.wait s.generation)).trans (update_held hheld)))
      simp [held]
    · exact ⟨(h.workers v).fits, (h.workers v).isOut, fun seen hv =>
        ((h.workers v).awake seen hv).imp_right fun hc => by simp only [hc, Caller.wake]⟩
    · simp only at hsum ⊢
      omega
    · have hleave := h.leave (Caller.wake_eq_leave.1 hc)
      simp only [hleave]

omit [DecidableEq C] in
lemma WorkerStep.same {w : Fin W} (hs : s.WorkerStep w s') :
    s'.busy = s.busy ∧ s'.before = s.before ∧
      (s'.callers = s.callers ∨ s'.callers = fun a => (s.callers a).wake) := by
  cases hs with
  | count _ => exact ⟨rfl, rfl, .inr rfl⟩
  | _ => exact ⟨rfl, rfl, .inl rfl⟩

/-- A call that is published finds the workers at rest. -/
lemma Working.publish (h : s.Resting) (hc : s.callers c = .publish call) (hjobs : s.jobs = call.count)
    (hwork : s.work = call.work) (herrors : s.errors = List.replicate call.count none)
    (hout : ∀ a ≠ c, s.callers a = .outside) :
    Working { s with
      next := 0
      remaining := W
      generation := s.generation + 1
      callers := update s.callers c (.notify call)
      before := s.children
      ran := [] } c call := by
  have hnone : ∀ t, held { s with callers := update s.callers c (.notify call) } t = none := by
    refine Resting.held (s := { s with callers := update s.callers c (.notify call) }) h fun a => ?_
    obtain rfl | hne := eq_or_ne a c
    · simp [Caller.held]
    · simp [hne, hout a hne, Caller.held]
  refine ⟨⟨hjobs, hwork, ShareOut.start hnone, ?_, fun i hi => ?_, fun i => rfl⟩,
    fun w => ⟨(h w).next.1, fun hw => absurd hw (h w).next.2.2, fun seen _ => .inr (update_self ..)⟩, ?_,
    fun hc => ?_, fun hc => ?_, fun hc => ?_⟩
  · simp only [herrors, List.length_replicate, hjobs]
  · simp only [herrors, List.getElem?_replicate, List.not_mem_nil, if_false]
    rw [if_pos (hjobs ▸ hi)]
  · simp only
    rw [Finset.sum_congr rfl fun w _ => (h w).next.2.1]
    simp
  all_goals simp [Caller.IsOut] at hc

/-- The workers are woken. -/
lemma Working.notify (h : s.Working c call) (hc : s.callers c = .notify call) :
    Working { s with
      callers := update s.callers c (.consume call .take)
      workers := fun w => (s.workers w).wake } c call := by
  have hheld : s.held (.inl c) = none := congrArg Caller.held hc
  refine ⟨h.jobs.moved (Eq.trans ?_ ((held_caller s c (.consume call .take)).trans (update_held hheld))),
    fun w => ⟨Worker.fits_wake.2 (h.workers w).fits, fun hw => (h.workers w).isOut (Worker.isOut_wake.1 hw),
      fun seen hw => absurd hw Worker.wake_ne_asleep⟩, ?_, fun hc => ?_, fun hc => ?_, fun hc => ?_⟩
  · simp [held]
  · simpa using h.remaining
  all_goals simp [Caller.IsOut] at hc

/-- The step of the thread whose call is running: the call goes on, or is over. -/
lemma Working.callerStep {l : Option (Call D E × Option E)} (h : s.Working c call)
    (hc : (s.callers c).Runs call) (hs : s.CallerStep c l s') :
    (l = none ∧ s'.Working c call ∧ s'.busy = s.busy ∧ s'.before = s.before ∧
      ∃ x : Caller D E, s'.callers = update s.callers c x ∧ x.Runs call) ∨
    s.callers c = .leave call ∧ l = some (call, s.errors.findSome? id) ∧
      s' = { s with busy := false, callers := update s.callers c .outside } := by
  cases hs with
  | enter _ hat | refuse hat | prepare hat | publish hat =>
    rw [hat] at hc
    exact hc.elim
  | @notify call' hat =>
    obtain rfl : call' = call := by rwa [hat] at hc
    exact .inl ⟨rfl, h.notify hat, rfl, rfl, _, rfl, rfl⟩
  | @take call' hat hnext =>
    obtain rfl : call' = call := by rwa [hat] at hc
    have hheld : s.held (.inl c) = none := congrArg Caller.held hat
    refine .inl ⟨rfl, ?_, rfl, rfl, _, rfl, rfl⟩
    exact h.caller ((h.jobs.take hheld hnext).caller rfl) rfl rfl rfl rfl rfl (Nat.le_succ _)
      (by simp [hat]) nofun nofun nofun
  | @miss call' hat hnext =>
    obtain rfl : call' = call := by rwa [hat] at hc
    have hheld : s.held (.inl c) = none := congrArg Caller.held hat
    refine .inl ⟨rfl, ?_, rfl, rfl, _, rfl, rfl⟩
    exact h.caller ((h.jobs.miss hnext).caller (update_held hheld)) rfl rfl rfl rfl rfl (Nat.le_succ _)
      (by simp [hat]) (fun _ => Nat.le_succ_of_le hnext) nofun nofun
  | @work call' i hat =>
    obtain rfl : call' = call := by rwa [hat] at hc
    have hheld : s.held (.inl c) = some i := congrArg Caller.held hat
    refine .inl ⟨rfl, ?_, rfl, rfl, _, rfl, rfl⟩
    exact h.caller ((h.jobs.run hheld).caller rfl) rfl rfl rfl rfl rfl le_rfl (by simp [hat]) nofun nofun nofun
  | @sleep call' hat hrem =>
    obtain rfl : call' = call := by rwa [hat] at hc
    have hheld : s.held (.inl c) = none := congrArg Caller.held hat
    refine .inl ⟨rfl, ?_, rfl, rfl, _, rfl, rfl⟩
    exact h.caller (h.jobs.caller (update_held hheld)) rfl rfl rfl rfl rfl le_rfl (by simp [hat])
      (fun _ => h.callerOut (by rw [hat]; trivial)) (fun _ => hrem) nofun
  | @collect call' hat hrem =>
    obtain rfl : call' = call := by rwa [hat] at hc
    have hheld : s.held (.inl c) = none := congrArg Caller.held hat
    refine .inl ⟨rfl, ?_, rfl, rfl, _, rfl, rfl⟩
    exact h.caller (h.jobs.caller (update_held hheld)) rfl rfl rfl rfl rfl le_rfl (by simp [hat])
      (fun _ => h.callerOut (by rw [hat]; trivial)) nofun (fun _ => hrem)
  | @leave call' hat =>
    obtain rfl : call' = call := by rwa [hat] at hc
    exact .inr ⟨hat, rfl, rfl⟩

/-! ## Ends of waits -/

lemma Working.wakeCaller (h : s.Working c call) (hat : s.callers c = .asleep call) :
    Working { s with callers := update s.callers c (.wait call) } c call := by
  have hheld : s.held (.inl c) = none := congrArg Caller.held hat
  exact h.caller (h.jobs.caller (update_held hheld)) rfl rfl rfl rfl rfl le_rfl (by simp [hat])
    (fun _ => h.callerOut (by rw [hat]; trivial)) nofun nofun

lemma Working.wakeWorker (h : s.Working c call) {w : Fin W} {seen : UInt64} (hat : s.workers w = .asleep seen) :
    Working { s with workers := update s.workers w (.wait seen) } c call := by
  have hheld : s.held (.inr w) = none := congrArg Worker.held hat
  have hx := h.workers w
  rw [hat] at hx
  exact h.worker (h.jobs.worker (update_held hheld)) rfl rfl rfl rfl rfl le_rfl (by rw [hat]; rfl)
    ⟨hx.fits, hx.isOut, nofun⟩

omit [DecidableEq C] in
lemma Resting.wakeWorker (h : s.Resting) {w : Fin W} {seen : UInt64} (hat : s.workers w = .asleep seen) :
    Resting { s with workers := update s.workers w (.wait seen) } := by
  have hw := h w
  rw [hat] at hw
  exact h.set hw

/-! ## Runs -/

/-- What holds in every interleaving. -/
inductive Inv (children : ℕ → D) (s : Pool C D E W) (hist : List (Call D E × Option E)) : Prop
  | free (hbusy : s.busy = false) (hout : ∀ a, s.callers a = .outside) (hrest : s.Resting)
      (hser : Serially children hist s.children)
  | entered (c : C) (call : Call D E) (hbusy : s.busy = true) (hout : ∀ a ≠ c, s.callers a = .outside)
      (hc : s.callers c = .prepare call ∨ s.callers c = .publish call ∧ s.jobs = call.count ∧
        s.work = call.work ∧ s.errors = List.replicate call.count none)
      (hrest : s.Resting) (hser : Serially children hist s.children)
  | running (c : C) (call : Call D E) (hbusy : s.busy = true) (hout : ∀ a ≠ c, s.callers a = .outside)
      (hc : (s.callers c).Runs call) (hwork : s.Working c call) (hser : Serially children hist s.before)

variable {children : ℕ → D} {hist : List (Call D E × Option E)}

omit [DecidableEq C] in
lemma inv_start (children : ℕ → D) : Inv children (start children : Pool C D E W) [] :=
  .free rfl (fun _ => rfl) (fun _ => rfl) .nil

/-- A thread that is outside finds the context in use. -/
lemma CallerStep.refused {a : C} {l : Option (Call D E × Option E)} (hs : s.CallerStep a l s')
    (hout : s.callers a = .outside) (hbusy : s.busy = true) : l = none ∧ s' = s := by
  cases hs with
  | enter _ _ h => rw [hbusy] at h; cases h
  | refuse => exact ⟨rfl, rfl⟩
  | _ h => rw [hout] at h; cases h

lemma outside_update {x : Caller D E} (hout : ∀ a ≠ c, s.callers a = .outside) :
    ∀ a ≠ c, update s.callers c x a = .outside :=
  fun a ha => by rw [update_of_ne ha, hout a ha]

lemma Inv.callerStep {a : C} {l : Option (Call D E × Option E)} (h : Inv children s hist)
    (hs : s.CallerStep a l s') : Inv children s' (hist ++ l.toList) := by
  cases h with
  | free hbusy hout hrest hser =>
    cases hs with
    | enter call hat _ =>
      rw [Option.toList_none, List.append_nil]
      exact .entered a call rfl (outside_update fun b _ => hout b) (.inl (update_self ..)) hrest hser
    | refuse _ h => rw [hbusy] at h; cases h
    | _ h => rw [hout] at h; cases h
  | entered c call hbusy hout hc hrest hser =>
    obtain rfl | hne := eq_or_ne a c
    · cases hs with
      | @prepare call' hat =>
        obtain rfl : call' = call := by simpa [hat] using hc
        rw [Option.toList_none, List.append_nil]
        exact .entered a _ hbusy (outside_update hout) (.inr ⟨update_self .., rfl, rfl, rfl⟩) hrest hser
      | @publish call' hat =>
        obtain ⟨rfl, hjobs, hwork, herrors⟩ : call' = call ∧ s.jobs = call.count ∧ s.work = call.work ∧
            s.errors = List.replicate call.count none := by simpa [hat] using hc
        rw [Option.toList_none, List.append_nil]
        exact .running a _ hbusy (outside_update hout) (by simp [Caller.Runs])
          (Working.publish hrest hat hjobs hwork herrors hout) hser
      | enter _ h => simp [h] at hc
      | _ h => simp [h] at hc
    · obtain ⟨rfl, rfl⟩ := hs.refused (hout a hne) hbusy
      rw [Option.toList_none, List.append_nil]
      exact .entered c call hbusy hout hc hrest hser
  | running c call hbusy hout hc hwork hser =>
    obtain rfl | hne := eq_or_ne a c
    · obtain ⟨rfl, hwork', hbusy', hbefore, x, hcallers, hx⟩ | ⟨hat, rfl, rfl⟩ := hwork.callerStep hc hs
      · rw [Option.toList_none, List.append_nil]
        refine .running a call (hbusy'.trans hbusy) ?_ ?_ hwork' (hbefore ▸ hser)
        · rw [hcallers]
          exact outside_update hout
        · rwa [hcallers, update_self]
      · have hrest := hwork.resting (hwork.leave hat)
        have hheld := hrest.held fun b => by
          obtain rfl | hne := eq_or_ne b a
          · rw [hat]; rfl
          · rw [hout b hne]; rfl
        obtain ⟨heffect, hthrown, -⟩ := hwork.jobs.over hheld (hwork.callerOut (by rw [hat]; trivial))
        have hser' := hser.call call
        rw [← heffect, ← hthrown] at hser'
        refine .free rfl (fun b => ?_) hrest hser'
        obtain rfl | hne := eq_or_ne b a
        · exact update_self ..
        · exact outside_update hout b hne
    · obtain ⟨rfl, rfl⟩ := hs.refused (hout a hne) hbusy
      rw [Option.toList_none, List.append_nil]
      exact .running c call hbusy hout hc hwork hser

lemma Inv.workerStep {w : Fin W} (h : Inv children s hist) (hs : s.WorkerStep w s') : Inv children s' hist := by
  cases h with
  | free hbusy hout hrest hser =>
    obtain ⟨hrest', workers, rfl⟩ := hrest.workerStep hs
    exact .free hbusy hout hrest' hser
  | entered c call hbusy hout hc hrest hser =>
    obtain ⟨hrest', workers, rfl⟩ := hrest.workerStep hs
    exact .entered c call hbusy hout hc hrest' hser
  | running c call hbusy hout hc hwork hser =>
    obtain ⟨hbusy', hbefore, hcallers⟩ := hs.same
    refine .running c call (hbusy'.trans hbusy) (fun a ha => ?_) ?_ (hwork.workerStep hs) (hbefore ▸ hser)
    · obtain hcallers | hcallers := hcallers <;> simp [hcallers, hout a ha, Caller.wake]
    · obtain hcallers | hcallers := hcallers <;> simpa [hcallers] using hc

lemma Inv.wakeCaller {a : C} {call : Call D E} (h : Inv children s hist) (hat : s.callers a = .asleep call) :
    Inv children { s with callers := update s.callers a (.wait call) } hist := by
  obtain ⟨-, hout, -, -⟩ | ⟨c, _, -, hout, hc, -, -⟩ | ⟨c, call', hbusy, hout, hc, hwork, hser⟩ := h
  · simp [hout] at hat
  · obtain rfl | hne := eq_or_ne a c
    · simp [hat] at hc
    · simp [hout a hne] at hat
  · obtain rfl | hne := eq_or_ne a c
    · obtain rfl : call = call' := by rwa [hat] at hc
      exact .running a call hbusy (outside_update hout) (by simp [Caller.Runs]) (hwork.wakeCaller hat) hser
    · simp [hout a hne] at hat

omit [DecidableEq C] in
lemma Inv.wakeWorker {w : Fin W} {seen : UInt64} (h : Inv children s hist) (hat : s.workers w = .asleep seen) :
    Inv children { s with workers := update s.workers w (.wait seen) } hist := by
  classical
  obtain ⟨hbusy, hout, hrest, hser⟩ | ⟨c, call, hbusy, hout, hc, hrest, hser⟩ |
    ⟨c, call, hbusy, hout, hc, hwork, hser⟩ := h
  · exact .free hbusy hout (hrest.wakeWorker hat) hser
  · exact .entered c call hbusy hout hc (hrest.wakeWorker hat) hser
  · exact .running c call hbusy hout hc (hwork.wakeWorker hat) hser

lemma inv_of_reaches (h : Reaches children s hist) : Inv children s hist := by
  refine h.invariant (inv_start children) fun s l s' es hinv hs => ?_
  cases hs with
  | thread hs =>
    cases hs with
    | caller hs => exact hinv.callerStep hs
    | worker hs => simpa using hinv.workerStep hs
  | wakeCaller hat => simpa using hinv.wakeCaller hat
  | wakeWorker hat => simpa using hinv.wakeWorker hat

/-! ## Two threads that call twice -/

end Pool

/-- Two jobs, which count their children up; the second one throws. -/
def countUp : Call ℕ ℕ := ⟨2, fun i d => (d + 1, if i = 1 then some i else none)⟩

namespace Pool

/-- The first thread does the job that throws and falls asleep with a worker at the other job; then the
second thread, refused before, calls as well and has its jobs done by the workers. -/
lemma exists_reaches_countUp :
    (∃ s : Pool Bool ℕ ℕ 2, Reaches (fun _ => 0) s [] ∧ s.callers false = .asleep countUp ∧
      s.held (.inr 0) = some 0) ∧
    ∃ t : Pool Bool ℕ ℕ 2, Reaches (fun _ => 0) t [(countUp, some 1), (countUp, some 1)] ∧
      (∀ a, t.callers a = .outside) ∧ t.children 0 = 2 ∧ t.children 1 = 2 := by
  have h : Reaches (fun _ => 0) (start fun _ => 0 : Pool Bool ℕ ℕ 2) [] := .start
  have h := h.silent (.thread (.caller (c := false) (.enter countUp rfl rfl)))
  have h := h.silent (.thread (.caller (c := false) (.prepare rfl)))
  have h := h.silent (.thread (.caller (c := false) (.publish rfl)))
  have h := h.silent (.thread (.worker (w := 0) (.begin rfl (by decide))))
  have h := h.silent (.thread (.worker (w := 0) (.take rfl (by decide))))
  have h := h.silent (.thread (.caller (c := false) (.notify rfl)))
  have h := h.silent (.thread (.caller (c := false) (.take rfl (by decide))))
  have h := h.silent (.thread (.caller (c := true) (.refuse rfl rfl)))
  have h := h.silent (.thread (.caller (c := false) (.work rfl)))
  have h := h.silent (.thread (.caller (c := false) (.miss rfl (by decide))))
  have h := h.silent (.thread (.caller (c := false) (.sleep rfl (by decide))))
  refine ⟨⟨_, h, rfl, rfl⟩, ?_⟩
  have h := h.silent (.thread (.worker (w := 0) (.work rfl)))
  have h := h.silent (.thread (.worker (w := 0) (.miss rfl (by decide))))
  have h := h.silent (.thread (.worker (w := 0) (.count rfl)))
  have h := h.silent (.thread (.worker (w := 1) (.begin rfl (by decide))))
  have h := h.silent (.thread (.worker (w := 1) (.miss rfl (by decide))))
  have h := h.silent (.thread (.worker (w := 1) (.count rfl)))
  have h := h.silent (.thread (.caller (c := false) (.collect rfl rfl)))
  have h := h.step (.thread (.caller (c := false) (.leave rfl)))
  have h := h.silent (.thread (.caller (c := true) (.enter countUp rfl rfl)))
  have h := h.silent (.thread (.caller (c := true) (.prepare rfl)))
  have h := h.silent (.thread (.caller (c := true) (.publish rfl)))
  have h := h.silent (.thread (.caller (c := true) (.notify rfl)))
  have h := h.silent (.thread (.worker (w := 1) (.begin rfl (by decide))))
  have h := h.silent (.thread (.worker (w := 1) (.take rfl (by decide))))
  have h := h.silent (.thread (.worker (w := 0) (.begin rfl (by decide))))
  have h := h.silent (.thread (.worker (w := 0) (.take rfl (by decide))))
  have h := h.silent (.thread (.worker (w := 0) (.work rfl)))
  have h := h.silent (.thread (.worker (w := 1) (.work rfl)))
  have h := h.silent (.thread (.worker (w := 0) (.miss rfl (by decide))))
  have h := h.silent (.thread (.worker (w := 1) (.miss rfl (by decide))))
  have h := h.silent (.thread (.caller (c := true) (.miss rfl (by decide))))
  have h := h.silent (.thread (.worker (w := 1) (.count rfl)))
  have h := h.silent (.thread (.worker (w := 0) (.count rfl)))
  have h := h.silent (.thread (.caller (c := true) (.collect rfl rfl)))
  exact ⟨_, h.step (.thread (.caller (c := true) (.leave rfl))), fun a => by cases a <;> rfl, rfl, rfl⟩

variable {s s' : Pool C D E W} {c : C} {call : Call D E} [DecidableEq C] {children : ℕ → D}
  {hist : List (Call D E × Option E)}

/-! ## The results -/

/-- In every interleaving, the calls that are over have thrown what they throw as loops that run one after
the other, and when no call is under way the children are what these loops leave. -/
theorem Reaches.serially (h : Reaches children s hist) :
    ∃ ds, Serially children hist ds ∧ ((∀ a, s.callers a = .outside) → s.children = ds) := by
  obtain ⟨-, -, -, hser⟩ | ⟨c, call, -, -, hc, -, hser⟩ | ⟨c, call, -, -, hc, -, hser⟩ := inv_of_reaches h
  · exact ⟨_, hser, fun _ => rfl⟩
  · exact ⟨_, hser, fun _ => rfl⟩
  · refine ⟨_, hser, fun hout => ?_⟩
    rw [hout c] at hc
    exact hc.elim

theorem Reaches.serially_countUp : ∃ (s : Pool Bool ℕ ℕ 2) (ds : ℕ → ℕ),
    Serially (fun _ => 0) [(countUp, some 1), (countUp, some 1)] ds ∧ s.children = ds ∧
      s.children 0 = 2 ∧ s.children 1 = 2 := by
  obtain ⟨-, s, h, hout, hfirst, hsecond⟩ := exists_reaches_countUp
  obtain ⟨ds, hser, hds⟩ := Reaches.serially h
  exact ⟨s, ds, hser, hds hout, hfirst, hsecond⟩

/-- At most one thread is in a call, and no two threads are at one job.  While a thread writes its call into
the context, no worker is at the jobs. -/
theorem Reaches.exclusive (h : Reaches children s hist) :
    (∀ a b, s.callers a ≠ .outside → s.callers b ≠ .outside → a = b) ∧
      (∀ t t' i, s.held t = some i → s.held t' = some i → t = t') ∧
      ∀ a call, s.callers a = .prepare call → ∀ w, (s.workers w).Rests s.generation := by
  have halone : ∀ {c}, (∀ a ≠ c, s.callers a = .outside) →
      ∀ a b, s.callers a ≠ .outside → s.callers b ≠ .outside → a = b := by
    intro c hout a b ha hb
    rw [not_imp_comm.1 (hout a) ha, not_imp_comm.1 (hout b) hb]
  obtain ⟨-, hout, hrest, -⟩ | ⟨c, call, -, hout, hc, hrest, -⟩ | ⟨c, call, -, hout, hc, hwork, -⟩ :=
    inv_of_reaches h
  · have hheld : ∀ t, s.held t = none := hrest.held fun a => by rw [hout a]; rfl
    exact ⟨fun a _ ha => absurd (hout a) ha, fun t t' i ht => by simp [hheld t] at ht, fun _ _ _ => hrest⟩
  · have hheld : ∀ t, s.held t = none := hrest.held fun a => by
      obtain rfl | hne := eq_or_ne a c
      · obtain hc | ⟨hc, -⟩ := hc <;> rw [hc] <;> rfl
      · rw [hout a hne]; rfl
    exact ⟨halone hout, fun t t' i ht => by simp [hheld t] at ht, fun _ _ _ => hrest⟩
  · refine ⟨halone hout, hwork.jobs.share.held_inj, fun a call' ha => ?_⟩
    obtain rfl | hne := eq_or_ne a c
    · rw [ha] at hc
      exact hc.elim
    · simp [hout a hne] at ha

theorem Reaches.exclusive_halfway : ∃ s : Pool Bool ℕ ℕ 2,
    s.callers false = .asleep countUp ∧ s.held (.inr 0) = some 0 ∧
      s.callers true = .outside ∧ s.held (.inr 1) ≠ some 0 := by
  obtain ⟨⟨s, h, hat, hheld⟩, -⟩ := exists_reaches_countUp
  have hexclusive := Reaches.exclusive h
  refine ⟨s, hat, hheld, ?_, fun h' => nomatch hexclusive.2.1 _ _ 0 hheld h'⟩
  by_contra hin
  exact nomatch hexclusive.1 false true (by simp [hat]) hin

/-! ## A call can always be completed -/

end Pool

/-- What a calling thread has before it, in a pool of `W` workers. -/
def Caller.rank (W : ℕ) : Caller D E → ℕ
  | outside => 0
  | leave _ => 1
  | asleep _ => 1
  | wait _ => 2
  | consume _ .take => 4
  | consume _ (.work _) => 5
  | notify _ => W + 5
  | publish call => 2 * call.count + 6 * W + 6
  | prepare call => 4 * call.count + 6 * W + 7

/-- What a worker has before it. -/
def Worker.rank (g : UInt64) : Worker → ℕ
  | wait seen => if seen = g then 1 else 5
  | asleep seen => if seen = g then 0 else 5
  | consume _ .take => 4
  | consume _ (.work _) => 5
  | done _ => 3

lemma Worker.rank_wake (g : UInt64) (w : Worker) : w.wake.rank g ≤ w.rank g + 1 := by
  cases w with
  | asleep seen => simp only [wake, rank]; split <;> omega
  | _ => exact Nat.le_succ _

lemma Worker.Rests.rank_next {g : UInt64} {w : Worker} (h : w.Rests g) : w.rank (g + 1) = 5 := by
  cases w with
  | wait seen | asleep seen =>
    obtain rfl : seen = g := h
    exact if_neg (ne_add_one seen)
  | consume seen stage | done seen => exact h.elim

namespace Pool

variable {s : Pool C D E W} {c : C} {call : Call D E}

/-- What is left of the call of a thread. -/
def rank (s : Pool C D E W) (c : C) : ℕ :=
  (s.callers c).rank W + (∑ w, (s.workers w).rank s.generation) + 2 * (s.jobs - s.next)

variable [DecidableEq C]

omit [DecidableEq C] in
/-- A worker that `remaining_` counts can go on while the calling thread sleeps. -/
lemma Working.workerAdvances (h : s.Working c call) (hat : s.callers c = .asleep call) {w : Fin W}
    (howes : (s.workers w).owes s.generation ≠ 0) : ∃ s', s.WorkerStep w s' ∧ s'.rank c < s.rank c := by
  have hsum : ∀ x, (∑ v, (update s.workers w x v).rank s.generation) + (s.workers w).rank s.generation =
      (∑ v, (s.workers v).rank s.generation) + x.rank s.generation :=
    fun x => sum_update_add s.workers w x fun y => y.rank s.generation
  cases hw : s.workers w with
  | wait seen =>
    have hseen : seen ≠ s.generation := by
      rintro rfl
      simp [hw, Worker.owes] at howes
    have hold : (s.workers w).rank s.generation = 5 := by rw [hw]; exact if_neg hseen
    have hnew : (Worker.consume s.generation .take).rank s.generation = 4 := rfl
    refine ⟨_, .begin hw hseen.symm, ?_⟩
    have := hsum (.consume s.generation .take)
    simp only [rank]
    omega
  | asleep seen =>
    obtain rfl | hnotify := (h.workers w).awake seen hw
    · simp [hw, Worker.owes] at howes
    · simp [hat] at hnotify
  | done seen =>
    have hseen : seen = s.generation := by simpa [hw, Worker.Fits] using (h.workers w).fits
    have hold : (s.workers w).rank s.generation = 3 := by rw [hw]; rfl
    have hnew : (Worker.wait seen).rank s.generation = 1 := if_pos hseen
    refine ⟨_, .count hw, ?_⟩
    have := hsum (.wait seen)
    simp only [rank, hat, Caller.wake, Caller.rank]
    omega
  | consume seen stage =>
    cases stage with
    | take =>
      have hold : (s.workers w).rank s.generation = 4 := by rw [hw]; rfl
      by_cases hnext : s.next < s.jobs
      · have hnew : (Worker.consume seen (.work s.next)).rank s.generation = 5 := rfl
        refine ⟨_, .take hw hnext, ?_⟩
        have := hsum (.consume seen (.work s.next))
        simp only [rank]
        omega
      · have hnew : (Worker.done seen).rank s.generation = 3 := rfl
        refine ⟨_, .miss hw (not_lt.1 hnext), ?_⟩
        have := hsum (.done seen)
        simp only [rank]
        omega
    | work i =>
      have hold : (s.workers w).rank s.generation = 5 := by rw [hw]; rfl
      have hnew : (Worker.consume seen .take).rank s.generation = 4 := rfl
      refine ⟨_, .work hw, ?_⟩
      have := hsum (.consume seen .take)
      simp only [rank, runJob]
      omega

lemma Working.advances (h : s.Working c call) (hc : (s.callers c).Runs call) :
    ∃ l s', s.ThreadStep l s' ∧ s'.rank c < s.rank c := by
  cases hat : s.callers c with
  | outside | prepare | publish =>
    rw [hat] at hc
    exact hc.elim
  | notify call' =>
    refine ⟨_, _, .caller (.notify hat), ?_⟩
    have hsum : ∑ w, (s.workers w).wake.rank s.generation ≤ ∑ w, ((s.workers w).rank s.generation + 1) :=
      Finset.sum_le_sum fun w _ => (s.workers w).rank_wake s.generation
    rw [Finset.sum_add_distrib, Finset.sum_const_nat fun _ _ => rfl, Finset.card_univ, Fintype.card_fin,
      mul_one] at hsum
    simp only [rank, hat, update_self, Caller.rank]
    omega
  | consume call' stage =>
    cases stage with
    | take =>
      by_cases hnext : s.next < s.jobs
      · refine ⟨_, _, .caller (.take hat hnext), ?_⟩
        simp only [rank, hat, update_self, Caller.rank]
        omega
      · refine ⟨_, _, .caller (.miss hat (not_lt.1 hnext)), ?_⟩
        simp only [rank, hat, update_self, Caller.rank]
        omega
    | work i =>
      refine ⟨_, _, .caller (.work hat), ?_⟩
      simp only [rank, runJob, hat, update_self, Caller.rank]
      omega
  | wait call' =>
    by_cases hrem : s.remaining = 0
    · refine ⟨_, _, .caller (.collect hat hrem), ?_⟩
      simp only [rank, hat, update_self, Caller.rank]
      omega
    · refine ⟨_, _, .caller (.sleep hat hrem), ?_⟩
      simp only [rank, hat, update_self, Caller.rank]
      omega
  | asleep call' =>
    obtain rfl : call' = call := by rwa [hat] at hc
    have hrem := h.callerAwake hat
    rw [h.remaining] at hrem
    obtain ⟨w, -, hw⟩ := Finset.exists_ne_zero_of_sum_ne_zero hrem
    obtain ⟨s', hs, hlt⟩ := h.workerAdvances hat hw
    exact ⟨none, s', .worker hs, hlt⟩
  | leave call' =>
    refine ⟨_, _, .caller (.leave hat), ?_⟩
    simp only [rank, hat, update_self, Caller.rank]
    omega

lemma Inv.advances {children : ℕ → D} {hist : List (Call D E × Option E)} (h : Inv children s hist)
    (hc : s.callers c ≠ .outside) : ∃ l s', s.ThreadStep l s' ∧ s'.rank c < s.rank c := by
  obtain ⟨-, hout, -, -⟩ | ⟨a, call, -, hout, ha, hrest, -⟩ | ⟨a, call, -, hout, ha, hwork, -⟩ := h
  · exact absurd (hout c) hc
  · obtain rfl : c = a := not_imp_comm.1 (hout c) hc
    obtain hat | ⟨hat, hjobs, -⟩ := ha
    · refine ⟨_, _, .caller (.prepare hat), ?_⟩
      simp only [rank, hat, update_self, Caller.rank]
      omega
    · refine ⟨_, _, .caller (.publish hat), ?_⟩
      have hsum : ∑ w, (s.workers w).rank (s.generation + 1) = Finset.univ.card * 5 :=
        Finset.sum_const_nat fun w _ => (hrest w).rank_next
      rw [Finset.card_univ, Fintype.card_fin] at hsum
      simp only [rank, hat, hjobs, update_self, Caller.rank]
      omega
  · obtain rfl : c = a := not_imp_comm.1 (hout c) hc
    exact hwork.advances ha

/-- In every interleaving, a call can be completed by steps of the threads alone: no thread waits for a
wake-up that has been missed. -/
theorem Reaches.completes {children : ℕ → D} {hist : List (Call D E × Option E)}
    (h : Reaches children s hist) (c : C) :
    ∃ t rest, Runs ThreadStep s t rest ∧ t.callers c = .outside := by
  refine Runs.exists_of_rank (I := fun s => ∃ hist, Reaches children s hist) (r := fun s => s.rank c)
    ?_ ⟨hist, h⟩
  rintro s ⟨hist, h⟩ hc
  obtain ⟨l, s', hs, hlt⟩ := (inv_of_reaches h).advances hc
  exact ⟨l, s', hs, ⟨_, h.step (.thread hs)⟩, hlt⟩

theorem Reaches.completes_halfway : ∃ s : Pool Bool ℕ ℕ 2, s.callers false = .asleep countUp ∧
    ∃ t rest, Runs ThreadStep s t rest ∧ t.callers false = .outside := by
  obtain ⟨⟨s, h, hat, -⟩, -⟩ := exists_reaches_countUp
  exact ⟨s, hat, Reaches.completes h false⟩

end Pool

end WorkerPool

end Stanli
