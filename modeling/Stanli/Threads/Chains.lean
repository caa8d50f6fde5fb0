import Mathlib.Algebra.BigOperators.Fin
import Stanli.Lib.Interleaving

/-!
# Sampling several chains

`run_nuts_chains` hands the chains out to worker threads through a counter.  The workers queue progress
events, and the calling thread takes them off the queue and passes them to the observer, until the queue is
empty and no worker is left.  A stop, once it has been asked for, is seen by each chain before its next
transition.

In every interleaving each chain is run once, and its outcome is the one it has on its own, up to where a stop
has cut it off; of its events none is lost, repeated or moved (`Reaches.finished`).
-/

namespace Stanli

namespace Chains

open Interleaving Function

variable {Q E : Type} {T : ℕ}

/-! ## One chain -/

/-- What a chain does: the `warmup` and `samples` transitions of its own sampler, each of which may throw. -/
structure Config (Q E : Type) where
  warmup : ℕ
  samples : ℕ
  refresh : ℤ
  init : ℕ → Except E Q
  transition : ℕ → Q → Except E Q

/-- A progress event: the chain, the transition of the phase and the phase. -/
structure ProgressEvent where
  chain : ℕ
  i : ℕ
  warmup : Bool
  deriving DecidableEq

namespace Config

variable (cfg : Config Q E)

def total : ℕ := cfg.warmup + cfg.samples

def shouldReportProgress (i : ℕ) (warmup : Bool) : Bool :=
  if cfg.refresh ≤ 0 then false
  else
    let completed : ℤ := i + 1
    let phaseTotal : ℤ := if warmup then cfg.warmup else cfg.samples
    completed == 1 || completed == phaseTotal || completed % cfg.refresh == 0

def progressEvent (c k : ℕ) : ProgressEvent :=
  if k < cfg.warmup then ⟨c, k, true⟩ else ⟨c, k - cfg.warmup, false⟩

/-- The event of transition `k`, if it has one. -/
def event (c k : ℕ) : Option ProgressEvent :=
  let e := cfg.progressEvent c k
  if cfg.shouldReportProgress e.i e.warmup then some e else none

/-- The events of the first transitions of a chain. -/
def events (c n : ℕ) : List ProgressEvent := (List.range n).filterMap (cfg.event c)

/-- The chain on its own, from its `k`-th transition on: how many transitions it completes, and its result. -/
def soloFrom (c : ℕ) : ℕ → ℕ → Q → ℕ × Except E Q
  | 0, k, q => (k, .ok q)
  | n + 1, k, q =>
    match cfg.transition c q with
    | .ok q => soloFrom c n (k + 1) q
    | .error e => (k, .error e)

def solo (c : ℕ) : ℕ × Except E Q :=
  match cfg.init c with
  | .ok q => cfg.soloFrom c cfg.total 0 q
  | .error e => (0, .error e)

/-- After `k` transitions on its own the chain is in this state. -/
def At (c k : ℕ) (q : Q) : Prop := k ≤ cfg.total ∧ cfg.solo c = cfg.soloFrom c (cfg.total - k) k q

/-- The outcome of the chain on its own; if there was a stop, it may be cut off. -/
def Outcome (stop : Bool) (c : ℕ) (o : ℕ × Except E Q) : Prop :=
  o = cfg.solo c ∨ stop = true ∧ ∃ q, o.2 = .ok q ∧ cfg.At c o.1 q

end Config

/-! ## The threads -/

/-- Where a worker is.  A chain is about to look at `stop`, at its transition, or about to queue the event. -/
inductive Worker (Q : Type)
  | take
  | start (c : ℕ)
  | poll (c k : ℕ) (q : Q)
  | move (c k : ℕ) (q : Q)
  | push (c k : ℕ) (q : Q) (e : ProgressEvent)
  | leave
  | gone

/-- The chain a worker has, with the transitions whose events are queued. -/
def Worker.chain : Worker Q → Option (ℕ × ℕ)
  | start c => some (c, 0)
  | poll c k _ => some (c, k)
  | move c k _ => some (c, k)
  | push c k _ _ => some (c, k)
  | _ => none

def Worker.held (w : Worker Q) : Option ℕ := w.chain.map Prod.fst

/-- Whether `live_workers` counts the worker. -/
def Worker.alive : Worker Q → ℕ
  | gone => 0
  | _ => 1

/-- Where the calling thread is. -/
inductive Caller
  | drain
  | deliver (e : ProgressEvent)
  | finished

def Caller.event : Caller → List ProgressEvent
  | deliver e => [e]
  | _ => []

/-- What the threads share. There is at least one worker. -/
structure State (Q E : Type) (T : ℕ) where
  next : ℕ
  liveWorkers : ℕ
  stop : Bool
  progressEvents : List ProgressEvent
  progressError : Bool
  workers : Fin (T + 1) → Worker Q
  caller : Caller
  out : ℕ → Option (ℕ × Except E Q)
  /-- The calls of the observer. -/
  delivered : List ProgressEvent
  /-- History: all events in the order of the queue, those that came behind an exception of the observer, and
  the chains that are over. -/
  pushed : List ProgressEvent
  dropped : List ProgressEvent
  done : List ℕ

def State.start : State Q E T where
  next := 0
  liveWorkers := T + 1
  stop := false
  progressEvents := []
  progressError := false
  workers := fun _ => .take
  caller := .drain
  out := fun _ => none
  delivered := []
  pushed := []
  dropped := []
  done := []

namespace State

variable (s : State Q E T)

def held (w : Fin (T + 1)) : Option ℕ := (s.workers w).held

/-- The chain of a worker is over. -/
def finish (w : Fin (T + 1)) (c : ℕ) (o : ℕ × Except E Q) : State Q E T :=
  { s with out := update s.out c (some o), done := c :: s.done, workers := update s.workers w .take }

variable (cfg : Config Q E) (n : ℕ)

/-- A step of a worker, with `n` chains. -/
inductive WorkerStep (w : Fin (T + 1)) : State Q E T → Prop
  | take (h : s.workers w = .take) (hnext : s.next < n) :
      WorkerStep w { s with next := s.next + 1, workers := update s.workers w (.start s.next) }
  | miss (h : s.workers w = .take) (hnext : n ≤ s.next) :
      WorkerStep w { s with next := s.next + 1, workers := update s.workers w .leave }
  | start {c : ℕ} {q : Q} (h : s.workers w = .start c) (hq : cfg.init c = .ok q) :
      WorkerStep w { s with workers := update s.workers w (.poll c 0 q) }
  | startError {c : ℕ} {e : E} (h : s.workers w = .start c) (he : cfg.init c = .error e) :
      WorkerStep w (s.finish w c (0, .error e))
  | poll {c k : ℕ} {q : Q} (h : s.workers w = .poll c k q) (hk : k < cfg.total) (hstop : s.stop = false) :
      WorkerStep w { s with workers := update s.workers w (.move c k q) }
  | interrupt {c k : ℕ} {q : Q} (h : s.workers w = .poll c k q) (hk : k < cfg.total) (hstop : s.stop = true) :
      WorkerStep w (s.finish w c (k, .ok q))
  | complete {c k : ℕ} {q : Q} (h : s.workers w = .poll c k q) (hk : k = cfg.total) :
      WorkerStep w (s.finish w c (k, .ok q))
  | quiet {c k : ℕ} {q q' : Q} (h : s.workers w = .move c k q) (hq : cfg.transition c q = .ok q')
      (he : cfg.event c k = none) :
      WorkerStep w { s with workers := update s.workers w (.poll c (k + 1) q') }
  | report {c k : ℕ} {q q' : Q} {e : ProgressEvent} (h : s.workers w = .move c k q)
      (hq : cfg.transition c q = .ok q') (he : cfg.event c k = some e) :
      WorkerStep w { s with workers := update s.workers w (.push c k q' e) }
  | moveError {c k : ℕ} {q : Q} {e : E} (h : s.workers w = .move c k q) (he : cfg.transition c q = .error e) :
      WorkerStep w (s.finish w c (k, .error e))
  | push {c k : ℕ} {q : Q} {e : ProgressEvent} (h : s.workers w = .push c k q e) :
      WorkerStep w
        { s with
          progressEvents := s.progressEvents ++ [e]
          pushed := s.pushed ++ [e]
          workers := update s.workers w (.poll c (k + 1) q) }
  | leave (h : s.workers w = .leave) :
      WorkerStep w { s with liveWorkers := s.liveWorkers - 1, workers := update s.workers w .gone }

/-- A step of the calling thread.  A stop may be asked for at any time, and the observer may throw. -/
inductive CallerStep : State Q E T → Prop
  | poll : CallerStep { s with stop := true }
  | pop {e : ProgressEvent} {es : List ProgressEvent} (h : s.caller = .drain)
      (hes : s.progressEvents = e :: es) : CallerStep { s with progressEvents := es, caller := .deliver e }
  | deliver {e : ProgressEvent} (h : s.caller = .deliver e) (herr : s.progressError = false) (throws : Bool) :
      CallerStep
        { s with delivered := s.delivered ++ [e], progressError := throws, caller := .drain }
  | drop {e : ProgressEvent} (h : s.caller = .deliver e) (herr : s.progressError = true) :
      CallerStep { s with dropped := s.dropped ++ [e], caller := .drain }
  | finish (h : s.caller = .drain) (hes : s.progressEvents = []) (hlive : s.liveWorkers = 0) :
      CallerStep { s with caller := .finished }

inductive Step : Option Empty → State Q E T → Prop
  | worker {w : Fin (T + 1)} {s' : State Q E T} (h : s.WorkerStep cfg n w s') : Step none s'
  | caller {s' : State Q E T} (h : s.CallerStep s') : Step none s'

/-- The states that a run with `n` chains reaches. -/
def Reaches (s : State Q E T) : Prop := Runs (fun s => Step s cfg n) start s []

end State

/-! ## The chain on its own -/

namespace Config

variable {cfg : Config Q E} {c k : ℕ} {q q' : Q}

lemma At.start (h : cfg.init c = .ok q) : cfg.At c 0 q := ⟨Nat.zero_le _, by rw [solo, h, Nat.sub_zero]⟩

lemma At.next (h : cfg.At c k q) (hk : k < cfg.total) (hq : cfg.transition c q = .ok q') :
    cfg.At c (k + 1) q' := by
  refine ⟨hk, ?_⟩
  rw [h.2, show cfg.total - k = cfg.total - (k + 1) + 1 by omega, soloFrom, hq]

lemma At.error {e : E} (h : cfg.At c k q) (hk : k < cfg.total) (he : cfg.transition c q = .error e) :
    cfg.solo c = (k, .error e) := by
  rw [h.2, show cfg.total - k = cfg.total - (k + 1) + 1 by omega, soloFrom, he]

lemma At.complete (h : cfg.At c k q) (hk : k = cfg.total) : cfg.solo c = (k, .ok q) := by
  rw [h.2, hk, Nat.sub_self, soloFrom]

lemma Outcome.mono {stop : Bool} {o : ℕ × Except E Q} (h : cfg.Outcome stop c o) : cfg.Outcome true c o :=
  h.imp_right fun h => ⟨rfl, h.2⟩

lemma events_succ (c k : ℕ) : cfg.events c (k + 1) = cfg.events c k ++ (cfg.event c k).toList := by
  rw [events, List.range_succ, List.filterMap_append]
  rfl

lemma chain_of_event {e : ProgressEvent} (h : cfg.event c k = some e) : e.chain = c := by
  have he : cfg.progressEvent c k = e := (Option.ite_none_right_eq_some.1 h).2 |> Option.some.inj
  rw [← he, progressEvent]
  split <;> rfl

end Config

/-! ## Every interleaving -/

/-- The state of the chain that a worker has. -/
def Worker.Fits (cfg : Config Q E) : Worker Q → Prop
  | poll c k q => cfg.At c k q
  | move c k q => k < cfg.total ∧ cfg.At c k q
  | push c k q e => cfg.At c (k + 1) q ∧ cfg.event c k = some e
  | _ => True

/-- Whether the worker has found no more chains. -/
def Worker.IsOut : Worker Q → Prop
  | leave => True
  | gone => True
  | _ => False

namespace State

variable {s s' : State Q E T} {cfg : Config Q E} {n : ℕ}

/-- The events of a chain that have been queued. -/
def eventsOf (s : State Q E T) (c : ℕ) : List ProgressEvent := s.pushed.filter fun e => e.chain = c

/-- What holds of a worker, with the counter and the events of each chain that have been queued. -/
structure Holds (cfg : Config Q E) (n next : ℕ) (queued : ℕ → List ProgressEvent) (x : Worker Q) : Prop where
  isOut : x.IsOut → n ≤ next
  fits : x.Fits cfg
  events : ∀ c k, x.chain = some (c, k) → queued c = cfg.events c k

/-- What holds in every interleaving. -/
structure Inv (cfg : Config Q E) (n : ℕ) (s : State Q E T) : Prop where
  share : ShareOut n s.next s.held s.done
  live : s.liveWorkers = ∑ w, (s.workers w).alive
  holds : ∀ w, Holds cfg n s.next s.eventsOf (s.workers w)
  outcome : ∀ c ∈ s.done, ∃ o, s.out c = some o ∧ cfg.Outcome s.stop c o ∧ s.eventsOf c = cfg.events c o.1
  fresh : ∀ c, s.next ≤ c → s.eventsOf c = []
  queue : s.pushed = s.delivered ++ s.dropped ++ s.caller.event ++ s.progressEvents
  dropped : s.progressError = false → s.dropped = []
  finished : s.caller = .finished → s.liveWorkers = 0 ∧ s.progressEvents = []

lemma inv_start (cfg : Config Q E) (n : ℕ) : Inv cfg n (start : State Q E T) where
  share := ShareOut.start fun _ => rfl
  live := by simp [start, Worker.alive]
  holds := fun _ => ⟨nofun, trivial, nofun⟩
  outcome := nofun
  fresh := fun _ _ => rfl
  queue := rfl
  dropped := fun _ => rfl
  finished := nofun

lemma held_update (s : State Q E T) (w : Fin (T + 1)) (x : Worker Q) :
    held { s with workers := update s.workers w x } = update s.held w x.held := by
  funext v
  obtain rfl | hne := eq_or_ne v w
  · simp [held]
  · simp [held, hne]

lemma update_held {w : Fin (T + 1)} {o : Option ℕ} (ho : s.held w = o) : update s.held w o = s.held := by
  rw [← ho, update_eq_self]

lemma sum_alive_update {w : Fin (T + 1)} {x : Worker Q} (hx : x.alive = (s.workers w).alive) :
    ∑ v, (update s.workers w x v).alive = ∑ v, (s.workers v).alive := by
  have := sum_update_add s.workers w x Worker.alive
  omega

/-- A worker moves on. -/
lemma Inv.worker (h : Inv cfg n s) {w : Fin (T + 1)} {x : Worker Q} {next live : ℕ}
    (hshare : ShareOut n next (update s.held w x.held) s.done) (hnext : s.next ≤ next)
    (hlive : live + (s.workers w).alive = s.liveWorkers + x.alive) (hle : live ≤ s.liveWorkers)
    (hx : Holds cfg n next s.eventsOf x) :
    Inv cfg n { s with next := next, liveWorkers := live, workers := update s.workers w x } where
  share := by
    rwa [← held_update] at hshare
  live := by
    have := sum_update_add s.workers w x Worker.alive
    have := h.live
    simp only
    omega
  holds := forall_update (P := Holds cfg n next s.eventsOf) hx fun v =>
    ⟨fun hv => ((h.holds v).isOut hv).trans hnext, (h.holds v).fits, (h.holds v).events⟩
  outcome := h.outcome
  fresh := fun c hc => h.fresh c (hnext.trans hc)
  queue := h.queue
  dropped := h.dropped
  finished := fun hf => ⟨Nat.le_zero.1 ((h.finished hf).1 ▸ hle), (h.finished hf).2⟩

/-- A worker goes on with its chain. -/
lemma Inv.goOn (h : Inv cfg n s) {w : Fin (T + 1)} {x : Worker Q} (hheld : (s.workers w).held = x.held)
    (halive : (s.workers w).alive = x.alive) (hx : Holds cfg n s.next s.eventsOf x) :
    Inv cfg n { s with workers := update s.workers w x } :=
  h.worker ((update_held hheld).symm ▸ h.share) le_rfl (congrArg _ halive) le_rfl hx

/-- The chain of a worker is over. -/
lemma Inv.finish (h : Inv cfg n s) {w : Fin (T + 1)} {c : ℕ} {o : ℕ × Except E Q}
    (hat : (s.workers w).chain = some (c, o.1)) (halive : (s.workers w).alive = 1)
    (ho : cfg.Outcome s.stop c o) : Inv cfg n (s.finish w c o) := by
  have hheld : s.held w = some c := by rw [held, Worker.held, hat]; rfl
  refine ⟨?_, h.live.trans (sum_alive_update (x := .take) halive.symm).symm,
    forall_update (P := Holds cfg n s.next s.eventsOf) ⟨nofun, trivial, nofun⟩ h.holds, fun a ha => ?_,
    h.fresh, h.queue, h.dropped, h.finished⟩
  · have hshare := h.share.finish hheld
    rwa [← show held (s.finish w c o) = update s.held w none from held_update s w .take] at hshare
  · obtain rfl | hne := eq_or_ne a c
    · exact ⟨o, update_self .., ho, (h.holds w).events a o.1 hat⟩
    · obtain ⟨o', ho', hrest⟩ := h.outcome a ((List.mem_cons.1 ha).resolve_left hne)
      exact ⟨o', (update_of_ne hne ..).trans ho', hrest⟩

/-- A worker queues an event. -/
lemma Inv.push (h : Inv cfg n s) {w : Fin (T + 1)} {c k : ℕ} {q : Q} {e : ProgressEvent}
    (hat : s.workers w = .push c k q e) :
    Inv cfg n { s with
      progressEvents := s.progressEvents ++ [e]
      pushed := s.pushed ++ [e]
      workers := update s.workers w (.poll c (k + 1) q) } := by
  have hw := h.holds w
  rw [hat] at hw
  obtain ⟨hq, he⟩ := hw.fits
  have hchain := Config.chain_of_event he
  have hheld : s.held w = some c := by rw [held, hat]; rfl
  obtain ⟨hc, hnext, hdone⟩ := h.share.held_lt w c hheld
  have hself : (s.pushed ++ [e]).filter (fun e => e.chain = c) = cfg.events c (k + 1) := by
    rw [List.filter_append, Config.events_succ, he]
    have := hw.events c k rfl
    rw [eventsOf] at this
    simp [this, hchain]
  have hother : ∀ a ≠ c, (s.pushed ++ [e]).filter (fun e => e.chain = a) = s.eventsOf a := by
    intro a ha
    rw [List.filter_append, eventsOf]
    simp [hchain, ha.symm]
  refine ⟨?_, h.live.trans (sum_alive_update (by rw [hat]; rfl)).symm, fun v => ?_, fun a ha => ?_,
    fun a ha => ?_, ?_, h.dropped, fun hf => ?_⟩
  · have hshare := h.share
    rwa [← update_held hheld, ← show held { s with workers := update s.workers w (.poll c (k + 1) q) } =
      update s.held w (some c) from held_update s w _] at hshare
  · obtain rfl | hne := eq_or_ne v w
    · simp only [update_self]
      exact ⟨nofun, hq, by rintro a j ⟨⟩; exact hself⟩
    · simp only [update_of_ne hne]
      refine ⟨(h.holds v).isOut, (h.holds v).fits, fun a j hv => ?_⟩
      have hac : a ≠ c := by
        rintro rfl
        exact hne (h.share.held_inj v w a (by rw [held, Worker.held, hv]; rfl) hheld)
      exact (hother a hac).trans ((h.holds v).events a j hv)
  · obtain ⟨o, ho, hout, hev⟩ := h.outcome a ha
    exact ⟨o, ho, hout, (hother a fun hac => hdone (hac ▸ ha)).trans hev⟩
  · exact (hother a (by simp only at ha; omega)).trans (h.fresh a ha)
  · simp only [h.queue, List.append_assoc]
  · obtain ⟨hlive, -⟩ := h.finished hf
    rw [h.live, Finset.sum_eq_zero_iff] at hlive
    simpa [hat, Worker.alive] using hlive w (Finset.mem_univ w)

lemma Inv.workerStep (h : Inv cfg n s) {w : Fin (T + 1)} (hs : s.WorkerStep cfg n w s') : Inv cfg n s' := by
  have hw := h.holds w
  cases hs with
  | take hat hnext =>
    refine h.worker (h.share.take (by rw [held, hat]; rfl) hnext) (Nat.le_succ _) (by rw [hat]; rfl) le_rfl
      ⟨nofun, trivial, ?_⟩
    rintro c k ⟨⟩
    exact h.fresh _ le_rfl
  | miss hat hnext =>
    have hheld : s.held w = none := by rw [held, hat]; rfl
    exact h.worker ((update_held hheld).symm ▸ h.share.miss hnext) (Nat.le_succ _) (by rw [hat]; rfl) le_rfl
      ⟨fun _ => Nat.le_succ_of_le hnext, trivial, nofun⟩
  | leave hat =>
    have hheld : s.held w = none := by rw [held, hat]; rfl
    have hsum := sum_update_add s.workers w .gone Worker.alive
    rw [← h.live] at hsum
    refine h.worker ((update_held hheld).symm ▸ h.share) le_rfl ?_ (Nat.sub_le ..)
      ⟨fun _ => hw.isOut (by rw [hat]; trivial), trivial, nofun⟩
    simp only [hat, Worker.alive] at hsum ⊢
    omega
  | push hat => exact h.push hat
  | start hat hq =>
    rw [hat] at hw
    exact h.goOn (by rw [hat]; rfl) (by rw [hat]; rfl) ⟨nofun, Config.At.start hq, hw.events⟩
  | startError hat he =>
    exact h.finish (by rw [hat]; rfl) (by rw [hat]; rfl) (.inl (by rw [Config.solo, he]))
  | poll hat hk hstop =>
    rw [hat] at hw
    exact h.goOn (by rw [hat]; rfl) (by rw [hat]; rfl) ⟨nofun, ⟨hk, hw.fits⟩, hw.events⟩
  | interrupt hat hk hstop =>
    rw [hat] at hw
    exact h.finish (by rw [hat]; rfl) (by rw [hat]; rfl) (.inr ⟨hstop, _, rfl, hw.fits⟩)
  | complete hat hk =>
    rw [hat] at hw
    exact h.finish (by rw [hat]; rfl) (by rw [hat]; rfl) (.inl (hw.fits.complete hk).symm)
  | @quiet c k q q' hat hq he =>
    rw [hat] at hw
    refine h.goOn (by rw [hat]; rfl) (by rw [hat]; rfl) ⟨nofun, hw.fits.2.next hw.fits.1 hq, ?_⟩
    rintro c' k' ⟨⟩
    rw [hw.events c k rfl, Config.events_succ, he, Option.toList_none, List.append_nil]
  | report hat hq he =>
    rw [hat] at hw
    exact h.goOn (by rw [hat]; rfl) (by rw [hat]; rfl) ⟨nofun, ⟨hw.fits.2.next hw.fits.1 hq, he⟩, hw.events⟩
  | moveError hat he =>
    rw [hat] at hw
    exact h.finish (by rw [hat]; rfl) (by rw [hat]; rfl) (.inl (hw.fits.2.error hw.fits.1 he).symm)

lemma Inv.callerStep (h : Inv cfg n s) (hs : s.CallerStep s') : Inv cfg n s' := by
  have hqueue := h.queue
  cases hs with
  | poll =>
    refine { h with outcome := fun c hc => ?_ }
    obtain ⟨o, ho, hout, hev⟩ := h.outcome c hc
    exact ⟨o, ho, hout.mono, hev⟩
  | pop hat hes =>
    rw [hat, hes] at hqueue
    refine { h with queue := ?_, finished := nofun }
    simpa [Caller.event] using hqueue
  | deliver hat herr throws =>
    have hdropped := h.dropped herr
    rw [hat, hdropped] at hqueue
    refine { h with queue := ?_, dropped := fun _ => hdropped, finished := nofun }
    simpa [Caller.event, hdropped] using hqueue
  | drop hat herr =>
    rw [hat] at hqueue
    refine { h with queue := ?_, dropped := fun hno => ?_, finished := nofun }
    · simpa [Caller.event] using hqueue
    · simp [herr] at hno
  | finish hat hes hlive =>
    rw [hat] at hqueue
    exact { h with queue := hqueue, finished := fun _ => ⟨hlive, hes⟩ }

lemma inv_of_reaches (h : Reaches cfg n s) : Inv cfg n s := by
  refine Runs.invariant (I := fun s _ => Inv cfg n s) (inv_start cfg n) (fun s l s' _ hinv hs => ?_) h
  cases hs with
  | worker hs => exact hinv.workerStep hs
  | caller hs => exact hinv.callerStep hs

/-- In every interleaving, when the calling thread is through, each chain has been run once, with its outcome
on its own (all of it, if there was no stop), and the observer has seen the events of each chain in their
order, up to where the observer threw. -/
theorem Reaches.finished (h : Reaches cfg n s) (hs : s.caller = .finished) :
    s.done.Perm (List.range n) ∧
      (∀ c < n, ∃ o, s.out c = some o ∧ cfg.Outcome s.stop c o ∧
        (s.delivered ++ s.dropped).filter (fun e => e.chain = c) = cfg.events c o.1) ∧
      (s.progressError = false → s.dropped = []) := by
  have hinv := inv_of_reaches h
  obtain ⟨hlive, hempty⟩ := hinv.finished hs
  have hgone : ∀ w, s.workers w = .gone := by
    intro w
    rw [hinv.live, Finset.sum_eq_zero_iff] at hlive
    have hw := hlive w (Finset.mem_univ w)
    cases hx : s.workers w with
    | gone => rfl
    | _ => simp [hx, Worker.alive] at hw
  have hheld : ∀ w, s.held w = none := fun w => by rw [held, hgone w]; rfl
  have hnext := (hinv.holds 0).isOut (by rw [hgone]; trivial)
  refine ⟨hinv.share.perm_range hheld hnext, fun c hc => ?_, hinv.dropped⟩
  obtain ⟨o, ho, hout, hev⟩ := hinv.outcome c ((hinv.share.mem_of_released hheld hnext).2 hc)
  refine ⟨o, ho, hout, ?_⟩
  have hqueue := hinv.queue
  rw [hs, hempty, show Caller.finished.event = [] from rfl, List.append_nil, List.append_nil] at hqueue
  rwa [← hqueue]

/-- Two chains of one transition for each phase; the second chain fails in its second transition. -/
def twoChains : Config ℕ Unit :=
  ⟨1, 1, 1, fun c => .ok c, fun _ q => if q = 2 then .error () else .ok (q + 1)⟩

/-- Two workers run them side by side. -/
lemma exists_reaches_twoChains : ∃ s : State ℕ Unit 1, Reaches twoChains 2 s ∧ s.caller = .finished ∧
    s.stop = false ∧ s.progressError = false ∧ s.delivered = [⟨0, 0, true⟩, ⟨1, 0, true⟩, ⟨0, 0, false⟩] := by
  have h : Reaches twoChains 2 (start : State ℕ Unit 1) := .start
  have h := h.silent (.worker (w := 1) (.take rfl (by decide)))
  have h := h.silent (.worker (w := 0) (.take rfl (by decide)))
  have h := h.silent (.worker (w := 0) (.start rfl rfl))
  have h := h.silent (.worker (w := 1) (.start rfl rfl))
  have h := h.silent (.worker (w := 1) (.poll rfl (by decide) rfl))
  have h := h.silent (.worker (w := 0) (.poll rfl (by decide) rfl))
  have h := h.silent (.worker (w := 0) (.report rfl rfl rfl))
  have h := h.silent (.worker (w := 1) (.report rfl rfl rfl))
  have h := h.silent (.worker (w := 1) (.push rfl))
  have h := h.silent (.caller (.pop rfl rfl))
  have h := h.silent (.worker (w := 0) (.push rfl))
  have h := h.silent (.worker (w := 0) (.poll rfl (by decide) rfl))
  have h := h.silent (.worker (w := 0) (.moveError rfl rfl))
  have h := h.silent (.caller (.deliver rfl rfl false))
  have h := h.silent (.worker (w := 0) (.miss rfl le_rfl))
  have h := h.silent (.worker (w := 1) (.poll rfl (by decide) rfl))
  have h := h.silent (.worker (w := 1) (.report rfl rfl rfl))
  have h := h.silent (.worker (w := 1) (.push rfl))
  have h := h.silent (.worker (w := 0) (.leave rfl))
  have h := h.silent (.caller (.pop rfl rfl))
  have h := h.silent (.worker (w := 1) (.complete rfl rfl))
  have h := h.silent (.caller (.deliver rfl rfl false))
  have h := h.silent (.worker (w := 1) (.miss rfl (by decide)))
  have h := h.silent (.worker (w := 1) (.leave rfl))
  have h := h.silent (.caller (.pop rfl rfl))
  have h := h.silent (.caller (.deliver rfl rfl false))
  exact ⟨_, h.silent (.caller (.finish rfl rfl rfl)), rfl, rfl, rfl, rfl⟩

theorem Reaches.finished_twoChains : ∃ s : State ℕ Unit 1, s.caller = .finished ∧ s.stop = false ∧
    s.delivered = [⟨0, 0, true⟩, ⟨1, 0, true⟩, ⟨0, 0, false⟩] ∧ s.done.Perm (List.range 2) ∧
      ∀ c < 2, ∃ o, s.out c = some o ∧ twoChains.Outcome s.stop c o ∧
        s.delivered.filter (fun e => e.chain = c) = twoChains.events c o.1 := by
  obtain ⟨s, h, hs, hstop, herr, hdelivered⟩ := exists_reaches_twoChains
  obtain ⟨hdone, hout, hdropped⟩ := Reaches.finished h hs
  rw [hdropped herr, List.append_nil] at hout
  exact ⟨s, hs, hstop, hdelivered, hdone, hout⟩

end State

end Chains

end Stanli
