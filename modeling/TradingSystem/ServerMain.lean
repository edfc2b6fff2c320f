import TradingSystem.EventLoop
import TradingSystem.ThreadedRunner

/-!
# The server

`src/server_main.cpp`: the main thread is in the event loop, which pushes to
the queue; a consumer thread pops, submits to the one engine and prints; a
signal handler calls `stop`. When the loop has returned the main thread calls
`shutdown` and joins the consumer.

Whatever the interleaving of the three, what is printed is what submitting the
orders of the dispatched events one by one prints, up to where the consumer
is; when the consumer has ended, all of it.
-/

namespace TradingSystem

open Transition

/-- A printed line, without the formatting of the price. -/
inductive Line (P : Type) where
  | trade (buy sell : UInt64) (price : P) (qty : UInt64)
  | reject (order : UInt64) (reason : RejectReason)
  deriving DecidableEq

def SubmitResult.lines {P : Type} : SubmitResult P → List (Line P)
  | .trades ts => ts.map fun t => .trade t.buyOrderId t.sellOrderId t.price t.quantity
  | .rejection r => [.reject r.orderId r.reason]

/-- `handled` counts the popped orders that have been submitted; `results` are
what `submit_order` returned for them. -/
structure Server (P σ : Type) where
  loop : EventLoop P
  queue : σ
  engine : MatchingEngine P
  handled : ℕ
  results : List (SubmitResult P)

inductive ServerEvent (ε : Type) where
  /-- a step of `run` or of `stop`, other than `push` -/
  | loop (e : LoopEvent)
  | push
  | shutdown
  | pop
  /-- a step inside a call of the queue -/
  | within (e : ε)
  | submit

/-- The step of the server's threads that is a step of the runner's. -/
def ServerEvent.ofRunner {ε : Type} : RunnerEvent ε → ServerEvent ε
  | .push => .push
  | .shutdown => .shutdown
  | .pop => .pop
  | .within e => .within e
  | .submit => .submit

/-- What was returned before a step is returned after it, so what the consumer
has submitted stays the same. -/
theorem IOrderQueue.Delivers.take_returned {P σ ε : Type} {Q : IOrderQueue P σ ε}
    {limit : ℕ → Prop} (hQ : Q.Delivers limit) {q q' : σ} {e : ε} (hq : Q.step q e = some q') {n : ℕ}
    (hn : n ≤ (Q.returned q).length) : (Q.returned q').take n = (Q.returned q).take n := by
  obtain ⟨more, hmore⟩ := hQ.returned_grows _ _ _ hq
  rw [← hmore, List.take_append_of_le_length hn]

section
variable {P σ ε : Type} [LT P] [DecidableLT P] [PriceArith P]

/-- An order in hand is one more to push. -/
theorem Runner.Inv.take_in_hand {Q : IOrderQueue P σ ε} {band : P} {orders : List (Order P)}
    {r : Runner P σ} (h : Runner.Inv Q band orders r) (htodo : r.todo = [])
    (hopen : Q.done r.queue ≠ true) (o : Order P) :
    Runner.Inv Q band (orders ++ [o]) { r with todo := [o] } := by
  have hgiven := h.given
  rw [htodo, List.append_nil] at hgiven
  exact ⟨h.queue, by rw [hgiven], fun hdone => absurd hdone hopen, h.handled_le, h.caught_up,
    h.engine, h.trades⟩

end

namespace Server

variable {P σ ε : Type} [LT P] [DecidableLT P] [PriceArith P]

def init (Q : IOrderQueue P σ ε) (band : P) (stopReadFd listenFd : ℕ) : Server P σ where
  loop := .init stopReadFd listenFd
  queue := Q.init
  engine := .new band
  handled := 0
  results := []

/-- What the consumer has printed. -/
def output (s : Server P σ) : List (Line P) := s.results.flatMap SubmitResult.lines

/-- The loop may go on while the queue finishes a `push`: these are more
interleavings than the program has. -/
def step (Q : IOrderQueue P σ ε) (price : UInt64 → P) (s : Server P σ) :
    ServerEvent ε → Option (Server P σ)
  | .loop .pushed => none
  | .loop e => (s.loop.step price e).map fun l => { s with loop := l }
  | .push =>
    match s.loop.pc with
    | .pushing p fd rest => (Q.step s.queue (Q.push p.2)).map fun q =>
        { s with queue := q, loop := { s.loop with pc := .processing fd rest } }
    | _ => none
  | .shutdown =>
    match s.loop.pc with
    | .returned => (Q.step s.queue Q.shutdown).map fun q => { s with queue := q }
    | _ => none
  | .pop =>
    if s.handled = (Q.returned s.queue).length ∧ Q.refused s.queue = false then
      (Q.step s.queue Q.pop).map fun q => { s with queue := q }
    else none
  | .within e =>
    if Q.begins e then none else (Q.step s.queue e).map fun q => { s with queue := q }
  | .submit =>
    match (Q.returned s.queue)[s.handled]? with
    | none => none
    | some o => some { s with
        engine := (s.engine.submitOrder o).1
        handled := s.handled + 1
        results := s.results ++ [(s.engine.submitOrder o).2] }

/-- What each event requires and does. -/
inductive Does (Q : IOrderQueue P σ ε) (price : UInt64 → P) (s : Server P σ) :
    ServerEvent ε → Server P σ → Prop where
  | loop {e : LoopEvent} {l : EventLoop P} (hpushed : e ≠ .pushed)
      (hl : EventLoop.Does price s.loop e l) : Does Q price s (.loop e) { s with loop := l }
  | push {p : ℕ × Order P} {fd : ℕ} {rest : List EpollEvent} {q : σ}
      (hpc : s.loop.pc = .pushing p fd rest) (hq : Q.step s.queue (Q.push p.2) = some q) :
      Does Q price s .push
        { s with queue := q, loop := { s.loop with pc := .processing fd rest } }
  | shutdown {q : σ} (hpc : s.loop.pc = .returned) (hq : Q.step s.queue Q.shutdown = some q) :
      Does Q price s .shutdown { s with queue := q }
  | pop {q : σ} (hhandled : s.handled = (Q.returned s.queue).length)
      (hq : Q.step s.queue Q.pop = some q) : Does Q price s .pop { s with queue := q }
  | within {e : ε} {q : σ} (hin : Q.begins e = false) (hq : Q.step s.queue e = some q) :
      Does Q price s (.within e) { s with queue := q }
  | submit {o : Order P} (ho : (Q.returned s.queue)[s.handled]? = some o) :
      Does Q price s .submit { s with
        engine := (s.engine.submitOrder o).1
        handled := s.handled + 1
        results := s.results ++ [(s.engine.submitOrder o).2] }

variable {Q : IOrderQueue P σ ε} {price : UInt64 → P} {band : P} {s t : Server P σ}

theorem step_does {e : ServerEvent ε} (h : step Q price s e = some t) : Does Q price s e t := by
  cases e with
  | loop e =>
    by_cases hpushed : e = .pushed
    · subst hpushed
      cases h
    · have hmap : (s.loop.step price e).map (fun l => { s with loop := l }) = some t := by
        cases e with
        | pushed => exact absurd rfl hpushed
        | _ => exact h
      obtain ⟨l, hl, rfl⟩ := Option.map_eq_some_iff.mp hmap
      exact .loop hpushed (EventLoop.step_does hl)
  | push =>
    simp only [step] at h
    split at h
    · obtain ⟨q, hq, rfl⟩ := Option.map_eq_some_iff.mp h
      exact .push ‹_› hq
    · cases h
  | shutdown =>
    simp only [step] at h
    split at h
    · obtain ⟨q, hq, rfl⟩ := Option.map_eq_some_iff.mp h
      exact .shutdown ‹_› hq
    · cases h
  | pop =>
    simp only [step] at h
    split at h
    · rename_i hready
      obtain ⟨q, hq, rfl⟩ := Option.map_eq_some_iff.mp h
      exact .pop hready.1 hq
    · cases h
  | within e =>
    simp only [step] at h
    split at h
    · cases h
    · rename_i hin
      obtain ⟨q, hq, rfl⟩ := Option.map_eq_some_iff.mp h
      exact .within (by simpa using hin) hq
  | submit =>
    simp only [step] at h
    split at h
    · cases h
    · obtain rfl := Option.some.inj h
      exact .submit ‹_›

/-! ## The server is a runner -/

/-- The orders handed to `push`, or about to be. -/
def pushes (s : Server P σ) : List (Order P) := s.loop.handler.queue.map Prod.snd

/-- The producer's and the consumer's thread, with the order in hand as all
that is left to push. -/
def runner (s : Server P σ) : Runner P σ where
  queue := s.queue
  todo := s.loop.pc.inHand.map Prod.snd
  engine := s.engine
  handled := s.handled
  trades := s.results.flatMap SubmitResult.tradeList

omit [LT P] [DecidableLT P] [PriceArith P] in
@[simp] theorem runner_queue (s : Server P σ) : s.runner.queue = s.queue := rfl

/-- Where the runner can go on so can the server, but for `shutdown`, which
waits for the loop to return. -/
theorem step_of_runner {e : RunnerEvent ε} (he : e ≠ .shutdown)
    (h : (Runner.step Q s.runner e).isSome = true) :
    (step Q price s (.ofRunner e)).isSome = true := by
  cases e with
  | push =>
    cases hpc : s.loop.pc with
    | pushing p fd rest =>
      simpa [Runner.step, runner, step, ServerEvent.ofRunner, hpc, LoopPc.inHand] using h
    | _ => simp [Runner.step, runner, hpc, LoopPc.inHand] at h
  | shutdown => exact absurd rfl he
  | pop =>
    by_cases hready : s.handled = (Q.returned s.queue).length ∧ Q.refused s.queue = false
    · simpa [Runner.step, runner, step, ServerEvent.ofRunner, hready] using h
    · simp [Runner.step, runner, hready] at h
  | within e =>
    cases hin : Q.begins e with
    | false => simpa [Runner.step, runner, step, ServerEvent.ofRunner, hin] using h
    | true => simp [Runner.step, hin] at h
  | submit =>
    cases ho : (Q.returned s.queue)[s.handled]? with
    | none => simp [Runner.step, runner, ho] at h
    | some o => simp [step, ServerEvent.ofRunner, ho]

structure Inv (Q : IOrderQueue P σ ε) (price : UInt64 → P) (band : P) (s : Server P σ) : Prop where
  settled : s.loop.settled price = FeedHandler.run price .init s.loop.dispatched
  runner : Runner.Inv Q band s.pushes s.runner
  closed : Q.done s.queue = true → s.loop.pc = .returned
  results : s.results = (directRun band ((Q.returned s.queue).take s.handled)).2

variable {limit : ℕ → Prop}

theorem Inv.results_of_queue (h : Inv Q price band s) (hQ : Q.Delivers limit) {e : ε} {q : σ}
    (hq : Q.step s.queue e = some q) :
    s.results = (directRun band ((Q.returned q).take s.handled)).2 := by
  have hle : s.handled ≤ (Q.returned s.queue).length := h.runner.handled_le
  rw [hQ.take_returned hq hle]
  exact h.results

/-- A step of the queue that is a step of the runner and leaves the loop where
it is. -/
theorem Inv.queue_steps (h : Inv Q price band s) (hQ : Q.Delivers limit) {e : ε} {q : σ}
    (hq : Q.step s.queue e = some q) (hrunner : Runner.Does Q s.runner { s.runner with queue := q })
    (hclosed : Q.done q = true → s.loop.pc = .returned) :
    Inv Q price band { s with queue := q } where
  settled := h.settled
  runner := h.runner.step hQ hrunner
  closed := hclosed
  results := h.results_of_queue hQ hq

theorem Inv.step (h : Inv Q price band s) (hQ : Q.Delivers limit) {e : ServerEvent ε}
    (hstep : Does Q price s e t) : Inv Q price band t := by
  cases hstep with
  | @loop e l hpushed hl =>
    have hsettled := EventLoop.settled_step h.settled hl
    rcases hl.in_hand hpushed with ⟨hhand, hqueue, hstay⟩ | ⟨p, hhand, hhand', hrun, hqueue⟩
    · refine ⟨hsettled, ?_, fun hdone => hstay (h.closed hdone), h.results⟩
      have hsame : ({ s with loop := l } : Server P σ).runner = s.runner := by
        simp only [Server.runner, hhand]
      rw [hsame, Server.pushes, hqueue]
      exact h.runner
    · have hopen : Q.done s.queue ≠ true := fun hdone => hrun (h.closed hdone)
      refine ⟨hsettled, ?_, fun hdone => absurd hdone hopen, h.results⟩
      have htodo : s.runner.todo = [] := by simp only [Server.runner, hhand, List.map_nil]
      have hnext : ({ s with loop := l } : Server P σ).runner = { s.runner with todo := [p.2] } := by
        simp only [Server.runner, hhand', List.map_singleton]
      rw [hnext, Server.pushes, hqueue, List.map_append]
      exact h.runner.take_in_hand htodo hopen p.2
  | @push p fd rest q hpc hq =>
    obtain ⟨-, hdone⟩ := hQ.push _ _ _ hq
    have htodo : s.runner.todo = [p.2] := by simp [Server.runner, hpc, LoopPc.inHand]
    refine ⟨?_, h.runner.step hQ (.push htodo hq), fun hd => ?_, h.results_of_queue hQ hq⟩
    · exact EventLoop.settled_step h.settled (.pushed hpc)
    · have hend := h.closed (hdone ▸ hd)
      rw [hpc] at hend
      cases hend
  | shutdown hpc hq =>
    have htodo : s.runner.todo = [] := by simp [Server.runner, hpc, LoopPc.inHand]
    exact h.queue_steps hQ hq (.shutdown htodo hq) fun _ => hpc
  | pop hhandled hq =>
    obtain ⟨-, hdone⟩ := hQ.other _ _ _ hq (.inl rfl)
    exact h.queue_steps hQ hq (.pop hhandled hq) (hdone ▸ h.closed)
  | within hin hq =>
    obtain ⟨-, hdone⟩ := hQ.other _ _ _ hq (.inr hin)
    exact h.queue_steps hQ hq (.within hin hq) (hdone ▸ h.closed)
  | @submit o ho =>
    have hrunner := h.runner.step hQ (.submit ho)
    have hengine : s.engine = (directRun band ((Q.returned s.queue).take s.handled)).1 :=
      h.runner.engine
    refine ⟨h.settled, ?_, h.closed, ?_⟩
    · rw [Server.runner, List.flatMap_append, List.flatMap_singleton]
      exact hrunner
    · rw [ListLemmas.take_snoc ho, h.results, hengine]
      exact (congrArg Prod.snd (Machine.run_snoc _ _ _)).symm

theorem inv_init (hQ : Q.Delivers limit) (stopReadFd listenFd : ℕ) :
    Inv Q price band (init Q band stopReadFd listenFd) where
  settled := rfl
  runner := Runner.inv_init hQ
  closed := fun hdone => by simp [init, hQ.done_init] at hdone
  results := by simp [init, directRun]

theorem reachable_inv (hQ : Q.Delivers limit) {stopReadFd listenFd : ℕ}
    (h : Reachable (step Q price) (init Q band stopReadFd listenFd) s) : Inv Q price band s :=
  h.invariant (inv_init hQ _ _) fun _ _ _ hs he => hs.step hQ (step_does he)

/-! ## What the server prints -/

/-- The orders of the events submitted one by one to one engine. -/
def reference (price : UInt64 → P) (band : P) (evs : List FeedEvent) :
    MatchingEngine P × List (SubmitResult P) :=
  directRun band ((FeedHandler.run price .init evs).queue.map Prod.snd)

theorem directRun_prefix (band : P) {l l' : List (Order P)} (h : l <+: l') :
    (directRun band l).2 <+: (directRun band l').2 := by
  obtain ⟨more, rfl⟩ := h
  rw [directRun, directRun, Machine.run_append]
  exact List.prefix_append _ _

/-- What was popped was pushed, and what was pushed is what the events say. -/
theorem Inv.returned_prefix (h : Inv Q price band s) (hQ : Q.Delivers limit) :
    Q.returned s.queue <+:
      (FeedHandler.run price .init s.loop.dispatched).queue.map Prod.snd := by
  have hgiven : Q.given s.queue <+: s.pushes := ⟨_, h.runner.given⟩
  have hpushes : s.pushes <+: (s.loop.settled price).queue.map Prod.snd :=
    (EventLoop.queue_prefix_settled price s.loop).map _
  rw [h.settled] at hpushes
  exact ((hQ.returned_prefix _ h.runner.queue).trans hgiven).trans hpushes

/-- When the consumer's loop has ended, so has the event loop, and the consumer
has submitted every order. -/
theorem Inv.ended (h : Inv Q price band s) (hQ : Q.Delivers limit)
    (hlimit : limit (Q.given s.queue).length) (hend : Q.refused s.queue = true) :
    s.loop.pc = .returned ∧ s.handled = (Q.returned s.queue).length ∧
      Q.returned s.queue =
        (FeedHandler.run price .init s.loop.dispatched).queue.map Prod.snd := by
  obtain ⟨hdone, hbetween, hall⟩ := hQ.refused _ h.runner.queue hend
  have hpc : s.loop.pc = .returned := h.closed hdone
  refine ⟨hpc, h.runner.caught_up hbetween, ?_⟩
  have hgiven := h.runner.given
  have htodo : s.runner.todo = [] := by simp [Server.runner, hpc, LoopPc.inHand]
  have hsettled := h.settled
  simp only [EventLoop.settled, hpc] at hsettled
  rw [htodo, List.append_nil] at hgiven
  calc Q.returned s.queue
      = Q.given s.queue := hall hlimit
    _ = s.pushes := hgiven
    _ = _ := by rw [← hsettled, pushes]

/-- What is printed is a beginning of what the dispatched events call for, and
all of it at the end. -/
structure Served (price : UInt64 → P) (band : P) (ended : Prop) (s : Server P σ) : Prop where
  printed : s.output <+:
    (reference price band s.loop.dispatched).2.flatMap SubmitResult.lines
  all : ended → s.loop.pc = .returned ∧
    s.engine = (reference price band s.loop.dispatched).1 ∧
    s.output = (reference price band s.loop.dispatched).2.flatMap SubmitResult.lines

/-- **The server prints what its events call for.** In every interleaving of
the event loop, `stop`, the steps of the mutex queue and the consumer, the
lines printed so far begin those of submitting the orders of the dispatched
events one by one. When `pop` has returned false the event loop is over, the
lines are all there and the engine is in the state of that run. -/
theorem output_eq_reference {stopReadFd listenFd : ℕ} {s : Server P (MutexQueue P)}
    (h : Reachable (step MutexQueue.api price) (init MutexQueue.api band stopReadFd listenFd) s) :
    Served price band (s.queue.pop = .stopped) s := by
  have hQ : (MutexQueue.api : IOrderQueue P _ _).Delivers fun _ => True := MutexQueue.api_delivers
  have hinv : Inv MutexQueue.api price band s := reachable_inv hQ h
  constructor
  · have htake := (List.take_prefix s.handled _).trans (hinv.returned_prefix hQ)
    obtain ⟨more, hmore⟩ := directRun_prefix band htake
    rw [output, hinv.results, reference, ← hmore, List.flatMap_append]
    exact List.prefix_append _ _
  · intro hstopped
    have hend : MutexQueue.api.refused s.queue = true := beq_iff_eq.mpr hstopped
    obtain ⟨hpc, hhandled, hall⟩ := hinv.ended hQ trivial hend
    have hengine : s.engine = (directRun band ((MutexQueue.api.returned s.queue).take s.handled)).1 :=
      hinv.runner.engine
    have hresults := hinv.results
    rw [hhandled, List.take_length, hall] at hengine hresults
    exact ⟨hpc, hengine, by rw [output, hresults, reference]⟩

/-- A client sends a sell and a buy at the same price, `stop` is called while
they are read, and the main thread calls `shutdown` with one order left. -/
def sellBuyStop : List (ServerEvent (QueueEvent ℚ)) :=
  [.loop .start, .loop .load, .loop (.wait [⟨4, false, true, 0⟩]), .loop .next,
    .loop (.accept (.client 7)), .loop (.accept .again), .loop .next, .loop .load,
    .loop (.wait [⟨7, false, true, 0⟩]), .loop .next,
    .loop (.recv [EventLoop.message 1 1 100 5 ++ EventLoop.message 2 0 100 5] .again),
    .loop .decode, .push, .within .enqueue, .within .unlockPush, .within .notifyOne, .pop, .within .test, .loop .exchange,
    .within .take, .submit, .loop .decode, .push, .within .enqueue, .within .unlockPush,
    .within .notifyOne, .loop .write, .loop .decode, .loop .next, .loop .load, .shutdown,
    .within .notifyAll]

/-- The consumer takes one order and ends. -/
def drainOne : List (ServerEvent (QueueEvent ℚ)) :=
  [.pop, .within .test, .within .take, .submit, .pop, .within .test, .within .take]

theorem output_eq_reference_sell_buy :
    ∃ s : Server ℚ (MutexQueue ℚ), exec (step MutexQueue.api fun w => (w.toNat : ℚ))
        (init MutexQueue.api (1 / 10) 3 4) (sellBuyStop ++ drainOne) = some s ∧
      s.output = [.trade 2 1 100 5] ∧
      s.output = (reference (fun w => (w.toNat : ℚ)) (1 / 10) s.loop.dispatched).2.flatMap
        SubmitResult.lines := by
  have hrun : (exec (step MutexQueue.api fun w => (w.toNat : ℚ))
      (init MutexQueue.api (1 / 10) 3 4) (sellBuyStop ++ drainOne)).any (fun s =>
        s.queue.pop == .stopped && s.output == [.trade 2 1 100 5]) = true := by decide +kernel
  obtain ⟨s, hs, hq⟩ := exec_any hrun
  obtain ⟨hstopped, hout⟩ := Bool.and_eq_true_iff.mp hq
  have hserved := output_eq_reference (Reachable.start.exec hs)
  exact ⟨s, hs, beq_iff_eq.mp hout, (hserved.all (beq_iff_eq.mp hstopped)).2.2⟩

end Server

end TradingSystem
