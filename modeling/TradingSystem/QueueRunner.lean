import TradingSystem.EngineMain
import TradingSystem.Lib.Transition

/-!
# A producer, a queue and a consumer

What `tests/test_threaded_runner.cpp` does around a queue: one thread pushes
a list of orders and calls `shutdown`, another pops until `pop` returns false,
submits each order and collects the trades. The threads are a `Runner` over
what an `IOrderQueue` shows of its steps.

A queue delivers when it returns what it was given, in order, and a refused
`pop` means that nothing is missing. Over a queue that delivers, a consumer
whose loop has ended holds the trades of the direct run, whatever the
interleaving.
-/

namespace TradingSystem

open Transition

/-- `include/order_queue.hpp`, with the steps of an implementation: `σ` are
its states, `ε` the steps its threads take. -/
structure IOrderQueue (P σ ε : Type) where
  init : σ
  step : σ → ε → Option σ
  /-- The steps that begin a call. -/
  push : Order P → ε
  shutdown : ε
  pop : ε
  begins : ε → Bool
  /-- The orders `push` was called with. -/
  given : σ → List (Order P)
  /-- The orders `pop` returned. -/
  returned : σ → List (Order P)
  done : σ → Bool
  /-- The last `pop` returned an order, or there was none yet. -/
  between : σ → Bool
  /-- The last `pop` returned false. -/
  refused : σ → Bool

/-- The producer's and the consumer's thread: what is left to push, and how
many of the returned orders have been submitted. -/
structure Runner (P σ : Type) where
  queue : σ
  todo : List (Order P)
  engine : MatchingEngine P
  handled : ℕ
  trades : List (Trade P)

inductive RunnerEvent (ε : Type) where
  | push
  | shutdown
  | pop
  /-- a step inside a call -/
  | within (e : ε)
  | submit

section Runs

variable {P σ ε : Type} [LT P] [DecidableLT P] [PriceArith P]

/-- `submit_order` on each order of a list, on a new engine. -/
def directRun (band : P) (orders : List (Order P)) : MatchingEngine P × List (SubmitResult P) :=
  Machine.run MatchingEngine.submitOrder (.new band) orders

def runSingleThreaded (band : P) (orders : List (Order P)) : List (Trade P) :=
  (directRun band orders).2.flatMap SubmitResult.tradeList

namespace Runner

def init (Q : IOrderQueue P σ ε) (band : P) (orders : List (Order P)) : Runner P σ where
  queue := Q.init
  todo := orders
  engine := .new band
  handled := 0
  trades := []

def step (Q : IOrderQueue P σ ε) (s : Runner P σ) : RunnerEvent ε → Option (Runner P σ)
  | .push =>
    match s.todo with
    | [] => none
    | o :: todo => (Q.step s.queue (Q.push o)).map fun q => { s with queue := q, todo := todo }
  | .shutdown =>
    match s.todo with
    | [] => (Q.step s.queue Q.shutdown).map fun q => { s with queue := q }
    | _ :: _ => none
  | .pop =>
    -- the loop goes round once the last order is submitted, and ends on false
    if s.handled = (Q.returned s.queue).length ∧ Q.refused s.queue = false then
      (Q.step s.queue Q.pop).map fun q => { s with queue := q }
    else none
  | .within e =>
    if Q.begins e then none else (Q.step s.queue e).map fun q => { s with queue := q }
  | .submit =>
    match (Q.returned s.queue)[s.handled]? with
    | none => none
    | some o => some { s with
        engine := (s.engine.submitOrder o).1
        handled := s.handled + 1
        trades := s.trades ++ (s.engine.submitOrder o).2.tradeList }

/-- What each event requires and does. -/
inductive Does (Q : IOrderQueue P σ ε) (s : Runner P σ) : Runner P σ → Prop where
  | push {o : Order P} {todo : List (Order P)} {q : σ} (htodo : s.todo = o :: todo)
      (hq : Q.step s.queue (Q.push o) = some q) : Does Q s { s with queue := q, todo := todo }
  | shutdown {q : σ} (htodo : s.todo = []) (hq : Q.step s.queue Q.shutdown = some q) :
      Does Q s { s with queue := q }
  | pop {q : σ} (hhandled : s.handled = (Q.returned s.queue).length)
      (hq : Q.step s.queue Q.pop = some q) : Does Q s { s with queue := q }
  | within {e : ε} {q : σ} (hin : Q.begins e = false) (hq : Q.step s.queue e = some q) :
      Does Q s { s with queue := q }
  | submit {o : Order P} (ho : (Q.returned s.queue)[s.handled]? = some o) :
      Does Q s { s with
        engine := (s.engine.submitOrder o).1
        handled := s.handled + 1
        trades := s.trades ++ (s.engine.submitOrder o).2.tradeList }

theorem step_does {Q : IOrderQueue P σ ε} {s t : Runner P σ} {e : RunnerEvent ε}
    (h : step Q s e = some t) : Does Q s t := by
  cases e with
  | push =>
    simp only [step] at h
    split at h
    · cases h
    · obtain ⟨q, hq, rfl⟩ := Option.map_eq_some_iff.mp h
      exact .push ‹_› hq
  | shutdown =>
    simp only [step] at h
    split at h
    · obtain ⟨q, hq, rfl⟩ := Option.map_eq_some_iff.mp h
      exact .shutdown ‹_› hq
    · cases h
  | pop =>
    simp only [step] at h
    split at h
    · rename_i hready
      obtain ⟨q, hq, rfl⟩ := Option.map_eq_some_iff.mp h
      exact .pop hready.1 hq
    · cases h
  | within e =>
    simp only [step] at h
    split at h
    · cases h
    · rename_i hin
      obtain ⟨q, hq, rfl⟩ := Option.map_eq_some_iff.mp h
      exact .within (by simpa using hin) hq
  | submit =>
    simp only [step] at h
    split at h
    · cases h
    · obtain rfl := Option.some.inj h
      exact .submit ‹_›

end Runner

/-! ## Queues that deliver -/

/-- What the runner relies on. A refused `pop` is trusted only after no more
orders than `limit` allows. -/
structure IOrderQueue.Delivers (Q : IOrderQueue P σ ε) (limit : ℕ → Prop) : Prop where
  push_ne_pop : ∀ o, Q.push o ≠ Q.pop
  shutdown_ne_pop : Q.shutdown ≠ Q.pop
  begins_pop : Q.begins Q.pop = true
  given_init : Q.given Q.init = []
  done_init : Q.done Q.init = false
  push : ∀ s t o, Q.step s (Q.push o) = some t →
    Q.given t = Q.given s ++ [o] ∧ Q.done t = Q.done s
  shutdown : ∀ s t, Q.step s Q.shutdown = some t → Q.given t = Q.given s
  other : ∀ s t e, Q.step s e = some t → e = Q.pop ∨ Q.begins e = false →
    Q.given t = Q.given s ∧ Q.done t = Q.done s
  returned_grows : ∀ s t e, Q.step s e = some t → Q.returned s <+: Q.returned t
  quiet : ∀ s t e, Q.step s e = some t → Q.between t = false →
    Q.returned t = Q.returned s ∧ (e = Q.pop ∨ Q.between s = false)
  returned_prefix : ∀ s, Reachable Q.step Q.init s → Q.returned s <+: Q.given s
  refused : ∀ s, Reachable Q.step Q.init s → Q.refused s = true →
    Q.done s = true ∧ Q.between s = false ∧ (limit (Q.given s).length → Q.returned s = Q.given s)

namespace Runner

variable {Q : IOrderQueue P σ ε} {limit : ℕ → Prop} {band : P} {orders : List (Order P)}

/-- The producer has handed over a prefix of the list and shuts down at its
end; the consumer is at most one order behind what it popped, and not behind
while it is in `pop`. -/
structure Inv (Q : IOrderQueue P σ ε) (band : P) (orders : List (Order P)) (s : Runner P σ) :
    Prop where
  queue : Reachable Q.step Q.init s.queue
  given : Q.given s.queue ++ s.todo = orders
  closed : Q.done s.queue = true → s.todo = []
  handled_le : s.handled ≤ (Q.returned s.queue).length
  caught_up : Q.between s.queue = false → s.handled = (Q.returned s.queue).length
  engine : s.engine = (directRun band ((Q.returned s.queue).take s.handled)).1
  trades : s.trades = runSingleThreaded band ((Q.returned s.queue).take s.handled)

variable {s t : Runner P σ}

theorem inv_init (hQ : Q.Delivers limit) : Inv Q band orders (init Q band orders) where
  queue := .start
  given := by simp [init, hQ.given_init]
  closed := fun hdone => by simp [init, hQ.done_init] at hdone
  handled_le := Nat.zero_le _
  caught_up := fun _ => by
    have hprefix := hQ.returned_prefix _ .start
    rw [hQ.given_init, List.prefix_nil] at hprefix
    simp [init, hprefix]
  engine := by simp [init, directRun]
  trades := by simp [init, runSingleThreaded, directRun]

/-- A step of the queue keeps what the consumer has submitted, and the
consumer where it is unless it begins a `pop`, when it is not behind. -/
theorem Inv.queue_steps (h : Inv Q band orders s) (hQ : Q.Delivers limit) {e : ε} {q : σ}
    (hq : Q.step s.queue e = some q) {todo : List (Order P)} (hgiven : Q.given q ++ todo = orders)
    (hclosed : Q.done q = true → todo = [])
    (hpop : e = Q.pop → s.handled = (Q.returned s.queue).length) :
    Inv Q band orders { s with queue := q, todo := todo } := by
  obtain ⟨more, hmore⟩ := hQ.returned_grows _ _ _ hq
  have htake : (Q.returned q).take s.handled = (Q.returned s.queue).take s.handled := by
    rw [← hmore, List.take_append_of_le_length h.handled_le]
  refine ⟨h.queue.next hq, hgiven, hclosed, ?_, fun hb => ?_, ?_, ?_⟩
  · rw [← hmore, List.length_append]
    exact Nat.le_add_right_of_le h.handled_le
  · obtain ⟨hsame, hwhere⟩ := hQ.quiet _ _ _ hq hb
    rw [hsame]
    exact hwhere.elim hpop h.caught_up
  · rw [htake]
    exact h.engine
  · rw [htake]
    exact h.trades

theorem Inv.submit (h : Inv Q band orders s) {o : Order P}
    (ho : (Q.returned s.queue)[s.handled]? = some o) :
    Inv Q band orders { s with
      engine := (s.engine.submitOrder o).1
      handled := s.handled + 1
      trades := s.trades ++ (s.engine.submitOrder o).2.tradeList } := by
  have hlt : s.handled < (Q.returned s.queue).length := (List.getElem?_eq_some_iff.mp ho).1
  have hrun : directRun band ((Q.returned s.queue).take (s.handled + 1)) =
      ((s.engine.submitOrder o).1, (directRun band ((Q.returned s.queue).take s.handled)).2 ++
        [(s.engine.submitOrder o).2]) := by
    rw [ListLemmas.take_snoc ho, h.engine]
    exact Machine.run_snoc _ _ _
  refine ⟨h.queue, h.given, h.closed, hlt, fun hb => ?_, ?_, ?_⟩
  · have := h.caught_up hb
    omega
  · rw [hrun]
  · rw [runSingleThreaded, hrun, List.flatMap_append, List.flatMap_singleton, h.trades]
    rfl

theorem Inv.step (h : Inv Q band orders s) (hQ : Q.Delivers limit) (hstep : Does Q s t) :
    Inv Q band orders t := by
  cases hstep with
  | push htodo hq =>
    obtain ⟨hgiven, hdone⟩ := hQ.push _ _ _ hq
    have horders := h.given
    rw [htodo] at horders
    refine h.queue_steps hQ hq ?_ (fun hd => ?_) fun he => absurd he (hQ.push_ne_pop _)
    · rw [hgiven, ← horders, List.append_assoc]
      rfl
    · have hnone := h.closed (hdone ▸ hd)
      rw [htodo] at hnone
      cases hnone
  | shutdown htodo hq =>
    refine h.queue_steps hQ hq ?_ (fun _ => htodo) fun he => absurd he hQ.shutdown_ne_pop
    rw [hQ.shutdown _ _ hq]
    exact h.given
  | pop hhandled hq =>
    obtain ⟨hgiven, hdone⟩ := hQ.other _ _ _ hq (.inl rfl)
    exact h.queue_steps hQ hq (hgiven ▸ h.given) (hdone ▸ h.closed) fun _ => hhandled
  | within hin hq =>
    obtain ⟨hgiven, hdone⟩ := hQ.other _ _ _ hq (.inr hin)
    refine h.queue_steps hQ hq (hgiven ▸ h.given) (hdone ▸ h.closed) fun he => ?_
    rw [he, hQ.begins_pop] at hin
    cases hin
  | submit ho => exact h.submit ho

/-- A step inside a call is up to the queue. -/
theorem within_isSome {e : ε} (hin : Q.begins e = false) (hq : (Q.step s.queue e).isSome = true) :
    (Runner.step Q s (.within e)).isSome = true := by
  simpa [Runner.step, hin] using hq

/-- Until its loop has ended, a consumer that can begin a `pop` does, or it has
an order to submit first. -/
theorem Inv.consumer_turn (h : Inv Q band orders s) (hloop : Q.refused s.queue = false)
    (hpop : (Q.step s.queue Q.pop).isSome = true) :
    (Runner.step Q s .submit).isSome = true ∨ (Runner.step Q s .pop).isSome = true := by
  rcases Nat.lt_or_eq_of_le h.handled_le with hbehind | hready
  · left
    simp only [Runner.step, List.getElem?_eq_getElem hbehind, Option.isSome_some]
  · right
    simpa [Runner.step, hready, hloop] using hpop

theorem reachable_inv (hQ : Q.Delivers limit)
    (h : Reachable (Runner.step Q) (init Q band orders) s) : Inv Q band orders s :=
  h.invariant (inv_init hQ) fun _ _ _ hs he => hs.step hQ (step_does he)

/-- A refused `pop` comes after the whole list was handed over. -/
theorem Inv.all_given (h : Inv Q band orders s) (hQ : Q.Delivers limit)
    (hend : Q.refused s.queue = true) : Q.given s.queue = orders := by
  obtain ⟨hdone, -, -⟩ := hQ.refused _ h.queue hend
  have hgiven := h.given
  rwa [h.closed hdone, List.append_nil] at hgiven

/-- When the consumer's loop has ended its trades are those of the orders it
popped, and these are the whole list if the queue could count it. -/
theorem Inv.ended (h : Inv Q band orders s) (hQ : Q.Delivers limit)
    (hend : Q.refused s.queue = true) :
    s.trades = runSingleThreaded band (Q.returned s.queue) ∧ Q.returned s.queue <+: orders ∧
      (limit orders.length → Q.returned s.queue = orders) := by
  obtain ⟨-, hbetween, hall⟩ := hQ.refused _ h.queue hend
  have hgiven : Q.given s.queue = orders := h.all_given hQ hend
  rw [hgiven] at hall
  refine ⟨?_, hgiven ▸ hQ.returned_prefix _ h.queue, hall⟩
  rw [h.trades, h.caught_up hbetween, List.take_length]

end Runner

end Runs

end TradingSystem
