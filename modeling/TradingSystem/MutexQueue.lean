import TradingSystem.Order
import TradingSystem.Lib.Transition

/-!
# The mutex queue and its shutdown

`include/mutex_order_queue.hpp` as three threads that interleave: a producer
in `push`, a consumer in `pop`, and the thread that calls `shutdown`. The wait
on the condition variable is split where it matters: evaluating the predicate
and blocking are two steps, both under the mutex; blocking releases it. A
notification reaches the consumer only while it is blocked.

`shutdown` stores the flag and notifies without taking the mutex, so both can
happen between those two steps of the consumer.
-/

namespace TradingSystem

open Transition

/-- Who holds `mu_`. -/
inductive Owner where
  | producer
  | consumer
  deriving DecidableEq

/-- Where the producer is in `push`. -/
inductive PushPc (P : Type) where
  | idle
  | locked (o : Order P)
  | enqueued
  | notifying

/-- Where the consumer is in `pop`. -/
inductive PopPc where
  | idle
  /-- holds the mutex, about to evaluate the wait predicate -/
  | testing
  /-- the predicate was true -/
  | passed
  /-- the predicate was false; still holds the mutex -/
  | failed
  | blocked
  /-- notified, about to take the mutex again -/
  | woken
  /-- `pop` returned false -/
  | stopped
  deriving DecidableEq

/-- Where the third thread is in `shutdown`. -/
inductive ShutdownPc where
  | before
  | stored
  | completed
  deriving DecidableEq

structure MutexQueue (P : Type) where
  queue : List (Order P)
  done : Bool
  mutex : Option Owner
  push : PushPc P
  pop : PopPc
  shutdown : ShutdownPc
  returned : List (Order P)

inductive QueueEvent (P : Type) where
  | lockPush (o : Order P)
  | enqueue
  | unlockPush
  | notifyOne
  | lockPop
  | test
  | block
  | relock
  | take
  | storeDone
  | notifyAll

namespace MutexQueue

variable {P : Type}

def init : MutexQueue P := ⟨[], false, none, .idle, .idle, .before, []⟩

/-- A notification: the consumer is the only thread that can be waiting. -/
def notify (s : MutexQueue P) : PopPc :=
  if s.pop = .blocked then .woken else s.pop

def step (s : MutexQueue P) : QueueEvent P → Option (MutexQueue P)
  | .lockPush o =>
    match s.push, s.mutex with
    | .idle, none => some { s with push := .locked o, mutex := some .producer }
    | _, _ => none
  | .enqueue =>
    match s.push with
    | .locked o => some { s with push := .enqueued, queue := s.queue ++ [o] }
    | _ => none
  | .unlockPush =>
    match s.push with
    | .enqueued => some { s with push := .notifying, mutex := none }
    | _ => none
  | .notifyOne =>
    match s.push with
    | .notifying => some { s with push := .idle, pop := s.notify }
    | _ => none
  | .lockPop =>
    match s.pop, s.mutex with
    | .idle, none => some { s with pop := .testing, mutex := some .consumer }
    | _, _ => none
  | .test =>
    match s.pop with
    | .testing => some { s with pop := if !s.queue.isEmpty || s.done then .passed else .failed }
    | _ => none
  | .block =>
    match s.pop with
    | .failed => some { s with pop := .blocked, mutex := none }
    | _ => none
  | .relock =>
    match s.pop, s.mutex with
    | .woken, none => some { s with pop := .testing, mutex := some .consumer }
    | _, _ => none
  | .take =>
    match s.pop, s.queue with
    | .passed, [] => some { s with pop := .stopped, mutex := none }
    | .passed, o :: queue =>
      some { s with pop := .idle, mutex := none, queue := queue, returned := s.returned ++ [o] }
    | _, _ => none
  | .storeDone =>
    match s.shutdown with
    | .before => some { s with shutdown := .stored, done := true }
    | _ => none
  | .notifyAll =>
    match s.shutdown with
    | .stored => some { s with shutdown := .completed, pop := s.notify }
    | _ => none

/-- What each event requires and does. -/
inductive Does (s : MutexQueue P) : QueueEvent P → MutexQueue P → Prop where
  | lockPush {o : Order P} (hpush : s.push = .idle) (hfree : s.mutex = none) :
      Does s (.lockPush o) { s with push := .locked o, mutex := some .producer }
  | enqueue {o : Order P} (hpush : s.push = .locked o) :
      Does s .enqueue { s with push := .enqueued, queue := s.queue ++ [o] }
  | unlockPush (hpush : s.push = .enqueued) :
      Does s .unlockPush { s with push := .notifying, mutex := none }
  | notifyOne (hpush : s.push = .notifying) :
      Does s .notifyOne { s with push := .idle, pop := s.notify }
  | lockPop (hpop : s.pop = .idle) (hfree : s.mutex = none) :
      Does s .lockPop { s with pop := .testing, mutex := some .consumer }
  | testTrue (hpop : s.pop = .testing) (htrue : s.queue ≠ [] ∨ s.done = true) :
      Does s .test { s with pop := .passed }
  | testFalse (hpop : s.pop = .testing) (hempty : s.queue = []) (hdone : s.done = false) :
      Does s .test { s with pop := .failed }
  | block (hpop : s.pop = .failed) : Does s .block { s with pop := .blocked, mutex := none }
  | relock (hpop : s.pop = .woken) (hfree : s.mutex = none) :
      Does s .relock { s with pop := .testing, mutex := some .consumer }
  | drained (hpop : s.pop = .passed) (hempty : s.queue = []) :
      Does s .take { s with pop := .stopped, mutex := none }
  | take {o : Order P} {queue : List (Order P)} (hpop : s.pop = .passed)
      (hqueue : s.queue = o :: queue) :
      Does s .take { s with
        pop := .idle, mutex := none, queue := queue, returned := s.returned ++ [o] }
  | storeDone (hshut : s.shutdown = .before) :
      Does s .storeDone { s with shutdown := .stored, done := true }
  | notifyAll (hshut : s.shutdown = .stored) :
      Does s .notifyAll { s with shutdown := .completed, pop := s.notify }

theorem step_does {s t : MutexQueue P} {e : QueueEvent P} (h : s.step e = some t) :
    Does s e t := by
  cases e with
  | test =>
    simp only [step] at h
    split at h
    · rename_i hpop
      obtain rfl := Option.some.inj h
      by_cases htrue : s.queue ≠ [] ∨ s.done = true
      · have hpred : (!s.queue.isEmpty || s.done) = true := by simpa using htrue
        simp only [hpred, if_true]
        exact .testTrue hpop htrue
      · have hpred : (!s.queue.isEmpty || s.done) = false := by simpa using htrue
        simp only [hpred]
        simp only [not_or, ne_eq, not_not, Bool.not_eq_true] at htrue
        exact .testFalse hpop htrue.1 htrue.2
    · cases h
  | _ =>
    simp only [step] at h
    split at h
    all_goals cases h
    all_goals constructor <;> assumption

/-- `shutdown` has returned and the consumer waits for a notification. -/
def Stuck (s : MutexQueue P) : Prop := s.shutdown = .completed ∧ s.pop = .blocked

/-- The event is not `shutdown` notifying between the consumer's failed test
and its block. -/
def notifiesInTime (s : MutexQueue P) : QueueEvent P → Bool
  | .notifyAll => s.pop ≠ .failed
  | _ => true

theorem notify_ne_blocked (s : MutexQueue P) : s.notify ≠ .blocked := by
  unfold notify
  split
  · decide
  · assumption

/-- A notification changes where the consumer is only if it was blocked. -/
theorem notify_eq_iff {s : MutexQueue P} {pc : PopPc} (hb : pc ≠ .blocked) (hw : pc ≠ .woken) :
    s.notify = pc ↔ s.pop = pc := by
  unfold notify
  split
  · rename_i hpop
    rw [hpop]
    exact ⟨fun h => absurd h.symm hw, fun h => absurd h.symm hb⟩
  · rfl

/-- Once `shutdown` has stored the flag it stays up, and once it has notified
the consumer neither waits nor is about to. -/
structure Awake (s : MutexQueue P) : Prop where
  stored : s.shutdown ≠ .before → s.done = true
  moving : s.shutdown = .completed → s.pop ≠ .blocked ∧ s.pop ≠ .failed

theorem Awake.step {s t : MutexQueue P} {e : QueueEvent P} (h : Awake s)
    (hok : s.notifiesInTime e = true) (hstep : s.step e = some t) : Awake t := by
  have hcompleted : s.shutdown = .completed → s.done = true := fun hs =>
    h.stored (by rw [hs]; decide)
  cases step_does hstep with
  | lockPush | enqueue | unlockPush => exact ⟨h.stored, h.moving⟩
  | notifyOne =>
    refine ⟨h.stored, fun hs => ⟨s.notify_ne_blocked, fun hf => ?_⟩⟩
    exact (h.moving hs).2 ((notify_eq_iff (by decide) (by decide)).mp hf)
  | lockPop | testTrue | relock | drained | take => exact ⟨h.stored, fun _ => by simp⟩
  | testFalse hpop hempty hdone =>
    refine ⟨h.stored, fun hs => ?_⟩
    have hflag : s.done = true := hcompleted hs
    rw [hdone] at hflag
    cases hflag
  | block hpop =>
    refine ⟨h.stored, fun hs => ?_⟩
    exact absurd hpop (h.moving hs).2
  | storeDone hshut => exact ⟨fun _ => rfl, fun hs => by cases hs⟩
  | notifyAll hshut =>
    have hpop : s.pop ≠ .failed := by simpa [notifiesInTime] using hok
    refine ⟨fun _ => h.stored (by rw [hshut]; decide), fun _ => ⟨s.notify_ne_blocked, ?_⟩⟩
    exact fun hf => hpop ((notify_eq_iff (by decide) (by decide)).mp hf)

/-- **When no shutdown wakeup is lost.** In runs in which `shutdown` never
notifies between the consumer's failed test and its block, no state has
`shutdown` completed and the consumer blocked. In a run in which it does, the
consumer's next step leads to such a state. -/
theorem wakeup_not_lost_in_time :
    (∀ s : MutexQueue P, Reachable (restrict step notifiesInTime) init s → ¬ s.Stuck) ∧
      ∀ s t : MutexQueue P, s.step .notifyAll = some t → s.notifiesInTime .notifyAll = false →
        ∃ u, t.step .block = some u ∧ u.Stuck := by
  constructor
  · intro s hs hstuck
    have hinv : Awake s := by
      refine hs.invariant ⟨fun hne => absurd rfl hne, fun hc => by cases hc⟩ ?_
      intro s e t h he
      obtain ⟨hok, hstep⟩ := restrict_some.mp he
      exact h.step hok hstep
    exact (hinv.moving hstuck.1).1 hstuck.2
  · intro s t hstep hlate
    cases step_does hstep with
    | notifyAll hshut =>
      have hpop : s.pop = .failed := by simpa [notifiesInTime] using hlate
      refine ⟨{ s with shutdown := .completed, pop := .blocked, mutex := none }, ?_, rfl, rfl⟩
      simp [step, notify, hpop]

/-- The consumer blocks before `shutdown` notifies, and stops. -/
theorem wakeup_not_lost_blocked_before :
    ∃ s : MutexQueue UInt64, exec (restrict step notifiesInTime) init
        [.lockPop, .test, .block, .storeDone, .notifyAll, .relock, .test, .take] = some s ∧
      ¬ s.Stuck ∧ s.pop = .stopped := by
  have hrun : (exec (restrict step notifiesInTime) (init : MutexQueue UInt64)
      [.lockPop, .test, .block, .storeDone, .notifyAll, .relock, .test, .take]).any
      (fun s => s.pop == .stopped) = true := by decide
  obtain ⟨s, hs, hq⟩ := exec_any hrun
  exact ⟨s, hs, wakeup_not_lost_in_time.1 s (Reachable.start.exec hs), by simpa using hq⟩

/-- The whole of `shutdown` runs between the consumer's test and its block. -/
theorem shutdown_wakeup_lost :
    ∃ s : MutexQueue UInt64,
      exec step init [.lockPop, .test, .storeDone, .notifyAll, .block] = some s ∧ s.Stuck :=
  ⟨_, rfl, rfl, rfl⟩

end MutexQueue

end TradingSystem
