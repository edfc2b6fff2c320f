import TradingSystem.StreamFraming
import TradingSystem.Lib.Transition

/-!
# The event loop of the feed handler

`TCPFeedHandler::run` and `stop` of `src/tcp_feed_handler.cpp` as threads that
interleave: the one in `run`, with every event of a batch and every message of
a buffer a step of its own, and any number of callers of `stop`, whose exchange
of `running_` and write to the pipe are two steps. What the kernel reports and
returns is the environment's choice, within what `epoll` and `accept` promise.

Whatever the interleaving, the handler is in the state that the events
dispatched so far lead to, one after the other. `stop` is heard if it begins
after `run` has stored `running_`, and lost if it ends before.
-/

namespace TradingSystem

open Transition FeedHandler Framing

/-- One entry of the array `epoll_wait` fills. The serial number is that of the
connection the kernel reports and exists in the model only. -/
structure EpollEvent where
  fd : ℕ
  hangup : Bool
  readable : Bool
  serial : ℕ
  deriving DecidableEq

/-- Where the thread in `run` is, with what is left of the batch. -/
inductive LoopPc (P : Type) where
  /-- before `running_.store(true)` -/
  | setup
  /-- at the condition of the outer loop -/
  | testing
  /-- in `epoll_wait` -/
  | waiting
  | dispatching (rest : List EpollEvent)
  /-- in `accept_connections` -/
  | accepting (rest : List EpollEvent)
  /-- in `handle_client_data` -/
  | reading (fd : ℕ) (rest : List EpollEvent)
  /-- in `process_buffer` -/
  | processing (fd : ℕ) (rest : List EpollEvent)
  /-- at `queue_.push`, with the order and the serial number of its connection -/
  | pushing (p : ℕ × Order P) (fd : ℕ) (rest : List EpollEvent)
  | returned

namespace LoopPc

variable {P : Type}

/-- The events of the batch that are still to come. -/
def rest : LoopPc P → List EpollEvent
  | .dispatching rest | .accepting rest | .reading _ rest | .processing _ rest
  | .pushing _ _ rest => rest
  | .setup | .testing | .waiting | .returned => []

/-- The descriptor whose event is being handled. -/
def busy : LoopPc P → Option ℕ
  | .reading fd _ | .processing fd _ | .pushing _ fd _ => some fd
  | .setup | .testing | .waiting | .dispatching _ | .accepting _ | .returned => none

/-- The order taken off a buffer whose `push` has not begun. -/
def inHand : LoopPc P → List (ℕ × Order P)
  | .pushing p _ _ => [p]
  | .setup | .testing | .waiting | .dispatching _ | .accepting _ | .reading _ _
  | .processing _ _ | .returned => []

theorem inHand_of_idle {pc : LoopPc P} (h : pc.busy = none) : pc.inHand = [] := by
  cases pc with
  | pushing => cases h
  | _ => rfl

end LoopPc

/-- What `accept` returns. -/
inductive AcceptResult where
  | client (fd : ℕ)
  /-- `EAGAIN` or `EWOULDBLOCK` -/
  | again
  /-- any other error -/
  | failed

/-- `dispatched` lists what was done to connections, and `stopped` says that a
call of `stop` has returned; both exist in the model only. -/
structure EventLoop (P : Type) where
  stopReadFd : ℕ
  listenFd : ℕ
  handler : FeedHandler P
  running : Bool
  /-- The bytes in the stop pipe; nothing reads them. -/
  pipe : ℕ
  pc : LoopPc P
  /-- The calls of `stop` that took the flag down and are about to write. -/
  writers : ℕ
  dispatched : List FeedEvent
  stopped : Bool

inductive LoopEvent where
  | start
  | load
  | interrupted
  | wait (batch : List EpollEvent)
  | next
  | accept (r : AcceptResult)
  | recv (chunks : List (List UInt8)) (last : RecvEnd)
  | decode
  | pushed
  | exchange
  | write

namespace EventLoop

def maxEvents : ℕ := 64

variable {P : Type}

def init (stopReadFd listenFd : ℕ) : EventLoop P where
  stopReadFd := stopReadFd
  listenFd := listenFd
  handler := .init
  running := false
  pipe := 0
  pc := .setup
  writers := 0
  dispatched := []
  stopped := false

/-- A descriptor that `epoll` can report: the pipe when it holds a byte, the
listening socket, a registered connection. -/
def ready (s : EventLoop P) (ev : EpollEvent) : Bool :=
  if ev.fd = s.stopReadFd then 0 < s.pipe
  else if ev.fd = s.listenFd then true
  else (s.handler.connections ev.fd).any (·.serial == ev.serial)

/-- A batch `epoll_wait` can return: each descriptor at most once. -/
def reports (s : EventLoop P) (batch : List EpollEvent) : Bool :=
  !batch.isEmpty && batch.length ≤ maxEvents && (batch.map EpollEvent.fd).Nodup &&
    batch.all s.ready

/-- A descriptor the kernel can hand out. -/
def unused (s : EventLoop P) (fd : ℕ) : Bool :=
  fd ≠ s.stopReadFd && fd ≠ s.listenFd && (s.handler.connections fd).isNone

def step (price : UInt64 → P) (s : EventLoop P) : LoopEvent → Option (EventLoop P)
  | .start =>
    match s.pc with
    | .setup => some { s with running := true, pc := .testing }
    | _ => none
  | .load =>
    match s.pc with
    | .testing => some { s with pc := if s.running then .waiting else .returned }
    | _ => none
  | .interrupted =>
    match s.pc with
    | .waiting => some { s with pc := .testing }
    | _ => none
  | .wait batch =>
    match s.pc with
    | .waiting => if s.reports batch then some { s with pc := .dispatching batch } else none
    | _ => none
  | .next =>
    match s.pc with
    | .dispatching [] => some { s with pc := .testing }
    | .dispatching (ev :: rest) =>
      if ev.fd = s.stopReadFd then some { s with running := false, pc := .testing }
      else if ev.fd = s.listenFd then some { s with pc := .accepting rest }
      else if ev.hangup then some { s with
        handler := s.handler.closeConnection ev.fd
        dispatched := s.dispatched ++ [.hangup ev.fd]
        pc := .dispatching rest }
      else if ev.readable then some { s with pc := .reading ev.fd rest }
      else some { s with pc := .dispatching rest }
    | _ => none
  | .accept r =>
    match s.pc with
    | .accepting rest =>
      match r with
      | .client fd =>
        if s.unused fd then some { s with
          handler := s.handler.acceptConnection fd
          dispatched := s.dispatched ++ [.accept fd] }
        else none
      | .again => some { s with pc := .dispatching rest }
      | .failed => some s
    | _ => none
  | .recv chunks last =>
    match s.pc with
    | .reading fd rest =>
      match s.handler.connections fd with
      | none => some { s with pc := .dispatching rest }
      | some _ =>
        let h := chunks.foldl (receive fd) s.handler
        let done := s.dispatched ++ [.readable fd chunks last]
        match last with
        | .again => some { s with handler := h, dispatched := done, pc := .processing fd rest }
        | .eof | .error => some { s with
            handler := h.closeConnection fd, dispatched := done, pc := .dispatching rest }
    | _ => none
  | .decode =>
    match s.pc with
    | .processing fd rest =>
      match s.handler.connections fd with
      | none => some { s with pc := .dispatching rest }
      | some conn =>
        if kWireOrderSize ≤ conn.buf.length then
          let o := orderOf price (conn.buf.take kWireOrderSize)
          some { s with
            handler := { s.handler with
              connections := Function.update s.handler.connections fd
                (some { conn with buf := conn.buf.drop kWireOrderSize })
              queue := s.handler.queue ++ [(conn.serial, o)] }
            pc := .pushing (conn.serial, o) fd rest }
        else some { s with pc := .dispatching rest }
    | _ => none
  | .pushed =>
    match s.pc with
    | .pushing _ fd rest => some { s with pc := .processing fd rest }
    | _ => none
  | .exchange =>
    if s.running then some { s with running := false, writers := s.writers + 1 }
    -- the flag was down: `stop` returns
    else some { s with stopped := true }
  | .write =>
    if 0 < s.writers then some { s with
      writers := s.writers - 1, stopped := true, pipe := s.pipe + 1 }
    else none

/-- What each event requires and does. -/
inductive Does (price : UInt64 → P) (s : EventLoop P) : LoopEvent → EventLoop P → Prop where
  | start (hpc : s.pc = .setup) : Does price s .start { s with running := true, pc := .testing }
  | goOn (hpc : s.pc = .testing) (hrun : s.running = true) :
      Does price s .load { s with pc := .waiting }
  | leave (hpc : s.pc = .testing) (hrun : s.running = false) :
      Does price s .load { s with pc := .returned }
  | interrupted (hpc : s.pc = .waiting) : Does price s .interrupted { s with pc := .testing }
  | wait {batch : List EpollEvent} (hpc : s.pc = .waiting) (hbatch : s.reports batch = true) :
      Does price s (.wait batch) { s with pc := .dispatching batch }
  | batchDone (hpc : s.pc = .dispatching []) : Does price s .next { s with pc := .testing }
  | stopSeen {ev : EpollEvent} {rest : List EpollEvent} (hpc : s.pc = .dispatching (ev :: rest))
      (hfd : ev.fd = s.stopReadFd) : Does price s .next { s with running := false, pc := .testing }
  | listen {ev : EpollEvent} {rest : List EpollEvent} (hpc : s.pc = .dispatching (ev :: rest))
      (hfd : ev.fd = s.listenFd) : Does price s .next { s with pc := .accepting rest }
  | hangup {ev : EpollEvent} {rest : List EpollEvent} (hpc : s.pc = .dispatching (ev :: rest))
      (hstop : ev.fd ≠ s.stopReadFd) (hlisten : ev.fd ≠ s.listenFd) :
      Does price s .next { s with
        handler := s.handler.closeConnection ev.fd
        dispatched := s.dispatched ++ [.hangup ev.fd]
        pc := .dispatching rest }
  | readable {ev : EpollEvent} {rest : List EpollEvent} (hpc : s.pc = .dispatching (ev :: rest))
      (hstop : ev.fd ≠ s.stopReadFd) (hlisten : ev.fd ≠ s.listenFd) :
      Does price s .next { s with pc := .reading ev.fd rest }
  | skip {ev : EpollEvent} {rest : List EpollEvent} (hpc : s.pc = .dispatching (ev :: rest)) :
      Does price s .next { s with pc := .dispatching rest }
  | accepted {fd : ℕ} {rest : List EpollEvent} (hpc : s.pc = .accepting rest)
      (hfd : s.unused fd = true) :
      Does price s (.accept (.client fd)) { s with
        handler := s.handler.acceptConnection fd
        dispatched := s.dispatched ++ [.accept fd] }
  | acceptedAll {rest : List EpollEvent} (hpc : s.pc = .accepting rest) :
      Does price s (.accept .again) { s with pc := .dispatching rest }
  | acceptFailed {rest : List EpollEvent} (hpc : s.pc = .accepting rest) :
      Does price s (.accept .failed) s
  | unknown {fd : ℕ} {rest : List EpollEvent} {chunks : List (List UInt8)} {last : RecvEnd}
      (hpc : s.pc = .reading fd rest) (hconn : s.handler.connections fd = none) :
      Does price s (.recv chunks last) { s with pc := .dispatching rest }
  | received {fd : ℕ} {rest : List EpollEvent} {chunks : List (List UInt8)} {conn : ConnState}
      (hpc : s.pc = .reading fd rest) (hconn : s.handler.connections fd = some conn) :
      Does price s (.recv chunks .again) { s with
        handler := chunks.foldl (receive fd) s.handler
        dispatched := s.dispatched ++ [.readable fd chunks .again]
        pc := .processing fd rest }
  | closed {fd : ℕ} {rest : List EpollEvent} {chunks : List (List UInt8)} {last : RecvEnd}
      {conn : ConnState} (hpc : s.pc = .reading fd rest)
      (hconn : s.handler.connections fd = some conn) (hlast : last ≠ .again) :
      Does price s (.recv chunks last) { s with
        handler := (chunks.foldl (receive fd) s.handler).closeConnection fd
        dispatched := s.dispatched ++ [.readable fd chunks last]
        pc := .dispatching rest }
  | vanished {fd : ℕ} {rest : List EpollEvent} (hpc : s.pc = .processing fd rest)
      (hconn : s.handler.connections fd = none) :
      Does price s .decode { s with pc := .dispatching rest }
  | decoded {fd : ℕ} {rest : List EpollEvent} {conn : ConnState} (hpc : s.pc = .processing fd rest)
      (hconn : s.handler.connections fd = some conn) (hfull : kWireOrderSize ≤ conn.buf.length) :
      Does price s .decode { s with
        handler := { s.handler with
          connections := Function.update s.handler.connections fd
            (some { conn with buf := conn.buf.drop kWireOrderSize })
          queue := s.handler.queue ++
            [(conn.serial, orderOf price (conn.buf.take kWireOrderSize))] }
        pc := .pushing (conn.serial, orderOf price (conn.buf.take kWireOrderSize)) fd rest }
  | drained {fd : ℕ} {rest : List EpollEvent} {conn : ConnState} (hpc : s.pc = .processing fd rest)
      (hconn : s.handler.connections fd = some conn) (hshort : conn.buf.length < kWireOrderSize) :
      Does price s .decode { s with pc := .dispatching rest }
  | pushed {p : ℕ × Order P} {fd : ℕ} {rest : List EpollEvent} (hpc : s.pc = .pushing p fd rest) :
      Does price s .pushed { s with pc := .processing fd rest }
  | exchange (hrun : s.running = true) :
      Does price s .exchange { s with running := false, writers := s.writers + 1 }
  | exchangeDown (hrun : s.running = false) : Does price s .exchange { s with stopped := true }
  | write (hwriters : 0 < s.writers) :
      Does price s .write { s with
        writers := s.writers - 1, stopped := true, pipe := s.pipe + 1 }

variable {price : UInt64 → P} {s t : EventLoop P} {e : LoopEvent}

theorem step_does (h : step price s e = some t) : Does price s e t := by
  cases e with
  | load =>
    simp only [step] at h
    split at h
    · rename_i hpc
      obtain rfl := Option.some.inj h
      by_cases hrun : s.running = true
      · rw [if_pos hrun]
        exact .goOn hpc hrun
      · rw [if_neg hrun]
        exact .leave hpc (Bool.not_eq_true _ ▸ hrun)
    · cases h
  | recv chunks last =>
    simp only [step] at h
    split at h
    · rename_i hpc
      split at h
      · obtain rfl := Option.some.inj h
        exact .unknown hpc ‹_›
      · rename_i hconn
        cases last with
        | again =>
          obtain rfl := Option.some.inj h
          exact .received hpc hconn
        | eof | error =>
          obtain rfl := Option.some.inj h
          exact .closed hpc hconn nofun
    · cases h
  | decode =>
    simp only [step] at h
    split at h
    · rename_i hpc
      split at h
      · obtain rfl := Option.some.inj h
        exact .vanished hpc ‹_›
      · rename_i hconn
        split at h
        · obtain rfl := Option.some.inj h
          exact .decoded hpc hconn ‹_›
        · obtain rfl := Option.some.inj h
          exact .drained hpc hconn (Nat.not_le.mp ‹_›)
    · cases h
  | next =>
    simp only [step] at h
    split at h
    · obtain rfl := Option.some.inj h
      exact .batchDone ‹_›
    · rename_i hpc
      split at h
      · obtain rfl := Option.some.inj h
        exact .stopSeen hpc ‹_›
      · rename_i hstop
        split at h
        · obtain rfl := Option.some.inj h
          exact .listen hpc ‹_›
        · rename_i hlisten
          split at h
          · obtain rfl := Option.some.inj h
            exact .hangup hpc hstop hlisten
          · split at h
            · obtain rfl := Option.some.inj h
              exact .readable hpc hstop hlisten
            · obtain rfl := Option.some.inj h
              exact .skip hpc
    · cases h
  | accept r =>
    simp only [step] at h
    split at h
    · rename_i hpc
      cases r with
      | client fd =>
        simp only at h
        split at h
        · obtain rfl := Option.some.inj h
          exact .accepted hpc ‹_›
        · cases h
      | again =>
        obtain rfl := Option.some.inj h
        exact .acceptedAll hpc
      | failed =>
        obtain rfl := Option.some.inj h
        exact .acceptFailed hpc
    · cases h
  | wait batch =>
    simp only [step] at h
    split at h
    · rename_i hpc
      split at h
      · obtain rfl := Option.some.inj h
        exact .wait hpc ‹_›
      · cases h
    · cases h
  | exchange =>
    simp only [step] at h
    split at h
    · obtain rfl := Option.some.inj h
      exact .exchange ‹_›
    · obtain rfl := Option.some.inj h
      exact .exchangeDown (Bool.not_eq_true _ ▸ ‹_›)
  | write =>
    simp only [step] at h
    split at h
    · obtain rfl := Option.some.inj h
      exact .write ‹_›
    · cases h
  | _ =>
    simp only [step] at h
    split at h
    all_goals cases h
    all_goals constructor <;> assumption

/-! ## The loop does what the events say -/

theorem run_dispatched (h : FeedHandler P) (evs : List FeedEvent) (e : FeedEvent) :
    FeedHandler.run price h (evs ++ [e]) = FeedHandler.step price (FeedHandler.run price h evs) e :=
  List.foldl_concat ..

/-- A message that is taken off the buffer is one that `process_buffer` would
have pushed next. -/
theorem processBuffer_decoded {h : FeedHandler P} {fd : ℕ} {conn : ConnState}
    (hconn : h.connections fd = some conn) (hfull : kWireOrderSize ≤ conn.buf.length) :
    processBuffer price { h with
      connections := Function.update h.connections fd
        (some { conn with buf := conn.buf.drop kWireOrderSize })
      queue := h.queue ++ [(conn.serial, orderOf price (conn.buf.take kWireOrderSize))] } fd =
    processBuffer price h fd := by
  have hsize : 0 < kWireOrderSize := by decide
  rw [processBuffer_eq price hconn, processBuffer_eq price (Function.update_self _ _ _)]
  rw [leftover_of_le hsize hfull, frames_of_le hsize hfull]
  simp only [Function.update_idem, List.map_cons, List.append_assoc, List.singleton_append]

theorem processBuffer_short {h : FeedHandler P} {fd : ℕ} {conn : ConnState}
    (hconn : h.connections fd = some conn) (hshort : conn.buf.length < kWireOrderSize) :
    processBuffer price h fd = h := by
  rw [processBuffer_eq price hconn, leftover_of_lt hshort, frames_of_lt hshort, ← hconn,
    Function.update_eq_self]
  simp only [List.map_nil, List.append_nil]

/-- The handler, with the call of `process_buffer` that is under way carried
to its end. -/
def settled (price : UInt64 → P) (s : EventLoop P) : FeedHandler P :=
  match s.pc with
  | .processing fd _ | .pushing _ fd _ => processBuffer price s.handler fd
  | _ => s.handler

theorem handleClientData_closed {h : FeedHandler P} {fd : ℕ} {conn : ConnState}
    (hconn : h.connections fd = some conn) {last : RecvEnd} (hlast : last ≠ .again)
    (chunks : List (List UInt8)) :
    handleClientData price h fd chunks last =
      (chunks.foldl (receive fd) h).closeConnection fd := by
  cases last with
  | again => exact absurd rfl hlast
  | eof | error => simp only [handleClientData, hconn]

theorem settled_step (h : s.settled price = FeedHandler.run price .init s.dispatched)
    (hstep : Does price s e t) :
    t.settled price = FeedHandler.run price .init t.dispatched := by
  cases hstep with
  | exchange | exchangeDown | write | acceptFailed => exact h
  | hangup hpc =>
    simp only [settled, hpc] at h
    rw [run_dispatched, ← h]
    rfl
  | accepted hpc =>
    simp only [settled, hpc] at h ⊢
    rw [run_dispatched, ← h]
    rfl
  | received hpc hconn =>
    simp only [settled, hpc] at h ⊢
    rw [run_dispatched, ← h]
    simp only [FeedHandler.step, handleClientData, hconn]
  | closed hpc hconn hlast =>
    simp only [settled, hpc] at h ⊢
    rw [run_dispatched, ← h]
    exact (handleClientData_closed hconn hlast _).symm
  | decoded hpc hconn hfull =>
    simp only [settled, hpc] at h ⊢
    rw [← h]
    exact processBuffer_decoded hconn hfull
  | drained hpc hconn hshort =>
    simp only [settled, hpc, processBuffer_short hconn hshort] at h
    exact h
  | vanished hpc hconn =>
    simp only [settled, hpc, processBuffer, hconn] at h
    exact h
  | start hpc | goOn hpc | leave hpc | interrupted hpc | wait hpc | batchDone hpc | stopSeen hpc
  | listen hpc | readable hpc | skip hpc | acceptedAll hpc | unknown hpc | pushed hpc =>
    simp only [settled, hpc] at h
    exact h

theorem receive_queue {h : FeedHandler P} {fd : ℕ} {conn : ConnState}
    (hconn : h.connections fd = some conn) (chunks : List (List UInt8)) :
    (chunks.foldl (receive fd) h).queue = h.queue := by
  rw [receive_all hconn chunks]

/-- Only `process_buffer` takes an order in hand, and only for `push`. -/
theorem Does.in_hand (h : Does price s e t) (hpushed : e ≠ .pushed) :
    (t.pc.inHand = s.pc.inHand ∧ t.handler.queue = s.handler.queue ∧
      (s.pc = .returned → t.pc = .returned)) ∨
    ∃ p, s.pc.inHand = [] ∧ t.pc.inHand = [p] ∧ s.pc ≠ .returned ∧
      t.handler.queue = s.handler.queue ++ [p] := by
  cases h with
  | exchange | exchangeDown | write | acceptFailed | accepted => exact .inl ⟨rfl, rfl, id⟩
  | pushed => exact absurd rfl hpushed
  | decoded hpc =>
    refine .inr ⟨_, ?_, rfl, ?_, rfl⟩
    · rw [hpc]
      rfl
    · rw [hpc]
      nofun
  | received hpc hconn | closed hpc hconn =>
    refine .inl ⟨?_, receive_queue hconn _, ?_⟩
    · rw [hpc]
      rfl
    · rw [hpc]
      nofun
  | start hpc | goOn hpc | leave hpc | interrupted hpc | wait hpc | batchDone hpc | stopSeen hpc
  | listen hpc | hangup hpc | readable hpc | skip hpc | acceptedAll hpc | unknown hpc
  | vanished hpc | drained hpc =>
    refine .inl ⟨?_, rfl, ?_⟩
    · rw [hpc]
      rfl
    · rw [hpc]
      nofun

/-- When `run` has returned only `stop` has steps to take. -/
theorem Does.of_returned (h : Does price s e t) (hreturned : s.pc = .returned) :
    e = .exchange ∨ e = .write := by
  cases h with
  | exchange | exchangeDown => exact .inl rfl
  | write => exact .inr rfl
  | start hpc | goOn hpc | leave hpc | interrupted hpc | wait hpc | batchDone hpc | stopSeen hpc
  | listen hpc | hangup hpc | readable hpc | skip hpc | accepted hpc | acceptedAll hpc
  | acceptFailed hpc | unknown hpc | received hpc | closed hpc | vanished hpc | decoded hpc
  | drained hpc | pushed hpc =>
    rw [hreturned] at hpc
    cases hpc

theorem processBuffer_queue (h : FeedHandler P) (fd : ℕ) :
    h.queue <+: (processBuffer price h fd).queue := by
  cases hconn : h.connections fd with
  | none => simp [processBuffer, hconn]
  | some conn =>
    rw [processBuffer_eq price hconn]
    exact List.prefix_append _ _

theorem queue_prefix_settled (price : UInt64 → P) (s : EventLoop P) :
    s.handler.queue <+: (s.settled price).queue := by
  unfold settled
  split
  · exact processBuffer_queue _ _
  · exact processBuffer_queue _ _
  · exact List.prefix_rfl

theorem processBuffer_received (h : FeedHandler P) (fd : ℕ) :
    (processBuffer price h fd).received = h.received := by
  unfold processBuffer
  split <;> rfl

theorem settled_received (price : UInt64 → P) (s : EventLoop P) :
    (s.settled price).received = s.handler.received := by
  unfold settled
  split
  · exact processBuffer_received _ _
  · exact processBuffer_received _ _
  · rfl

theorem settled_of_idle (h : s.pc.busy = none) : s.settled price = s.handler := by
  unfold settled
  split
  · rename_i hpc
    rw [hpc] at h
    cases h
  · rename_i hpc
    rw [hpc] at h
    cases h
  · rfl

/-! ## Events and the connections they were reported for -/

/-- The connection an event stands for is still the one under its descriptor. -/
def Reported (s : EventLoop P) (ev : EpollEvent) : Prop :=
  ev.fd ≠ s.stopReadFd → ev.fd ≠ s.listenFd →
    ∃ conn, s.handler.connections ev.fd = some conn ∧ conn.serial = ev.serial

theorem Reported.same_fd {ev : EpollEvent} (h : s.Reported ev)
    (hstop : t.stopReadFd = s.stopReadFd) (hlisten : t.listenFd = s.listenFd)
    (hconn : t.handler.connections ev.fd = s.handler.connections ev.fd) : t.Reported ev := by
  intro hs hl
  rw [hconn]
  exact h (hstop ▸ hs) (hlisten ▸ hl)

theorem Reported.ne_unused {ev : EpollEvent} {fd : ℕ} (h : s.Reported ev)
    (hfd : s.unused fd = true) : ev.fd ≠ fd := by
  rintro rfl
  simp only [unused, ne_eq, decide_not, Bool.and_eq_true, Bool.not_eq_true', decide_eq_false_iff_not,
    Option.isNone_iff_eq_none] at hfd
  obtain ⟨⟨hstop, hlisten⟩, hnone⟩ := hfd
  obtain ⟨conn, hconn, -⟩ := h hstop hlisten
  rw [hnone] at hconn
  cases hconn

theorem reported_of_reports {batch : List EpollEvent} (h : s.reports batch = true) :
    (batch.map EpollEvent.fd).Nodup ∧ ∀ ev ∈ batch, s.Reported ev := by
  simp only [reports, Bool.and_eq_true, decide_eq_true_eq, List.all_eq_true] at h
  obtain ⟨⟨-, hnodup⟩, hready⟩ := h
  refine ⟨hnodup, fun ev hev hstop hlisten => ?_⟩
  have hev := hready ev hev
  rw [ready, if_neg hstop, if_neg hlisten, Option.any_eq_true] at hev
  obtain ⟨conn, hconn, hserial⟩ := hev
  exact ⟨conn, hconn, beq_iff_eq.mp hserial⟩

/-- What is left of a batch is about distinct descriptors, each with the
connection it was reported for; the one that is being read has left the batch
and is open. -/
structure Current (s : EventLoop P) : Prop where
  nodup : (s.pc.rest.map EpollEvent.fd).Nodup
  reported : ∀ ev ∈ s.pc.rest, s.Reported ev
  busy : ∀ fd, s.pc.busy = some fd →
    fd ∉ s.pc.rest.map EpollEvent.fd ∧ ∃ conn, s.handler.connections fd = some conn

theorem receive_connections_self {h : FeedHandler P} {fd : ℕ} {conn : ConnState}
    (hconn : h.connections fd = some conn) (chunks : List (List UInt8)) :
    (chunks.foldl (receive fd) h).connections fd =
      some { conn with buf := conn.buf ++ chunks.flatten } := by
  rw [receive_all hconn chunks]
  exact Function.update_self _ _ _

theorem receive_connections_ne {h : FeedHandler P} {fd fd' : ℕ} {conn : ConnState}
    (hconn : h.connections fd = some conn) (hne : fd' ≠ fd) (chunks : List (List UInt8)) :
    (chunks.foldl (receive fd) h).connections fd' = h.connections fd' := by
  rw [receive_all hconn chunks]
  exact Function.update_of_ne hne _ _

theorem Current.step (h : Current s) (hstep : Does price s e t) : Current t := by
  have hnodup := h.nodup
  have hreported := h.reported
  have hbusy := h.busy
  cases hstep with
  | exchange | exchangeDown | write => exact ⟨hnodup, hreported, hbusy⟩
  | acceptFailed => exact h
  | start | goOn | leave | interrupted | batchDone | stopSeen =>
    exact ⟨List.nodup_nil, fun _ hev => absurd hev List.not_mem_nil, nofun⟩
  | wait hpc hbatch =>
    obtain ⟨hnodup, hreported⟩ := reported_of_reports hbatch
    exact ⟨hnodup, hreported, nofun⟩
  | listen hpc | skip hpc =>
    rw [hpc] at hnodup hreported
    exact ⟨hnodup.of_cons, fun ev hev => hreported ev (List.mem_cons_of_mem _ hev), nofun⟩
  | acceptedAll hpc | unknown hpc | vanished hpc | drained hpc =>
    rw [hpc] at hnodup hreported
    exact ⟨hnodup, hreported, nofun⟩
  | pushed hpc =>
    rw [hpc] at hnodup hreported hbusy
    exact ⟨hnodup, hreported, hbusy⟩
  | hangup hpc =>
    rw [hpc] at hnodup hreported
    refine ⟨hnodup.of_cons, fun ev hev => ?_, nofun⟩
    have hne : ev.fd ≠ _ := fun heq =>
      (List.nodup_cons.mp hnodup).1 (List.mem_map.mpr ⟨ev, hev, heq⟩)
    exact (hreported ev (List.mem_cons_of_mem _ hev)).same_fd rfl rfl (Function.update_of_ne hne _ _)
  | readable hpc hstop hlisten =>
    rw [hpc] at hnodup hreported
    refine ⟨hnodup.of_cons, fun ev hev => hreported ev (List.mem_cons_of_mem _ hev), ?_⟩
    rintro fd ⟨rfl⟩
    obtain ⟨conn, hconn, -⟩ := hreported _ List.mem_cons_self hstop hlisten
    exact ⟨(List.nodup_cons.mp hnodup).1, conn, hconn⟩
  | accepted hpc hfd =>
    refine ⟨hnodup, fun ev hev => ?_, fun fd hfd => ?_⟩
    · have hold := hreported ev hev
      exact hold.same_fd rfl rfl (Function.update_of_ne (hold.ne_unused hfd) _ _)
    · simp only [hpc] at hfd
      cases hfd
  | received hpc hconn =>
    rw [hpc] at hnodup hreported hbusy
    obtain ⟨hout, -⟩ := hbusy _ rfl
    refine ⟨hnodup, fun ev hev => ?_, ?_⟩
    · have hne : ev.fd ≠ _ := fun heq => hout (List.mem_map.mpr ⟨ev, hev, heq⟩)
      exact (hreported ev hev).same_fd rfl rfl (receive_connections_ne hconn hne _)
    · rintro fd ⟨rfl⟩
      exact ⟨hout, _, receive_connections_self hconn _⟩
  | closed hpc hconn =>
    rw [hpc] at hnodup hreported hbusy
    obtain ⟨hout, -⟩ := hbusy _ rfl
    refine ⟨hnodup, fun ev hev => ?_, nofun⟩
    have hne : ev.fd ≠ _ := fun heq => hout (List.mem_map.mpr ⟨ev, hev, heq⟩)
    refine (hreported ev hev).same_fd rfl rfl ?_
    exact (Function.update_of_ne hne _ _).trans (receive_connections_ne hconn hne _)
  | decoded hpc hconn =>
    rw [hpc] at hnodup hreported hbusy
    obtain ⟨hout, -⟩ := hbusy _ rfl
    refine ⟨hnodup, fun ev hev => ?_, ?_⟩
    · have hne : ev.fd ≠ _ := fun heq => hout (List.mem_map.mpr ⟨ev, hev, heq⟩)
      exact (hreported ev hev).same_fd rfl rfl (Function.update_of_ne hne _ _)
    · rintro fd ⟨rfl⟩
      exact ⟨hout, _, Function.update_self _ _ _⟩

variable {stopReadFd listenFd : ℕ}

theorem current_init : Current (init stopReadFd listenFd : EventLoop P) :=
  ⟨List.nodup_nil, fun _ hev => absurd hev List.not_mem_nil, nofun⟩

theorem reachable_current (h : Reachable (step price) (init stopReadFd listenFd) s) : Current s :=
  h.invariant current_init fun _ _ _ hs he => hs.step (step_does he)

theorem reachable_settled (h : Reachable (step price) (init stopReadFd listenFd) s) :
    s.settled price = FeedHandler.run price .init s.dispatched := by
  refine h.invariant (I := fun s => s.settled price = FeedHandler.run price .init s.dispatched) rfl ?_
  exact fun _ _ _ hs he => settled_step hs (step_does he)

/-- **Every event finds its connection.** Descriptors are closed and given out
again while a batch is worked off. An event of the batch still meets the
connection it was reported for, and the lookups in `handle_client_data` and
`process_buffer` succeed. At every moment the handler is where the events
dispatched so far lead, one after the other, once the messages of the current
one are pushed. -/
theorem event_finds_connection (h : Reachable (step price) (init stopReadFd listenFd) s) :
    (∀ ev ∈ s.pc.rest, s.Reported ev) ∧
      (∀ fd, s.pc.busy = some fd → ∃ conn, s.handler.connections fd = some conn) ∧
      s.settled price = FeedHandler.run price .init s.dispatched := by
  have hcurrent := reachable_current h
  exact ⟨hcurrent.reported, fun fd hfd => (hcurrent.busy fd hfd).2, reachable_settled h⟩

/-- The bytes of a limit order with small numbers in its fields and no symbol. -/
def message (orderId side price qty : UInt8) : List UInt8 :=
  orderId :: List.replicate 15 0 ++ side :: List.replicate 15 0 ++ price :: List.replicate 7 0 ++
    qty :: List.replicate 7 0

/-- In one batch a connection hangs up, a new one gets its descriptor, and a
third one is readable. -/
def hangupAcceptRead : List LoopEvent :=
  [.start, .load, .wait [⟨4, false, true, 0⟩], .next, .accept (.client 7), .accept (.client 8),
    .accept .again, .next, .load,
    .wait [⟨7, true, false, 0⟩, ⟨4, false, true, 0⟩, ⟨8, false, true, 1⟩], .next, .next,
    .accept (.client 7), .accept .again, .next, .recv [message 1 0 100 5] .again, .decode]

theorem event_finds_connection_read_last :
    ∃ s : EventLoop UInt64, exec (step id) (init 3 4) hangupAcceptRead = some s ∧
      s.pc.busy = some 8 ∧ s.handler.queue.length = 1 ∧
      s.settled id = FeedHandler.run id .init s.dispatched := by
  have hrun : (exec (step id) (init 3 4 : EventLoop UInt64) hangupAcceptRead).any
      (fun s => s.pc.busy == some 8 && s.handler.queue.length == 1) = true := by decide +kernel
  obtain ⟨s, hs, hq⟩ := exec_any hrun
  obtain ⟨hbusy, hlength⟩ := Bool.and_eq_true_iff.mp hq
  exact ⟨s, hs, beq_iff_eq.mp hbusy, beq_iff_eq.mp hlength,
    (event_finds_connection (Reachable.start.exec hs)).2.2⟩

/-! ## Stopping the loop -/

/-- No call of `stop` begins before `run` has stored `running_`. -/
def stopsLater (s : EventLoop P) : LoopEvent → Bool
  | .exchange => match s.pc with
    | .setup => false
    | _ => true
  | _ => true

/-- The next test of the flag ends the loop, and `epoll_wait` does not block for
long: there is a byte in the pipe, or a call of `stop` is about to write it. -/
structure Heeds (s : EventLoop P) : Prop where
  flag : s.running = false
  awake : s.pc = .waiting → 0 < s.pipe ∨ 0 < s.writers

/-- Before the store no call of `stop` has begun; after it the first one takes
the flag down, for good, and brings the byte. -/
structure Stops (s : EventLoop P) : Prop where
  setup : s.pc = .setup → s.writers = 0 ∧ s.stopped = false
  flag : s.stopped = true ∨ 0 < s.writers → s.running = false
  awake : s.running = false → s.pc = .waiting → 0 < s.pipe ∨ 0 < s.writers

theorem Stops.step (h : Stops s) (hok : s.stopsLater e = true) (hstep : Does price s e t) :
    Stops t := by
  have hsetup : e = .exchange → s.pc ≠ .setup := by
    rintro rfl hpc
    simp only [stopsLater, hpc] at hok
    cases hok
  cases hstep with
  | start hpc =>
    obtain ⟨hnone, hnever⟩ := h.setup hpc
    refine ⟨nofun, fun hany => ?_, nofun⟩
    rcases hany with hstopped | hwriters
    · exact absurd (hnever ▸ hstopped) (by decide)
    · exact absurd hnone (Nat.ne_of_gt hwriters)
  | goOn hpc hrun => exact ⟨nofun, h.flag, fun hdown => absurd (hrun ▸ hdown) (by decide)⟩
  | stopSeen hpc => exact ⟨nofun, fun _ => rfl, nofun⟩
  | exchange hrun =>
    exact ⟨fun hpc => absurd hpc (hsetup rfl), fun _ => rfl, fun _ _ => .inr (Nat.succ_pos _)⟩
  | exchangeDown hdown => exact ⟨fun hpc => absurd hpc (hsetup rfl), fun _ => hdown, h.awake⟩
  | write hwriters =>
    refine ⟨fun hpc => ?_, fun _ => h.flag (.inr hwriters), fun _ _ => .inl (Nat.succ_pos _)⟩
    exact absurd (h.setup hpc).1 (Nat.ne_of_gt hwriters)
  | acceptFailed => exact h
  | accepted hpc =>
    refine ⟨fun hsetup => ?_, h.flag, fun _ hwaiting => ?_⟩
    · rw [show s.pc = .setup from hsetup] at hpc
      cases hpc
    · rw [show s.pc = .waiting from hwaiting] at hpc
      cases hpc
  | leave | interrupted | wait | batchDone | listen | hangup | readable | skip | acceptedAll
  | unknown | received | closed | vanished | decoded | drained | pushed =>
    exact ⟨nofun, h.flag, fun _ => nofun⟩

theorem stops_init : Stops (init stopReadFd listenFd : EventLoop P) :=
  ⟨fun _ => ⟨rfl, rfl⟩, fun _ => rfl, fun _ => nofun⟩

/-- Before the store nothing that `stop` does has an effect. -/
structure Unset (s : EventLoop P) : Prop where
  flag : s.pc = .setup → s.running = false
  quiet : s.pc = .setup → s.pipe = 0 ∧ s.writers = 0

theorem Unset.step (h : Unset s) (hstep : Does price s e t) : Unset t := by
  cases hstep with
  | exchange hrun =>
    have hset : s.pc ≠ .setup := fun hpc => absurd (hrun ▸ h.flag hpc) (by decide)
    exact ⟨fun _ => rfl, fun hpc => absurd hpc hset⟩
  | exchangeDown => exact ⟨h.flag, h.quiet⟩
  | write hwriters =>
    exact ⟨h.flag, fun hpc => absurd (h.quiet hpc).2 (Nat.ne_of_gt hwriters)⟩
  | acceptFailed => exact h
  | accepted => exact ⟨h.flag, h.quiet⟩
  | _ => exact ⟨nofun, nofun⟩

/-- **When `stop` is heard.** Any number of threads may call it. In runs in
which every call begins after `run` has stored `running_`, the loop heeds each
call that has returned. A call made before that store returns and leaves no
trace: the loop goes on to wait with its flag up, nothing in the pipe and
nobody about to write to it. -/
theorem stop_heard_once_running (price : UInt64 → P) :
    (∀ s : EventLoop P, Reachable (restrict (step price) stopsLater) (init stopReadFd listenFd) s →
      s.stopped = true → s.Heeds) ∧
    ∀ s : EventLoop P, Reachable (step price) (init stopReadFd listenFd) s → s.pc = .setup →
      ∃ t, exec (step price) s [.exchange, .start, .load] = some t ∧
        t.stopped = true ∧ t.running = true ∧ t.pc = .waiting ∧ t.pipe = 0 ∧ t.writers = 0 := by
  constructor
  · intro s hs hstopped
    have hinv : Stops s := by
      refine hs.invariant stops_init fun s e t h he => ?_
      obtain ⟨hok, hstep⟩ := restrict_some.mp he
      exact h.step hok (step_does hstep)
    have hdown : s.running = false := hinv.flag (.inl hstopped)
    exact ⟨hdown, hinv.awake hdown⟩
  · intro s hs hpc
    have hinv : Unset s := by
      refine hs.invariant ⟨fun _ => rfl, fun _ => ⟨rfl, rfl⟩⟩ ?_
      exact fun s e t h he => h.step (step_does he)
    have hdown := hinv.flag hpc
    obtain ⟨hempty, hnone⟩ := hinv.quiet hpc
    simp only [exec, step, hpc, hdown, Option.bind_some, if_true, Bool.false_eq_true, if_false]
    exact ⟨_, rfl, rfl, rfl, rfl, hempty, hnone⟩

/-- Two threads call `stop` while the loop is in `epoll_wait`. The second finds
the flag down and returns before the first has written. -/
theorem stop_heard_while_waiting :
    ∃ s : EventLoop UInt64, exec (restrict (step id) stopsLater) (init 3 4)
        [.start, .load, .exchange, .exchange] = some s ∧ s.writers = 1 ∧ s.Heeds := by
  have hrun : (exec (restrict (step id) stopsLater) (init 3 4 : EventLoop UInt64)
      [.start, .load, .exchange, .exchange]).any (fun s => s.stopped && s.writers == 1) = true := by
    decide
  obtain ⟨s, hs, hq⟩ := exec_any hrun
  obtain ⟨hstopped, hwriters⟩ := Bool.and_eq_true_iff.mp hq
  exact ⟨s, hs, beq_iff_eq.mp hwriters,
    (stop_heard_once_running id).1 s (Reachable.start.exec hs) hstopped⟩

end EventLoop

end TradingSystem
