import Mathlib.Logic.Function.Basic
import TradingSystem.Wire
import TradingSystem.Lib.Framing
import TradingSystem.Lib.Loop

/-!
# The TCP feed handler

`src/tcp_feed_handler.cpp`: one event loop over many connections. A readable
socket is read until `recv` has no more bytes, then the complete messages in
its buffer are pushed to the queue. The outcomes of `recv` are the
environment's choice and part of the event.

Descriptors are reused, so each accepted connection also gets a serial number
that exists in the model only: it labels the bytes received and the orders
pushed on behalf of a connection.
-/

namespace TradingSystem

open Framing

/-- How the `recv` loop of one call ends. -/
inductive RecvEnd where
  | again
  | eof
  | error
  deriving DecidableEq, Repr

structure ConnState where
  buf : List UInt8
  serial : ℕ

structure FeedHandler (P : Type) where
  connections : ℕ → Option ConnState
  queue : List (ℕ × Order P)
  accepted : ℕ
  received : ℕ → List UInt8

inductive FeedEvent where
  | accept (fd : ℕ)
  | readable (fd : ℕ) (chunks : List (List UInt8)) (last : RecvEnd)
  | hangup (fd : ℕ)

namespace FeedHandler

variable {P : Type}

def init : FeedHandler P := ⟨fun _ => none, [], 0, fun _ => []⟩

/-- `connections_[client_fd] = ConnState{}`. -/
def acceptConnection (h : FeedHandler P) (fd : ℕ) : FeedHandler P :=
  { h with
    connections := Function.update h.connections fd (some ⟨[], h.accepted⟩)
    accepted := h.accepted + 1 }

def closeConnection (h : FeedHandler P) (fd : ℕ) : FeedHandler P :=
  { h with connections := Function.update h.connections fd none }

/-- `buf.insert(buf.end(), tmp, tmp + nread)`. -/
def receive (fd : ℕ) (h : FeedHandler P) (bytes : List UInt8) : FeedHandler P :=
  match h.connections fd with
  | none => h
  | some conn =>
    { h with
      connections := Function.update h.connections fd (some { conn with buf := conn.buf ++ bytes })
      received := Function.update h.received conn.serial (h.received conn.serial ++ bytes) }

/-- The order in one block of the stream. -/
def orderOf (price : UInt64 → P) (block : List UInt8) : Order P :=
  wireToOrder price (.ofBytes block)

/-- One round of `process_buffer`, on the buffer and the queue. -/
def processStep (price : UInt64 → P) (serial : ℕ) (s : List UInt8 × List (ℕ × Order P)) :
    Option (List UInt8 × List (ℕ × Order P)) :=
  if kWireOrderSize ≤ s.1.length then
    some (s.1.drop kWireOrderSize, s.2 ++ [(serial, orderOf price (s.1.take kWireOrderSize))])
  else none

def processBuffer (price : UInt64 → P) (h : FeedHandler P) (fd : ℕ) : FeedHandler P :=
  match h.connections fd with
  | none => h
  | some conn =>
    let r := Loop.run (processStep price conn.serial) conn.buf.length (conn.buf, h.queue)
    { h with
      connections := Function.update h.connections fd (some { conn with buf := r.1 })
      queue := r.2 }

/-- `chunks` are what `recv` returns before it returns `last`. Nothing that is
in the buffer is parsed when the peer has closed. -/
def handleClientData (price : UInt64 → P) (h : FeedHandler P) (fd : ℕ)
    (chunks : List (List UInt8)) (last : RecvEnd) : FeedHandler P :=
  match h.connections fd with
  | none => h
  | some _ =>
    let h' := chunks.foldl (receive fd) h
    match last with
    | .again => processBuffer price h' fd
    | .eof | .error => h'.closeConnection fd

def step (price : UInt64 → P) (h : FeedHandler P) : FeedEvent → FeedHandler P
  | .accept fd => h.acceptConnection fd
  | .readable fd chunks last => handleClientData price h fd chunks last
  | .hangup fd => h.closeConnection fd

def run (price : UInt64 → P) (h : FeedHandler P) (evs : List FeedEvent) : FeedHandler P :=
  evs.foldl (step price) h

/-- The orders pushed for the connection with this serial number. -/
def pushedFor (h : FeedHandler P) (serial : ℕ) : List (Order P) :=
  (h.queue.filter (·.1 == serial)).map Prod.snd

/-! ## What the two loops do -/

theorem run_processStep (price : UInt64 → P) (serial : ℕ) {fuel : ℕ} {buf : List UInt8}
    (h : buf.length ≤ fuel) (queue : List (ℕ × Order P)) :
    Loop.run (processStep price serial) fuel (buf, queue) =
      (leftover kWireOrderSize buf,
        queue ++ (frames kWireOrderSize buf).map fun b => (serial, orderOf price b)) := by
  have hsize : 0 < kWireOrderSize := by decide
  induction fuel generalizing buf queue with
  | zero =>
    have hlt : buf.length < kWireOrderSize := by omega
    rw [Loop.run, leftover_of_lt hlt, frames_of_lt hlt]
    simp
  | succ fuel ih =>
    by_cases hlt : buf.length < kWireOrderSize
    · have hnone : processStep price serial (buf, queue) = none := if_neg (Nat.not_le.mpr hlt)
      rw [Loop.run_none hnone, leftover_of_lt hlt, frames_of_lt hlt]
      simp
    · have hle : kWireOrderSize ≤ buf.length := Nat.not_lt.mp hlt
      have hsome : processStep price serial (buf, queue) = some (buf.drop kWireOrderSize,
          queue ++ [(serial, orderOf price (buf.take kWireOrderSize))]) := if_pos hle
      rw [Loop.run_some hsome, ih (by rw [List.length_drop]; omega), leftover_of_le hsize hle,
        frames_of_le hsize hle, List.map_cons, List.append_assoc, List.singleton_append]

theorem processBuffer_eq (price : UInt64 → P) {h : FeedHandler P} {fd : ℕ} {conn : ConnState}
    (hconn : h.connections fd = some conn) :
    processBuffer price h fd =
      { h with
        connections := Function.update h.connections fd
          (some { conn with buf := leftover kWireOrderSize conn.buf })
        queue := h.queue ++
          (frames kWireOrderSize conn.buf).map fun b => (conn.serial, orderOf price b) } := by
  simp only [processBuffer, hconn, run_processStep price conn.serial (Nat.le_refl _)]

theorem receive_all {h : FeedHandler P} {fd : ℕ} {conn : ConnState}
    (hconn : h.connections fd = some conn) (chunks : List (List UInt8)) :
    chunks.foldl (receive fd) h =
      { h with
        connections := Function.update h.connections fd
          (some { conn with buf := conn.buf ++ chunks.flatten })
        received := Function.update h.received conn.serial
          (h.received conn.serial ++ chunks.flatten) } := by
  induction chunks generalizing h conn with
  | nil =>
    simp only [List.foldl_nil, List.flatten_nil, List.append_nil, Function.update_eq_self]
    rw [← hconn, Function.update_eq_self]
  | cons bytes chunks ih =>
    have hnext : receive fd h bytes =
        { h with
          connections := Function.update h.connections fd
            (some { conn with buf := conn.buf ++ bytes })
          received := Function.update h.received conn.serial
            (h.received conn.serial ++ bytes) } := by
      simp only [receive, hconn]
    have hself : (receive fd h bytes).connections fd =
        some { conn with buf := conn.buf ++ bytes } := by
      rw [hnext]
      exact Function.update_self _ _ _
    rw [List.foldl_cons, ih hself, hnext]
    simp only [Function.update_idem, Function.update_self, List.flatten_cons, List.append_assoc]

end FeedHandler

end TradingSystem
