import TradingSystem.EventLoop
import TradingSystem.Sharding

/-!
# Gateways and shards

`src/gateway_main.cpp`: a gateway process is an event loop whose queue is a
`ShardRouterQueue`. Any number of gateways run at once, each with its own
connections, and append to the shard logs that the engine processes drain.

From the bytes of a connection to the results of an engine: what was appended
for a connection is, in order, a beginning of the messages in its bytes, and
the appends of all gateways together are what the engines of the symbols see.
-/

namespace TradingSystem

open Transition FeedHandler Framing

variable {P : Type}

/-! ## No order without its bytes -/

/-- Connections, open or closed, have had no order pushed that is not the next
message of their bytes. -/
structure Covered (price : UInt64 → P) (h : FeedHandler P) : Prop extends Framed price h where
  pushed : ∀ serial, h.pushedFor serial <+:
    (frames kWireOrderSize (h.received serial)).map (orderOf price)

theorem Covered.step {price : UInt64 → P} {h : FeedHandler P} (hc : Covered price h)
    (e : FeedEvent) : Covered price (FeedHandler.step price h e) := by
  have hnext := hc.toFramed.step e
  refine ⟨hnext, ?_⟩
  cases e with
  | accept fd | hangup fd => exact hc.pushed
  | readable fd chunks last =>
    simp only [FeedHandler.step] at hnext ⊢
    cases hconn : h.connections fd with
    | none =>
      simp only [handleClientData, hconn]
      exact hc.pushed
    | some conn =>
      have hh := handleClientData_handled price hconn chunks last
      intro serial
      by_cases hne : serial = conn.serial
      · subst hne
        by_cases hlast : last = .again
        · rw [(hnext.cut fd _ (hh.again hlast).1).2]
        · have hsize : 0 < kWireOrderSize := by decide
          rw [(hh.closed hlast).2, hh.received, (frames_append hsize _ _).1, List.map_append]
          exact (hc.pushed conn.serial).trans (List.prefix_append _ _)
      · rw [hh.otherPushed serial hne, hh.otherReceived serial hne]
        exact hc.pushed serial

theorem Covered.run (price : UInt64 → P) (evs : List FeedEvent) :
    Covered price (FeedHandler.run price .init evs) := by
  induction evs using List.reverseRecOn with
  | nil => exact ⟨Framed.init, fun _ => List.nil_prefix⟩
  | append_singleton evs e ih =>
    rw [EventLoop.run_dispatched]
    exact ih.step e

/-! ## The gateways -/

/-- The gateway processes. `sent` exists in the model only: each appended order,
with its gateway and the serial number of its connection. -/
structure Gateways (P : Type) where
  loop : ℕ → EventLoop P
  sent : List (ℕ × ℕ × Order P)

inductive GatewayEvent where
  /-- a step of a gateway other than `push` -/
  | loop (g : ℕ) (e : LoopEvent)
  | push (g : ℕ)

namespace Gateways

def init (stopReadFd listenFd : ℕ) : Gateways P := ⟨fun _ => .init stopReadFd listenFd, []⟩

/-- The orders appended by a gateway, with their connections. -/
def sentBy (d : Gateways P) (g : ℕ) : List (ℕ × Order P) :=
  (d.sent.filter (·.1 = g)).map Prod.snd

/-- The orders appended for one connection. -/
def sentOn (d : Gateways P) (g serial : ℕ) : List (Order P) :=
  ((d.sentBy g).filter (·.1 == serial)).map Prod.snd

/-- One step of a gateway, and what it appends: the gateway and the order. -/
def step (price : UInt64 → P) (d : Gateways P) :
    GatewayEvent → Option (Gateways P × Option (ℕ × Order P))
  | .loop _ .pushed => none
  | .loop g e => ((d.loop g).step price e).map fun l =>
      ({ d with loop := Function.update d.loop g l }, none)
  | .push g =>
    match (d.loop g).pc with
    | .pushing p fd rest => some
        ({ loop := Function.update d.loop g { d.loop g with pc := .processing fd rest }
           sent := d.sent ++ [(g, p)] }, some (g, p.2))
    | _ => none

/-- The orders the gateways sent to a shard, each by its own count of shards. -/
def routedTo (routers : ℕ → ShardRouterQueue) (sent : List (ℕ × ℕ × Order P)) (shard : UInt32) :
    List (Order P) :=
  (sent.filter fun p =>
    shardForSymbol p.2.2.symbolStr (routers p.1).numShards = shard).map (·.2.2)

/-- What each event requires and does. -/
inductive Does (price : UInt64 → P) (d : Gateways P) :
    Gateways P → Option (ℕ × Order P) → Prop where
  | loop {g : ℕ} {e : LoopEvent} {l : EventLoop P} (hpushed : e ≠ .pushed)
      (hl : EventLoop.Does price (d.loop g) e l) :
      Does price d { d with loop := Function.update d.loop g l } none
  | push {g : ℕ} {p : ℕ × Order P} {fd : ℕ} {rest : List EpollEvent}
      (hpc : (d.loop g).pc = .pushing p fd rest) :
      Does price d
        { loop := Function.update d.loop g { d.loop g with pc := .processing fd rest }
          sent := d.sent ++ [(g, p)] } (some (g, p.2))

variable {price : UInt64 → P} {d d' : Gateways P} {out : Option (ℕ × Order P)}

theorem step_does {e : GatewayEvent} (h : step price d e = some (d', out)) :
    Does price d d' out := by
  cases e with
  | loop g e =>
    by_cases hpushed : e = .pushed
    · subst hpushed
      cases h
    · have hmap : ((d.loop g).step price e).map (fun l =>
          (({ d with loop := Function.update d.loop g l } : Gateways P),
            (none : Option (ℕ × Order P)))) = some (d', out) := by
        cases e with
        | pushed => exact absurd rfl hpushed
        | _ => exact h
      obtain ⟨l, hl, heq⟩ := Option.map_eq_some_iff.mp hmap
      cases heq
      exact .loop hpushed (EventLoop.step_does hl)
  | push g =>
    simp only [step] at h
    split at h
    · cases h
      exact .push ‹_›
    · cases h

/-- The gateways are where their events lead, and what they handed to `push` is
what was appended. -/
structure Inv (price : UInt64 → P) (d : Gateways P) : Prop where
  settled : ∀ g, (d.loop g).settled price = FeedHandler.run price .init (d.loop g).dispatched
  handed : ∀ g, d.sentBy g ++ (d.loop g).pc.inHand = (d.loop g).handler.queue

theorem inv_init (price : UInt64 → P) (stopReadFd listenFd : ℕ) :
    Inv price (init stopReadFd listenFd : Gateways P) :=
  ⟨fun _ => rfl, fun _ => rfl⟩

/-- A step of one gateway, with the others as they were. -/
theorem Inv.update (h : Inv price d) {g : ℕ} {l : EventLoop P} {sent : List (ℕ × ℕ × Order P)}
    (hsettled : l.settled price = FeedHandler.run price .init l.dispatched)
    (hhanded : sentBy ⟨d.loop, sent⟩ g ++ l.pc.inHand = l.handler.queue)
    (hothers : ∀ g' ≠ g, sentBy ⟨d.loop, sent⟩ g' = d.sentBy g') :
    Inv price ⟨Function.update d.loop g l, sent⟩ := by
  constructor
  · apply (Function.forall_update_iff d.loop fun _ l =>
      l.settled price = FeedHandler.run price .init l.dispatched).mpr
    exact ⟨hsettled, fun g' _ => h.settled g'⟩
  · apply (Function.forall_update_iff d.loop fun g' l =>
      sentBy ⟨d.loop, sent⟩ g' ++ l.pc.inHand = l.handler.queue).mpr
    refine ⟨hhanded, fun g' hne => ?_⟩
    rw [hothers g' hne]
    exact h.handed g'

theorem Inv.step (h : Inv price d) (hstep : Does price d d' out) : Inv price d' := by
  cases hstep with
  | @loop g e l hpushed hl =>
    apply h.update (EventLoop.settled_step (h.settled g) hl)
    · have hhanded := h.handed g
      rcases hl.in_hand hpushed with ⟨hhand, hqueue, -⟩ | ⟨p, hhand, hhand', -, hqueue⟩
      · rw [hhand, hqueue]
        exact hhanded
      · rw [hhand, List.append_nil] at hhanded
        rw [hhand', hqueue, ← hhanded]
    · exact fun _ _ => rfl
  | @push g p fd rest hpc =>
    apply h.update (EventLoop.settled_step (h.settled g) (.pushed hpc))
    · have hhanded := h.handed g
      rw [hpc] at hhanded
      rw [← hhanded]
      simp [sentBy, LoopPc.inHand]
    · intro g' hne
      simp [sentBy, Ne.symm hne]

/-- What was appended for the connections, against their bytes. -/
structure FromBytes (price : UInt64 → P) (d : Gateways P) : Prop where
  /-- the appends for a connection begin the messages in its bytes -/
  connection : ∀ g serial, d.sentOn g serial <+:
    (frames kWireOrderSize ((d.loop g).handler.received serial)).map (orderOf price)
  /-- and are all of them for an open connection of a gateway between events -/
  complete : ∀ g, (d.loop g).pc.busy = none → ∀ fd conn,
    (d.loop g).handler.connections fd = some conn → d.sentOn g conn.serial =
      (frames kWireOrderSize ((d.loop g).handler.received conn.serial)).map (orderOf price)

theorem Inv.fromBytes (h : Inv price d) : FromBytes price d := by
  have hcovered : ∀ g, Covered price (FeedHandler.run price .init (d.loop g).dispatched) :=
    fun g => Covered.run price _
  constructor
  · intro g serial
    have hqueue : d.sentBy g <+: (d.loop g).handler.queue := ⟨_, h.handed g⟩
    have hsettled := hqueue.trans (EventLoop.queue_prefix_settled price (d.loop g))
    have hpushed : d.sentOn g serial <+: ((d.loop g).settled price).pushedFor serial :=
      (hsettled.filter _).map _
    rw [← EventLoop.settled_received price, h.settled g]
    rw [h.settled g] at hpushed
    exact hpushed.trans ((hcovered g).pushed serial)
  · intro g hidle fd conn hconn
    have hsettled : (d.loop g).handler = FeedHandler.run price .init (d.loop g).dispatched := by
      rw [← h.settled g, EventLoop.settled_of_idle hidle]
    have hhanded := h.handed g
    rw [LoopPc.inHand_of_idle hidle, List.append_nil, hsettled] at hhanded
    rw [hsettled] at hconn ⊢
    rw [← ((hcovered g).cut fd conn hconn).2, sentOn, hhanded]
    rfl

/-- A gateway accepts a connection and reads and decodes its bytes. -/
def connectAndRead (g : ℕ) (bytes : List UInt8) : List GatewayEvent :=
  [LoopEvent.start, .load, .wait [⟨4, false, true, 0⟩], .next, .accept (.client 7), .accept .again,
    .next, .load, .wait [⟨7, false, true, 0⟩], .next, .recv [bytes] .again, .decode].map (.loop g)

end Gateways

/-! ## Gateways in front of a cluster -/

structure Deployment (P : Type) where
  gateways : Gateways P
  cluster : Cluster P

inductive DeploymentEvent where
  | gateway (e : GatewayEvent)
  | consume (shard : UInt32)

namespace Deployment

def init (stopReadFd listenFd : ℕ) : Deployment P := ⟨.init stopReadFd listenFd, .init⟩

variable [LT P] [DecidableLT P] [PriceArith P]

/-- `routers g` is the queue of gateway `g`; the engine processes were started
with `numShards`. -/
def step (routers : ℕ → ShardRouterQueue) (numShards : UInt32) (price : UInt64 → P)
    (d : Deployment P) : DeploymentEvent → Option (Deployment P)
  | .gateway e => (d.gateways.step price e).bind fun
    | (gateways, none) => some { d with gateways := gateways }
    | (gateways, some (g, o)) =>
      (d.cluster.step numShards (.push (routers g) o)).map fun c => ⟨gateways, c⟩
  | .consume shard =>
    (d.cluster.step numShards (.consume shard)).map fun c => { d with cluster := c }

/-- What each event requires and does. -/
inductive Does (routers : ℕ → ShardRouterQueue) (numShards : UInt32) (price : UInt64 → P)
    (d : Deployment P) : Deployment P → Prop where
  | quiet {gs : Gateways P} (hgs : Gateways.Does price d.gateways gs none) :
      Does routers numShards price d { d with gateways := gs }
  | push {gs : Gateways P} {g : ℕ} {o : Order P} {c : Cluster P}
      (hgs : Gateways.Does price d.gateways gs (some (g, o)))
      (hc : d.cluster.step numShards (.push (routers g) o) = some c) :
      Does routers numShards price d ⟨gs, c⟩
  | consume {shard : UInt32} {c : Cluster P}
      (hc : d.cluster.step numShards (.consume shard) = some c) :
      Does routers numShards price d { d with cluster := c }

variable {routers : ℕ → ShardRouterQueue} {numShards : UInt32} {price : UInt64 → P}
  {d d' : Deployment P}

theorem step_does {e : DeploymentEvent} (h : step routers numShards price d e = some d') :
    Does routers numShards price d d' := by
  cases e with
  | gateway e =>
    obtain ⟨⟨gs, out⟩, hgs, hout⟩ := Option.bind_eq_some_iff.mp h
    cases out with
    | none =>
      obtain rfl := Option.some.inj hout
      exact .quiet (Gateways.step_does hgs)
    | some p =>
      obtain ⟨c, hc, rfl⟩ := Option.map_eq_some_iff.mp hout
      exact .push (Gateways.step_does hgs) hc
  | consume shard =>
    obtain ⟨c, hc, rfl⟩ := Option.map_eq_some_iff.mp h
    exact .consume hc

structure Inv (price : UInt64 → P) (d : Deployment P) : Prop where
  gateways : d.gateways.Inv price
  merged : d.cluster.appended = d.gateways.sent.map (·.2.2)

theorem Inv.step (h : Inv price d) (hstep : Does routers numShards price d d') : Inv price d' := by
  cases hstep with
  | quiet hgs =>
    refine ⟨h.gateways.step hgs, ?_⟩
    cases hgs with
    | loop => exact h.merged
  | push hgs hc =>
    refine ⟨h.gateways.step hgs, ?_⟩
    obtain rfl := Option.some.inj hc
    cases hgs with
    | push => simp only [List.map_append, h.merged, List.map_singleton]
  | consume hc =>
    refine ⟨h.gateways, ?_⟩
    simp only [Cluster.step] at hc
    split at hc
    · obtain ⟨o, -, rfl⟩ := Option.map_eq_some_iff.mp hc
      exact h.merged
    · cases hc

theorem reachable_inv {stopReadFd listenFd : ℕ}
    (h : Reachable (Deployment.step routers numShards price) (init stopReadFd listenFd) d) :
    Inv price d :=
  h.invariant ⟨Gateways.inv_init price _ _, rfl⟩ fun _ _ _ hd he => hd.step (step_does he)

/-- Gateways that agree with the engines on the number of shards are the
gateways of a cluster. -/
theorem reachable_runs {stopReadFd listenFd : ℕ} (hsame : ∀ g, (routers g).numShards = numShards)
    (h : Reachable (Deployment.step routers numShards price) (init stopReadFd listenFd) d) :
    Cluster.Runs numShards d.cluster := by
  refine h.invariant (I := fun d => Cluster.Runs numShards d.cluster) .start fun d e d' hd he => ?_
  cases step_does he with
  | quiet => exact hd
  | @push gs g o c _ hc =>
    have hok : Cluster.sameShards numShards d.cluster (.push (routers g) o) = true :=
      decide_eq_true (hsame g)
    exact Reachable.next hd (restrict_some.mpr ⟨hok, hc⟩)
  | consume hc => exact Reachable.next hd (restrict_some.mpr ⟨rfl, hc⟩)

/-- From the bytes of the connections to the results of the engines. -/
structure EndToEnd (routers : ℕ → ShardRouterQueue) (numShards : UInt32) (price : UInt64 → P)
    (d : Deployment P) : Prop where
  bytes : d.gateways.FromBytes price
  logs : ∀ shard, d.cluster.logs shard = Gateways.routedTo routers d.gateways.sent shard
  engines : ∀ symbol, Cluster.OwnEngine numShards symbol d.cluster

/-- **From clients to engines.** Any number of gateways, connections and
engines interleave. What is appended for a connection begins the messages in
its bytes, in order, and is all of them if the connection is open and its
gateway between events; each shard log holds the appends of all gateways that
hash to it, in order, and each symbol's engine works through its orders as they
were appended. -/
theorem gateways_end_to_end {stopReadFd listenFd : ℕ} (hpos : 0 < numShards)
    (hsame : ∀ g, (routers g).numShards = numShards)
    (h : Reachable (Deployment.step routers numShards price) (init stopReadFd listenFd) d) :
    EndToEnd routers numShards price d := by
  have hinv := reachable_inv h
  have hrouted := (reachable_runs hsame h).routed
  refine ⟨hinv.gateways.fromBytes, fun shard => ?_, fun symbol => hrouted.ownEngine hpos symbol⟩
  rw [hrouted.logs, hinv.merged, Gateways.routedTo, List.filter_map]
  simp only [hsame]
  rfl

/-- Two gateways have an order in hand; the one that read last appends first. -/
def twoGateways : List DeploymentEvent :=
  (Gateways.connectAndRead 0 (EventLoop.message 1 1 100 5 ++ [9, 9]) ++
    Gateways.connectAndRead 1 (EventLoop.message 2 0 100 5)).map .gateway ++
  [.gateway (.push 1), .gateway (.push 0), .consume 1, .gateway (.loop 0 .decode), .consume 1]

theorem gateways_end_to_end_two :
    ∃ d : Deployment ℚ, exec (step (fun _ => ⟨2⟩) 2 fun w => (w.toNat : ℚ)) (init 3 4) twoGateways =
        some d ∧ EndToEnd (fun _ => ⟨2⟩) 2 (fun w => (w.toNat : ℚ)) d ∧
      d.gateways.sent.map (fun x => (x.1, x.2.2.orderId)) = [(1, 2), (0, 1)] ∧
      d.cluster.results 1 [] = [.trades [], .trades [⟨2, 1, 100, 5, 3⟩]] := by
  have hrun : (exec (step (fun _ => ⟨2⟩) 2 fun w => (w.toNat : ℚ)) (init 3 4) twoGateways).any
      (fun d => d.gateways.sent.map (fun x => (x.1, x.2.2.orderId)) == [(1, 2), (0, 1)] &&
        d.cluster.results 1 [] == [.trades [], .trades [⟨2, 1, 100, 5, 3⟩]]) = true := by
    decide +kernel
  obtain ⟨d, hd, hq⟩ := exec_any hrun
  obtain ⟨hsent, hresults⟩ := Bool.and_eq_true_iff.mp hq
  exact ⟨d, hd, gateways_end_to_end (by decide) (fun _ => rfl) (Reachable.start.exec hd),
    beq_iff_eq.mp hsent, beq_iff_eq.mp hresults⟩

end Deployment

end TradingSystem
