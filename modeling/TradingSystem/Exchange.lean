import TradingSystem.GatewayMain
import TradingSystem.ShardFiles
import TradingSystem.TradeTopic

/-!
# The whole system

Gateways in front, and behind each shard log its replicas, its trade log and
the subscribers. Orders arrive as bytes on the connections of the gateways and
leave as trades that subscribers receive; in between, gateways and replicas
come and go.

What a subscriber receives is determined by what the gateways appended, and
what they appended by the bytes of the connections. No gateway, replica or
subscriber shares memory with another: all that they have in common are the
files, and as no two files share a path, the shards do not interfere.
-/

namespace TradingSystem

open Transition Gateways

variable {P : Type}

structure Exchange (P : Type) where
  gateways : Gateways P
  topics : UInt32 → TradeTopic P

inductive ExchangeEvent (P : Type) where
  | gateway (e : GatewayEvent)
  | topic (shard : UInt32) (e : TopicEvent P)

section
variable [LT P] [DecidableLT P] [PriceArith P]

theorem Shard.step_log {s t : Shard P} {e : Event P} (h : s.step e = some t)
    (happend : ∀ o, e ≠ .append o) : t.log = s.log := by
  cases e with
  | append o => exact absurd rfl (happend o)
  | loop id =>
    simp only [Shard.step] at h
    split at h
    · exact (advance_cases h).frame.1
    · cases h
  | start id | kill id | restart id =>
    simp only [Shard.step] at h
    split at h
    · obtain rfl := Option.some.inj h
      rfl
    · cases h

theorem TradeTopic.Does.log_eq {base : String} {s t : TradeTopic P} {e : TopicEvent P}
    (h : TradeTopic.Does base s e t) (happend : ∀ o, e ≠ .shard (.append o)) :
    t.chronicle.shard.log = s.chronicle.shard.log := by
  cases h with
  | shard hc =>
    apply Shard.step_log (Chronicle.step_shard hc)
    rintro o rfl
    exact happend o rfl
  | subscriber => rfl

end

namespace Exchange

def init (stopReadFd listenFd : ℕ) : Exchange P :=
  ⟨.init stopReadFd listenFd, fun _ => .init⟩

variable [LT P] [DecidableLT P] [PriceArith P]

def step (routers : ℕ → ShardRouterQueue) (logBase : String) (price : UInt64 → P) (x : Exchange P) :
    ExchangeEvent P → Option (Exchange P)
  | .gateway e => (x.gateways.step price e).bind fun
    | (gateways, none) => some { x with gateways := gateways }
    | (gateways, some (g, o)) =>
      let shard := shardForSymbol o.symbolStr (routers g).numShards
      ((x.topics shard).step (shardBase logBase shard) (.shard (.append o))).map fun t =>
        ⟨gateways, Function.update x.topics shard t⟩
  -- only gateways append to the order log
  | .topic _ (.shard (.append _)) => none
  | .topic shard e => ((x.topics shard).step (shardBase logBase shard) e).map fun t =>
      { x with topics := Function.update x.topics shard t }

/-- Failovers are clean, and subscribers end between two calls. -/
def clean (x : Exchange P) : ExchangeEvent P → Bool
  | .gateway _ => true
  | .topic shard e => (x.topics shard).clean e

/-- What each event requires and does. -/
inductive Does (routers : ℕ → ShardRouterQueue) (logBase : String) (price : UInt64 → P)
    (x : Exchange P) : ExchangeEvent P → Exchange P → Prop where
  | quiet {e : GatewayEvent} {gs : Gateways P} (hgs : Gateways.Does price x.gateways gs none) :
      Does routers logBase price x (.gateway e) { x with gateways := gs }
  | append {e : GatewayEvent} {gs : Gateways P} {g : ℕ} {o : Order P} {shard : UInt32}
      {t : TradeTopic P} (hgs : Gateways.Does price x.gateways gs (some (g, o)))
      (hshard : shardForSymbol o.symbolStr (routers g).numShards = shard)
      (ht : TradeTopic.Does (shardBase logBase shard) (x.topics shard) (.shard (.append o)) t)
      (hlog : t.chronicle.shard.log = (x.topics shard).chronicle.shard.log ++ [o]) :
      Does routers logBase price x (.gateway e) ⟨gs, Function.update x.topics shard t⟩
  | topic {shard : UInt32} {e : TopicEvent P} {t : TradeTopic P}
      (happend : ∀ o, e ≠ .shard (.append o))
      (ht : TradeTopic.Does (shardBase logBase shard) (x.topics shard) e t) :
      Does routers logBase price x (.topic shard e)
        { x with topics := Function.update x.topics shard t }

variable {routers : ℕ → ShardRouterQueue} {logBase : String} {price : UInt64 → P}
  {x y : Exchange P} {e : ExchangeEvent P}

theorem step_does (h : step routers logBase price x e = some y) :
    Does routers logBase price x e y := by
  cases e with
  | gateway e =>
    obtain ⟨⟨gs, out⟩, hgs, hout⟩ := Option.bind_eq_some_iff.mp h
    cases out with
    | none =>
      obtain rfl := Option.some.inj hout
      exact .quiet (Gateways.step_does hgs)
    | some p =>
      obtain ⟨t, ht, rfl⟩ := Option.map_eq_some_iff.mp hout
      refine .append (Gateways.step_does hgs) rfl (TradeTopic.step_does ht) ?_
      obtain rfl := Option.some.inj ht
      rfl
  | topic shard e =>
    by_cases happend : ∃ o, e = .shard (.append o)
    · obtain ⟨o, rfl⟩ := happend
      cases h
    · have hmap : ((x.topics shard).step (shardBase logBase shard) e).map
          (fun t => { x with topics := Function.update x.topics shard t }) = some y := by
        cases e with
        | subscriber e => exact h
        | shard e =>
          cases e with
          | append o => exact absurd ⟨o, rfl⟩ happend
          | _ => exact h
      obtain ⟨t, ht, rfl⟩ := Option.map_eq_some_iff.mp hmap
      exact .topic (fun o heq => happend ⟨o, heq⟩) (TradeTopic.step_does ht)

/-- Each shard log holds what the gateways sent there, and the replicas and
subscribers of each shard do their part. -/
structure Inv (routers : ℕ → ShardRouterQueue) (logBase : String) (price : UInt64 → P)
    (x : Exchange P) : Prop where
  gateways : x.gateways.Inv price
  logs : ∀ shard, (x.topics shard).chronicle.shard.log = routedTo routers x.gateways.sent shard
  once : ∀ shard, (x.topics shard).Once (shardBase logBase shard)

/-- A step of one shard that fits what is sent by then, with the other shards
as they were. -/
theorem Inv.update (h : Inv routers logBase price x) {gs : Gateways P} (hgs : gs.Inv price)
    {shard : UInt32} {t : TradeTopic P}
    (hlog : t.chronicle.shard.log = routedTo routers gs.sent shard)
    (hothers : ∀ other ≠ shard, routedTo routers gs.sent other =
      routedTo routers x.gateways.sent other)
    (honce : t.Once (shardBase logBase shard)) :
    Inv routers logBase price ⟨gs, Function.update x.topics shard t⟩ := by
  refine ⟨hgs, ?_, ?_⟩
  · apply (Function.forall_update_iff x.topics fun other t =>
      t.chronicle.shard.log = routedTo routers gs.sent other).mpr
    exact ⟨hlog, fun other hne => (h.logs other).trans (hothers other hne).symm⟩
  · apply (Function.forall_update_iff x.topics fun other t =>
      t.Once (shardBase logBase other)).mpr
    exact ⟨honce, fun other _ => h.once other⟩

theorem Inv.step (h : Inv routers logBase price x) (hok : x.clean e = true)
    (hstep : Does routers logBase price x e y) : Inv routers logBase price y := by
  cases hstep with
  | quiet hgs =>
    refine ⟨h.gateways.step hgs, ?_, h.once⟩
    cases hgs with
    | loop => exact h.logs
  | @append _ gs g o shard t hgs hshard ht hlog =>
    have hsent : ∀ other, routedTo routers gs.sent other =
        routedTo routers x.gateways.sent other ++ if shard = other then [o] else [] := by
      intro other
      cases hgs with
      | push => by_cases hs : shard = other <;> simp [routedTo, hshard, hs]
    apply h.update (h.gateways.step hgs)
    · rw [hlog, h.logs shard, hsent, if_pos rfl]
    · intro other hne
      rw [hsent, if_neg (Ne.symm hne), List.append_nil]
    · exact (h.once shard).step rfl ht
  | @topic shard e t happend ht =>
    apply h.update h.gateways
    · rw [ht.log_eq happend]
      exact h.logs shard
    · exact fun _ _ => rfl
    · exact (h.once shard).step hok ht

/-- From the bytes of the connections to the trades of the subscribers. -/
structure EndToEnd (routers : ℕ → ShardRouterQueue) (price : UInt64 → P) (x : Exchange P) :
    Prop where
  bytes : x.gateways.FromBytes price
  logs : ∀ shard, (x.topics shard).chronicle.shard.log = routedTo routers x.gateways.sent shard
  subscribers : ∀ shard id, (x.topics shard).Sees id

/-- **From clients to subscribers.** However gateways, replicas and subscribers
interleave, with clean failovers, no replica restarted and every subscriber
ended between two calls: what is appended for a connection begins the messages
in its bytes, in order, and is all of them if the connection is open and its
gateway between events; each shard log holds the appends that hash to it, in
order; and a subscriber receives the trades of replaying that log, each once
and in order, up to where it and the active replica have got. -/
theorem clients_to_subscribers {stopReadFd listenFd : ℕ}
    (h : Reachable (restrict (Exchange.step routers logBase price) clean)
      (init stopReadFd listenFd) x) :
    EndToEnd routers price x := by
  have hinv : Inv routers logBase price x := by
    apply h.invariant ⟨Gateways.inv_init price _ _, fun _ => rfl, fun _ => TradeTopic.once_init⟩
    intro x e y hx he
    obtain ⟨hok, hstep⟩ := restrict_some.mp he
    exact hx.step hok (step_does hstep)
  exact ⟨hinv.gateways.fromBytes, hinv.logs, fun shard id => (hinv.once shard).sees id⟩

/-- Two gateways append a sell and a buy order to the log of shard 1. The
primary publishes their trade and dies, the standby takes over at a third
order, and a subscriber reads to the end. -/
def failoverThenRead : List (ExchangeEvent ℚ) :=
  let gateway := List.map ExchangeEvent.gateway
  let shard := List.map fun e => ExchangeEvent.topic 1 (TopicEvent.shard e)
  let ui := List.map fun e => ExchangeEvent.topic 1 (TopicEvent.subscriber e)
  shard [.start "primary", .loop "primary", .start "standby", .loop "standby"] ++
  gateway (Gateways.connectAndRead 0 (EventLoop.message 1 1 100 10 ++
    EventLoop.message 3 1 100 10)) ++
  gateway (Gateways.connectAndRead 1 (EventLoop.message 2 0 100 10)) ++
  gateway [.push 0, .push 1] ++
  shard (List.replicate 9 (.loop "primary")) ++ shard (List.replicate 6 (.loop "standby")) ++
  shard [.kill "primary"] ++ gateway [.loop 0 .decode, .push 0] ++
  shard (List.replicate 4 (.loop "standby")) ++
  ui (.attach "ui" :: List.replicate 6 (.advance "ui"))

theorem clients_to_subscribers_failover :
    ∃ x : Exchange ℚ, exec (restrict (step (fun _ => ⟨2⟩) "orders" fun w => (w.toNat : ℚ)) clean)
        (init 3 4) failoverThenRead = some x ∧
      EndToEnd (fun _ => ⟨2⟩) (fun w => (w.toNat : ℚ)) x ∧
      x.gateways.sent.map (fun p => (p.1, p.2.2.orderId)) = [(0, 1), (1, 2), (0, 3)] ∧
      (x.topics 1).subscribers.received "ui" = [⟨2, 1, 100, 10, 3⟩] := by
  have hrun : (exec (restrict (step (fun _ => ⟨2⟩) "orders" fun w => (w.toNat : ℚ)) clean)
      (init 3 4) failoverThenRead).any (fun x =>
        x.gateways.sent.map (fun p => (p.1, p.2.2.orderId)) == [(0, 1), (1, 2), (0, 3)] &&
        (x.topics 1).subscribers.received "ui" == [⟨2, 1, 100, 10, 3⟩]) = true := by
    decide +kernel
  obtain ⟨x, hx, hq⟩ := exec_any hrun
  obtain ⟨hsent, hreceived⟩ := Bool.and_eq_true_iff.mp hq
  exact ⟨x, hx, clients_to_subscribers (Reachable.start.exec hx), beq_iff_eq.mp hsent,
    beq_iff_eq.mp hreceived⟩

end Exchange

end TradingSystem
