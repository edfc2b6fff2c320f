import TradingSystem.LogReader
import TradingSystem.Tenures

/-!
# The trades topic

A shard and the subscribers of its trade log (`src/trades_subscriber_main.cpp`,
`include/trade_log.hpp`): the replicas of `src/engine_main.cpp` append to the
file, any number of subscribers read it, each with its own checkpoint, and
attach and detach at will.

Together with what the replicas publish this says what a subscriber sees of
the order log: in every failover only trades that the log calls for, and in
clean ones each of them once and in order.
-/

namespace TradingSystem

open Transition

variable {P : Type}

/-- The shard with its tenures, and the subscribers. Their `log` is the file
the replicas publish to. -/
structure TradeTopic (P : Type) where
  chronicle : Chronicle P
  subscribers : LogState (Trade P)

inductive TopicEvent (P : Type) where
  | shard (e : Event P)
  | subscriber (e : LogEvent (Trade P))

namespace TradeTopic

def init : TradeTopic P := ⟨.init, .init⟩

/-- The subscribers read what the replicas publish, and each has received what
is behind it. -/
structure Joined (base : String) (s : TradeTopic P) : Prop where
  log : s.subscribers.log = s.chronicle.shard.trades
  exact : Exact .tradeLog base s.subscribers

theorem joined_init {base : String} : Joined base (init : TradeTopic P) := ⟨rfl, Exact.init⟩

theorem Joined.received {base : String} {s : TradeTopic P} (h : Joined base s) (id : String) :
    s.subscribers.received id <+: s.chronicle.shard.trades := by
  rw [← h.log]
  exact (h.exact.receivedBy id).appended

end TradeTopic

section
variable {α : Type} {api : LogApi} {base : String}

/-- Records appended to the log are no concern of those behind the readers. -/
theorem Exact.grow {s : LogState α} (h : Exact api base s) {log : List α} (hlog : s.log <+: log) :
    Exact api base { s with log := log } := by
  obtain ⟨more, rfl⟩ := hlog
  induction more using List.reverseRecOn with
  | nil =>
    rw [List.append_nil]
    exact h
  | append_singleton more x ih =>
    have hnext : LogState.step api base { s with log := s.log ++ more } (.append x) =
        some { s with log := s.log ++ (more ++ [x]) } := by
      simp only [LogState.step, List.append_assoc]
    exact ih.step rfl hnext

/-- Readers do not write to the log. -/
theorem Happens.log_eq {s t : LogState α} {e : LogEvent α} (h : Happens api base s e t)
    (hreader : e.reader ≠ none) : t.log = s.log := by
  cases h with
  | append => exact absurd rfl hreader
  | advance _ _ hm => exact hm.log
  | attach | detach | shutdown | kill => rfl

end

variable [LT P] [DecidableLT P] [PriceArith P]

/-- The trade log only grows. -/
theorem Shard.step_trades {s t : Shard P} {e : Event P} (h : s.step e = some t) :
    s.trades <+: t.trades := by
  cases e with
  | append o =>
    obtain rfl := Option.some.inj h
    exact List.prefix_rfl
  | loop id =>
    simp only [Shard.step] at h
    split at h
    · cases advance_cases h with
      | publish => exact List.prefix_append _ _
      | won | tried | pop | apply | finish => exact List.prefix_rfl
    · cases h
  | start id | kill id | restart id =>
    simp only [Shard.step] at h
    split at h
    · obtain rfl := Option.some.inj h
      exact List.prefix_rfl
    · cases h

theorem Chronicle.step_shard {c d : Chronicle P} {e : Event P} (h : c.step e = some d) :
    c.shard.step e = some d.shard := by
  obtain ⟨t, ht, rfl⟩ := Option.map_eq_some_iff.mp h
  cases e <;> exact ht

/-- A trade of a tenure is one that the order log calls for. -/
theorem Tenure.Segment.canonical {log : List (Order P)} {h : Tenure P} (hseg : h.Segment log)
    {t : Trade P} (ht : t ∈ h.published) : t ∈ canonicalTrades log := by
  obtain ⟨-, rest, hrest⟩ := hseg
  rw [hrest]
  exact List.mem_append_right _ (List.mem_append_left _ ht)

/-- The trade log of clean runs begins the canonical trades. -/
theorem ExactlyOnce.trades_canonical {s : Shard P} (h : ExactlyOnce s) :
    s.trades <+: canonicalTrades s.log := by
  cases hlock : s.lock with
  | none =>
    obtain ⟨rest, hrest⟩ := tradesUpTo_canonical s.log s.served
    rw [h.idle hlock, hrest]
    exact List.prefix_append _ _
  | some holder =>
    obtain ⟨r, hr, hactive⟩ := (h.exclusive holder).mp hlock
    obtain ⟨rest, hrest⟩ := (h.follows holder r hr).out_canonical
    rw [(h.live holder r hr hactive).2, hrest]
    exact List.prefix_append _ _

namespace TradeTopic

def step (base : String) (s : TradeTopic P) : TopicEvent P → Option (TradeTopic P)
  | .shard e => (s.chronicle.step e).map fun c =>
      { chronicle := c, subscribers := { s.subscribers with log := c.shard.trades } }
  -- only the replicas append
  | .subscriber (.append _) => none
  | .subscriber e =>
    (s.subscribers.step .tradeLog base e).map fun l => { s with subscribers := l }

/-- Replicas die but do not come back, and subscribers end between two calls. -/
def noRestart (s : TradeTopic P) : TopicEvent P → Bool
  | .shard e => s.chronicle.noRestart e
  | .subscriber e => s.subscribers.noKill e

/-- Failovers are clean, and subscribers end between two calls. -/
def clean (s : TradeTopic P) : TopicEvent P → Bool
  | .shard e => s.chronicle.shard.clean e
  | .subscriber e => s.subscribers.noKill e

variable {base : String} {s t : TradeTopic P} {e : TopicEvent P}

/-- What each event does. -/
inductive Does (base : String) (s : TradeTopic P) : TopicEvent P → TradeTopic P → Prop where
  | shard {e : Event P} {c : Chronicle P} (hc : s.chronicle.step e = some c) :
      Does base s (.shard e)
        { chronicle := c, subscribers := { s.subscribers with log := c.shard.trades } }
  | subscriber {e : LogEvent (Trade P)} {l : LogState (Trade P)} (hreader : e.reader ≠ none)
      (hl : s.subscribers.step .tradeLog base e = some l) :
      Does base s (.subscriber e) { s with subscribers := l }

theorem step_does (h : step base s e = some t) : Does base s e t := by
  cases e with
  | shard e =>
    obtain ⟨c, hc, rfl⟩ := Option.map_eq_some_iff.mp h
    exact .shard hc
  | subscriber e =>
    cases e with
    | append x => cases h
    | attach id | detach id | advance id | shutdown id | kill id =>
      obtain ⟨l, hl, rfl⟩ := Option.map_eq_some_iff.mp h
      exact .subscriber nofun hl

theorem Joined.step (h : Joined base s) (hstep : Does base s e t)
    (hkill : ∀ e', e = .subscriber e' → s.subscribers.noKill e' = true) : Joined base t := by
  cases hstep with
  | shard hc =>
    refine ⟨rfl, h.exact.grow ?_⟩
    rw [h.log]
    exact Shard.step_trades (Chronicle.step_shard hc)
  | subscriber hreader hl =>
    constructor
    · rw [(h.exact.happens hl).log_eq hreader]
      exact h.log
    · exact h.exact.step (hkill _ rfl) hl

/-! ## Any failover -/

theorem reachable_kept (h : Reachable (restrict (step base) noRestart) init s) :
    Joined base s ∧ Kept s.chronicle := by
  refine h.invariant (I := fun s => Joined base s ∧ Kept s.chronicle) ⟨joined_init, Kept.init⟩ ?_
  intro s e t ⟨hjoined, hkept⟩ he
  obtain ⟨hok, hstep⟩ := restrict_some.mp he
  have hdoes := step_does hstep
  constructor
  · apply hjoined.step hdoes
    rintro e' rfl
    exact hok
  · cases hdoes with
    | shard hc => exact hkept.step hok hc
    | subscriber => exact hkept

/-- **Subscribers see no phantom trades.** However replicas die and take over,
what a subscriber has received over all its attachments is a beginning of the
tenures' segments, and every trade of it is one that replaying the order log
yields. -/
theorem subscriber_no_phantom (h : Reachable (restrict (step base) noRestart) init s)
    (id : String) :
    s.subscribers.received id <+: s.chronicle.tenures.flatMap Tenure.published ∧
      (∀ h ∈ s.chronicle.tenures, h.Segment s.chronicle.shard.log) ∧
      ∀ t ∈ s.subscribers.received id, t ∈ canonicalTrades s.chronicle.shard.log := by
  obtain ⟨hjoined, hkept⟩ := reachable_kept h
  have hreceived := hjoined.received id
  rw [hkept.trades] at hreceived
  refine ⟨hreceived, hkept.segments, fun t ht => ?_⟩
  obtain ⟨tenure, htenure, hpublished⟩ := List.mem_flatMap.mp (hreceived.subset ht)
  exact (hkept.segments tenure htenure).canonical hpublished

/-- A subscriber attaches after a replica died between two trades of a record
and reads to the end. -/
def deathThenRead : List (TopicEvent ℚ) :=
  deathInPublish.map .shard ++ [.subscriber (.attach "ui")] ++
    List.replicate 12 (.subscriber (.advance "ui"))

theorem subscriber_no_phantom_after_death :
    ∃ s : TradeTopic ℚ, exec (restrict (step "shard_0") noRestart) init deathThenRead = some s ∧
      (s.subscribers.received "ui").map Trade.sellOrderId = [1, 4] ∧
      ∀ t ∈ s.subscribers.received "ui", t ∈ canonicalTrades s.chronicle.shard.log := by
  have hrun : (exec (restrict (step "shard_0") noRestart) init deathThenRead).any (fun s =>
      (s.subscribers.received "ui").map Trade.sellOrderId == [1, 4]) = true := by decide +kernel
  obtain ⟨s, hs, hq⟩ := exec_any hrun
  exact ⟨s, hs, beq_iff_eq.mp hq,
    (subscriber_no_phantom (Reachable.start.exec hs) "ui").2.2⟩

/-! ## Clean failovers -/

/-- What holds along clean runs. -/
structure Once (base : String) (s : TradeTopic P) : Prop extends Joined base s where
  once : ExactlyOnce s.chronicle.shard

theorem once_init : Once base (init : TradeTopic P) := ⟨joined_init, ExactlyOnce.init⟩

theorem Once.step (h : Once base s) (hok : s.clean e = true) (hstep : Does base s e t) :
    Once base t := by
  constructor
  · apply h.toJoined.step hstep
    rintro e' rfl
    exact hok
  · cases hstep with
    | shard hc => exact h.once.step hok (Chronicle.step_shard hc)
    | subscriber => exact h.once

theorem reachable_once (h : Reachable (restrict (TradeTopic.step base) clean) init s) :
    Once base s := by
  apply h.invariant once_init
  intro s e t hs he
  obtain ⟨hok, hstep⟩ := restrict_some.mp he
  exact hs.step hok (step_does hstep)

/-- The subscriber is between two calls and has read to the end of the file. -/
def caughtUp (s : TradeTopic P) (id : String) : Bool :=
  (s.subscribers.readers id).any fun r =>
    r.pc.outside && r.offset == s.subscribers.log.length

/-- What a subscriber has seen of the trades that the order log calls for: a
beginning, and all of them once the active replica has finished the log and the
subscriber has caught up. -/
structure Sees (s : TradeTopic P) (id : String) : Prop where
  begins : s.subscribers.received id <+: canonicalTrades s.chronicle.shard.log
  all : ∀ holder, s.chronicle.shard.drained holder = true → s.caughtUp id = true →
    s.subscribers.received id = canonicalTrades s.chronicle.shard.log

theorem Once.sees (h : Once base s) (id : String) : s.Sees id := by
  refine ⟨(h.toJoined.received id).trans h.once.trades_canonical, fun holder hdone hcaught => ?_⟩
  rw [caughtUp, Option.any_eq_true] at hcaught
  obtain ⟨r, hr, hend⟩ := hcaught
  obtain ⟨hout, hoffset⟩ := Bool.and_eq_true_iff.mp hend
  have hentry := (Reader.entry_durable (ReadPc.inHand_of_outside hout)).1
  rw [h.exact.received id, consumed_of_reader hr, hentry, beq_iff_eq.mp hoffset,
    List.take_length, h.log, h.once.all_out hdone]

/-- **Subscribers see every trade once.** With clean failovers, no replica
restarted and every subscriber ended between two calls, a subscriber has
received, over all its attachments, a beginning of the canonical trades of the
order log; once the active replica has finished the log and the subscriber has
caught up, all of them. -/
theorem subscriber_exactly_once (h : Reachable (restrict (TradeTopic.step base) clean) init s)
    (id : String) : s.Sees id :=
  (reachable_once h).sees id

/-- A subscriber attaches after a clean failover and reads to the end. -/
def levelThenRead : List (TopicEvent ℚ) :=
  standbyLevel.map .shard ++ [.subscriber (.attach "ui")] ++
    List.replicate 6 (.subscriber (.advance "ui"))

theorem subscriber_exactly_once_level :
    ∃ s : TradeTopic ℚ, exec (restrict (step "shard_0") clean) init levelThenRead = some s ∧
      s.subscribers.received "ui" = [⟨2, 1, 100, 10, 3⟩] ∧
      s.subscribers.received "ui" = canonicalTrades s.chronicle.shard.log := by
  have hrun : (exec (restrict (step "shard_0") clean) init levelThenRead).any (fun s =>
      s.subscribers.received "ui" == [⟨2, 1, 100, 10, 3⟩] &&
        (s.chronicle.shard.drained "standby" && s.caughtUp "ui")) = true := by decide +kernel
  obtain ⟨s, hs, hq⟩ := exec_any hrun
  simp only [Bool.and_eq_true, beq_iff_eq] at hq
  obtain ⟨hreceived, hdone, hcaught⟩ := hq
  exact ⟨s, hs, hreceived,
    (subscriber_exactly_once (Reachable.start.exec hs) "ui").all "standby" hdone hcaught⟩

end TradeTopic

end TradingSystem
