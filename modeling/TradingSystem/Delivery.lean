import TradingSystem.CatchUp
import TradingSystem.TradeTopic

/-!
# Delivery

What is in the order log comes out at the subscribers. Once nothing more is
appended, the active replica gets to the end of the order log and the
subscriber to the end of the trade log, each in a number of steps that is
known beforehand, and by then the subscriber has received every trade.
-/

namespace TradingSystem

open Transition

variable {P : Type}

/-! ## A subscriber reads to the end -/

/-- The steps of `try_next` from here to its return; a record that is fetched
has five of its six behind the offset. -/
def ReadPc.rank {α : Type} : ReadPc α → ℕ
  | .fresh | .returned _ => 2
  | .polling => 1
  | .fetched _ => 5
  | .truncated _ => 4
  | .written _ => 3
  | .found | .checking | .threw => 0

theorem ReadPc.rank_le {α : Type} (pc : ReadPc α) : pc.rank ≤ 5 := by
  cases pc <;> simp [rank]

/-- A bound on the steps of a subscriber to the end of the file. -/
def Reader.work {α : Type} (log : List α) (r : Reader α) : ℕ :=
  6 * (log.length - r.offset) + r.pc.rank

/-- A subscriber always has a step to take, and it brings the end nearer. -/
theorem Reader.Sound.reads {α : Type} {s : LogState α} {r : Reader α} {file : CheckpointFile}
    (h : r.Sound .tradeLog s.log file) (base id : String) :
    ∃ t r', s.advance .tradeLog base id r = some t ∧ t.readers id = some r' ∧ t.log = s.log ∧
      ((r'.pc.outside && r'.offset == s.log.length) = true ∨ r'.work s.log < r.work s.log) := by
  have hbounded := h.bounded
  unfold LogState.advance
  cases hpc : r.pc with
  | fresh | returned res =>
    refine ⟨_, _, rfl, s.put_readers id _, rfl, .inr ?_⟩
    simp [Reader.work, ReadPc.rank, hpc]
  | polling =>
    by_cases hlt : r.offset < s.log.length
    · refine ⟨_, _, if_pos hlt, s.put_readers id _, rfl, .inr ?_⟩
      simp [Reader.work, ReadPc.rank, hpc]
    · refine ⟨_, _, if_neg hlt, s.put_readers id _, rfl, .inl ?_⟩
      have hlast : r.offset = s.log.length := by omega
      simp [ReadPc.outside, hlast]
  | checking => cases h.waits hpc
  | found =>
    have hlt := h.available hpc
    simp only [List.getElem?_eq_getElem hlt]
    refine ⟨_, _, rfl, s.put_readers id _, rfl, .inr ?_⟩
    simp only [Reader.work, ReadPc.rank, hpc]
    omega
  | fetched x | truncated x | written x =>
    refine ⟨_, _, rfl, s.put_readers id _, rfl, .inr ?_⟩
    simp [Reader.work, ReadPc.rank, hpc]
  | threw => exact absurd hpc h.running

/-- An active replica keeps the lock. -/
theorem Advance.lock_kept [LT P] [DecidableLT P] [PriceArith P] {s t : Shard P} {id : String}
    {r : Replica P} (h : Advance s id r t) (hactive : r.active = true) : t.lock = s.lock := by
  cases h with
  | won _ hinactive =>
    rw [hactive] at hinactive
    cases hinactive
  | tried | pop | apply | publish | finish => rfl

namespace TradeTopic

/-- How far a subscriber is from the end of the trade log. -/
def workOf (s : TradeTopic P) (id : String) : ℕ :=
  (s.subscribers.readers id).elim 0 (Reader.work s.subscribers.log)

variable [LT P] [DecidableLT P] [PriceArith P] {base holder id : String} {s t : TradeTopic P}

/-- What is kept while subscriber `id` reads alone, from state `s` on. -/
structure Reads (base id : String) (s t : TradeTopic P) : Prop where
  once : t.Once base
  chronicle : t.chronicle = s.chronicle
  attached : (t.subscribers.readers id).isSome = true

theorem Reads.step (h : Reads base id s t) :
    ∃ u, restrict (TradeTopic.step base) clean t (.subscriber (.advance id)) = some u ∧
      Reads base id s u ∧ (u.caughtUp id = true ∨ u.workOf id < t.workOf id) := by
  obtain ⟨q, hq⟩ := Option.isSome_iff_exists.mp h.attached
  obtain ⟨l, q', hl, hq', hlog, hnearer⟩ := (h.once.exact.readers id q hq).reads base id
  have hadvance : t.subscribers.step .tradeLog base (.advance id) = some l := by
    simp only [LogState.step, hq]
    exact hl
  have hstep : TradeTopic.step base t (.subscriber (.advance id)) =
      some { t with subscribers := l } := by
    simp only [TradeTopic.step, hadvance, Option.map_some]
  refine ⟨_, restrict_some.mpr ⟨rfl, hstep⟩, ?_, ?_⟩
  · refine ⟨h.once.step rfl (step_does hstep), h.chronicle, ?_⟩
    simp only [hq', Option.isSome_some]
  · simpa only [caughtUp, workOf, hq, hq', hlog, Option.any_some, Option.elim_some] using hnearer

/-- A subscriber gets to the end of the trade log. -/
theorem Once.reads (h : s.Once base) {q : Reader (Trade P)}
    (hq : s.subscribers.readers id = some q) :
    ∃ m t, m ≤ q.work s.chronicle.shard.trades + 1 ∧
      exec (restrict (TradeTopic.step base) clean) s
        (List.replicate m (.subscriber (.advance id))) = some t ∧
      t.Once base ∧ t.chronicle = s.chronicle ∧ t.caughtUp id = true := by
  have hstart : Reads base id s s := ⟨h, rfl, by rw [hq]; rfl⟩
  obtain ⟨m, t, hm, hexec, ht, hend⟩ := exec_until (μ := fun t => t.workOf id)
    (g := fun t => t.caughtUp id) (fun t ht _ => ht.step) hstart
  have hwork : s.workOf id = q.work s.chronicle.shard.trades := by
    simp only [workOf, hq, Option.elim_some, h.log]
  exact ⟨m, t, hwork ▸ hm, hexec, ht.once, ht.chronicle, hend⟩

/-! ## The active replica publishes to the end -/

/-- What is kept while the active replica runs alone, from state `s` on. -/
structure Leads (base holder : String) (s t : TradeTopic P) : Prop where
  once : t.Once base
  alone : Alone s.chronicle.shard holder true t.chronicle.shard
  lock : t.chronicle.shard.lock = some holder
  readers : t.subscribers.readers = s.subscribers.readers

/-- The holder of the lock is active. -/
theorem Leads.active (h : Leads base holder s t) :
    ∃ r, t.chronicle.shard.status holder = .running r ∧ r.active = true :=
  (h.once.once.exclusive holder).mp h.lock

theorem Leads.clean (h : Leads base holder s t) : t.clean (.shard (.loop holder)) = true := by
  obtain ⟨r, hr, hactive⟩ := h.active
  simp [TradeTopic.clean, Shard.clean, hr, hactive]

theorem Leads.step {u : TradeTopic P} (h : Leads base holder s t)
    (hstep : restrict (TradeTopic.step base) TradeTopic.clean t (.shard (.loop holder)) = some u) :
    Leads base holder s u ∧
      u.chronicle.shard.workOf holder < t.chronicle.shard.workOf holder := by
  have hdoes := step_does (restrict_some.mp hstep).2
  have honce := h.once.step h.clean hdoes
  obtain ⟨r, hr, hactive⟩ := h.active
  cases hdoes with
  | @shard _ c hc =>
    have hshard := Chronicle.step_shard hc
    obtain ⟨halone, hless⟩ := h.alone.step hshard
    refine ⟨⟨honce, halone, ?_, h.readers⟩, hless⟩
    simp only [Shard.step, hr] at hshard
    exact ((advance_cases hshard).lock_kept hactive).trans h.lock

/-- The active replica gets to the end of the order log. -/
theorem Once.leads (h : s.Once base) {r : Replica P}
    (hr : s.chronicle.shard.status holder = .running r) (hactive : r.active = true) :
    ∃ n t, n ≤ r.work s.chronicle.shard.log ∧
      exec (restrict (TradeTopic.step base) TradeTopic.clean) s
        (List.replicate n (.shard (.loop holder))) = some t ∧
      Leads base holder s t ∧ t.chronicle.shard.drained holder = true := by
  have hlead : r.willLead s.chronicle.shard = true := by simp [Replica.willLead, hactive]
  have hstart : Leads base holder s s :=
    ⟨h, ⟨rfl, r, hr, h.once.follows holder r hr, fun _ => hlead⟩,
      (h.once.exclusive holder).mpr ⟨r, hr, hactive⟩, rfl⟩
  obtain ⟨n, t, hn, hexec, ht, hend⟩ := exec_repeats
    (μ := fun t => t.chronicle.shard.workOf holder) (fun t u ht hu => ht.step hu) hstart
  have hwork : s.chronicle.shard.workOf holder = r.work s.chronicle.shard.log := by
    simp only [Shard.workOf, hr]
  refine ⟨n, t, hwork ▸ hn, hexec, ht, ?_⟩
  obtain ⟨r', hr', hactive'⟩ := ht.active
  have hnone : t.chronicle.shard.advance holder r' = none := by
    simpa [restrict, ht.clean, TradeTopic.step, Chronicle.step, Shard.step, hr'] using hend
  obtain ⟨hpc, hoffset⟩ := (ht.once.once.follows holder r' hr').at_end hnone
  simp [Shard.drained, Replica.polls, hr', hpc, hoffset, hactive']

/-- **Trades are delivered.** From any state of a run with clean failovers, no
replica restarted and every subscriber ended between two calls, the active
replica alone and then a subscriber alone need no more than the given numbers
of steps until the subscriber has received, over all its attachments, every
trade that the order log calls for. -/
theorem trades_delivered
    (h : Reachable (restrict (TradeTopic.step base) TradeTopic.clean) init s) {r : Replica P}
    (hr : s.chronicle.shard.status holder = .running r) (hactive : r.active = true)
    {q : Reader (Trade P)} (hq : s.subscribers.readers id = some q) :
    ∃ n m t, n ≤ r.work s.chronicle.shard.log ∧
      m ≤ 6 * ((canonicalTrades s.chronicle.shard.log).length - q.offset) + 6 ∧
      exec (restrict (TradeTopic.step base) TradeTopic.clean) s
        (List.replicate n (.shard (.loop holder)) ++
          List.replicate m (.subscriber (.advance id))) = some t ∧
      t.chronicle.shard.log = s.chronicle.shard.log ∧
      t.subscribers.received id = canonicalTrades s.chronicle.shard.log := by
  obtain ⟨n, u, hn, hlead, hleads, hdrained⟩ := (reachable_once h).leads hr hactive
  have hlog : u.chronicle.shard.log = s.chronicle.shard.log := hleads.alone.log
  have htrades : u.chronicle.shard.trades = canonicalTrades s.chronicle.shard.log := by
    rw [hleads.once.once.all_out hdrained, hlog]
  obtain ⟨m, t, hm, hread, hreads, hchronicle, hcaught⟩ :=
    hleads.once.reads ((congrFun hleads.readers id).trans hq)
  refine ⟨n, m, t, hn, ?_, ?_, hchronicle ▸ hlog, ?_⟩
  · have hrank := q.pc.rank_le
    rw [htrades, Reader.work] at hm
    omega
  · rw [exec_append, hlead]
    exact hread
  · rw [← hchronicle] at hdrained hlog
    rw [(hreads.sees id).all holder hdrained hcaught, hlog]

/-- The trade of two records is not published yet, and the subscriber has read
nothing. -/
def attachEarly : List (TopicEvent ℚ) :=
  [.subscriber (.attach "ui"), .shard (.start "primary"), .shard (.loop "primary"),
    .shard (.append (Order.make 1 .sell .limit 100 10)),
    .shard (.append (Order.make 2 .buy .limit 100 10))]

theorem trades_delivered_two_records :
    ∃ s : TradeTopic ℚ, exec (restrict (step "shard_0") TradeTopic.clean) init attachEarly = some s ∧
      s.subscribers.received "ui" = [] ∧
      ∃ n m t, exec (restrict (step "shard_0") TradeTopic.clean) s
          (List.replicate n (.shard (.loop "primary")) ++
            List.replicate m (.subscriber (.advance "ui"))) = some t ∧
        t.subscribers.received "ui" = canonicalTrades s.chronicle.shard.log ∧
        canonicalTrades s.chronicle.shard.log = [⟨2, 1, 100, 10, 3⟩] := by
  have hrun : (exec (restrict (step "shard_0") TradeTopic.clean) init attachEarly).any (fun s =>
      s.subscribers.received "ui" == [] && (s.subscribers.readers "ui").isSome &&
      s.chronicle.shard.lock == some "primary" &&
      canonicalTrades s.chronicle.shard.log == [⟨2, 1, 100, 10, 3⟩]) = true := by decide +kernel
  obtain ⟨s, hs, hq⟩ := exec_any hrun
  simp only [Bool.and_eq_true, beq_iff_eq] at hq
  obtain ⟨⟨⟨hnothing, hattached⟩, hlock⟩, htrades⟩ := hq
  have hreach := Reachable.start.exec hs
  obtain ⟨r, hr, hactive⟩ := ((reachable_once hreach).once.exclusive "primary").mp hlock
  obtain ⟨q, hq⟩ := Option.isSome_iff_exists.mp hattached
  obtain ⟨n, m, t, -, -, ht, -, hreceived⟩ := trades_delivered hreach hr hactive hq
  exact ⟨s, hs, hnothing, n, m, t, ht, hreceived, htrades⟩

end TradeTopic

end TradingSystem
