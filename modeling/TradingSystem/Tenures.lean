import TradingSystem.Failover

/-!
# Tenures: who published which part of the canonical trades

However leadership moves, replicas never disagree and never invent a trade.
A tenure is the stay of one replica at the lock. What it publishes is a part
of the canonical trade sequence without gaps: it begins with the record the
replica was promoted on and goes on as far as the replica got.
-/

namespace TradingSystem

open Transition

variable {P : Type}

/-- The stay of `holder` at the lock, from record `first` on. -/
structure Tenure (P : Type) where
  holder : String
  first : ℕ
  published : List (Trade P)

/-- A shard and its tenures, oldest first. -/
structure Chronicle (P : Type) where
  shard : Shard P
  tenures : List (Tenure P)

/-- The record in hand when `id` takes the lock; record 0 at start-up. -/
def Shard.promotedOn (s : Shard P) (id : String) : ℕ :=
  match s.status id with
  | .running r =>
    match r.pc with
    | .popped _ => r.offset - 1
    | _ => 0
  | _ => 0

/-- What `id` publishes goes to its own tenure. -/
def Tenure.extend (h : Tenure P) (id : String) (new : List (Trade P)) : Tenure P :=
  if h.holder = id then { h with published := h.published ++ new } else h

namespace Chronicle

def init : Chronicle P := ⟨.init, []⟩

/-- `id` made the step from `c.shard` to `t`: a tenure begins if it took the
lock, and what it published goes to its tenure. -/
def record (c : Chronicle P) (id : String) (t : Shard P) : List (Tenure P) :=
  let opened :=
    if c.shard.lock = none ∧ t.lock = some id then
      c.tenures ++ [⟨id, c.shard.promotedOn id, []⟩]
    else c.tenures
  opened.map fun h => h.extend id (t.trades.drop c.shard.trades.length)

/-- Processes are killed but not restarted. -/
def noRestart (_ : Chronicle P) : Event P → Bool
  | .restart _ => false
  | _ => true

variable [LT P] [DecidableLT P] [PriceArith P]

def step (c : Chronicle P) (e : Event P) : Option (Chronicle P) :=
  (c.shard.step e).map fun t =>
    match e with
    | .loop id => ⟨t, c.record id t⟩
    | _ => ⟨t, c.tenures⟩

end Chronicle

/-! ## The trades of a replica's tenure -/

theorem Tenure.extend_nil (h : Tenure P) (id : String) : h.extend id [] = h := by
  unfold Tenure.extend
  split
  · simp
  · rfl

theorem Tenure.extend_of_ne {h : Tenure P} {id : String} (hne : h.holder ≠ id)
    (new : List (Trade P)) : h.extend id new = h :=
  if_neg hne

section
variable [LT P] [DecidableLT P] [PriceArith P]

/-- What an active replica has put out is a beginning of the canonical trades. -/
theorem Follows.out_canonical {log : List (Order P)} {r : Replica P} (h : Follows log r) :
    ∃ rest, canonicalTrades log = r.out log ++ rest := by
  cases hpc : r.pc with
  | publishing ts i =>
    obtain ⟨-, -, -, htrades⟩ := h.results ts i hpc
    obtain ⟨rest, hrest⟩ := tradesUpTo_canonical log r.offset
    refine ⟨ts.drop i ++ rest, ?_⟩
    rw [h.out_publishing hpc, hrest, htrades]
    simp only [List.append_assoc, List.append_cancel_left_eq]
    rw [← List.append_assoc, List.take_append_drop]
  | starting | polling | popped o | applying o =>
    have hnone : r.inProgress = [] := by simp [Replica.inProgress, hpc]
    simp only [Replica.out, hnone, List.append_nil]
    exact tradesUpTo_canonical log r.completed

/-- A tenure's trades are a segment of the canonical ones, from its first record on. -/
def Tenure.Segment (log : List (Order P)) (h : Tenure P) : Prop :=
  h.first ≤ log.length ∧
    ∃ rest, canonicalTrades log = tradesUpTo log h.first ++ (h.published ++ rest)

theorem Tenure.Segment.append {log : List (Order P)} {h : Tenure P} (hseg : h.Segment log)
    (o : Order P) : h.Segment (log ++ [o]) := by
  obtain ⟨hle, rest, hrest⟩ := hseg
  obtain ⟨more, hmore⟩ := canonicalTrades_append log [o]
  refine ⟨?_, rest ++ more, ?_⟩
  · rw [List.length_append]
    omega
  · rw [tradesUpTo_snoc hle, hmore, hrest]
    simp only [List.append_assoc]

/-- The tenure is the one of `r`: it holds what `r` has put out since. -/
def Tenure.Ties (log : List (Order P)) (h : Tenure P) (r : Replica P) : Prop :=
  h.first ≤ log.length ∧ tradesUpTo log h.first ++ h.published = r.out log

theorem Tenure.Ties.segment {log : List (Order P)} {h : Tenure P} {r : Replica P}
    (hties : h.Ties log r) (hf : Follows log r) : h.Segment log := by
  obtain ⟨rest, hrest⟩ := hf.out_canonical
  refine ⟨hties.1, rest, ?_⟩
  rw [hrest, ← hties.2, List.append_assoc]

/-- Every step of the loop leaves the start-up behind. -/
theorem Advance.not_starting {s t : Shard P} {id : String} {r r' : Replica P}
    (hadv : Advance s id r t) (hr' : t.status id = .running r') : r'.pc ≠ .starting := by
  cases hadv with
  | won htry | tried htry =>
    obtain rfl := Status.running.inj ((s.put_status id _).symm.trans hr')
    cases htry <;> simp
  | pop | publish | finish =>
    obtain rfl := Status.running.inj ((s.put_status id _).symm.trans hr')
    simp
  | apply =>
    obtain rfl := Status.running.inj ((s.put_status id _).symm.trans hr')
    cases r.active <;> simp

/-- What holds of the chronicle when nobody restarts. -/
structure Kept (c : Chronicle P) : Prop extends InLine c.shard where
  exclusive : c.shard.Exclusive
  unread : ∀ id r, c.shard.status id = .running r → r.pc = .starting → r.offset = 0
  segments : ∀ h ∈ c.tenures, h.Segment c.shard.log
  live : ∀ id r, c.shard.status id = .running r → r.active = true →
    ∃ past h, c.tenures = past ++ [h] ∧ h.holder = id ∧ h.Ties c.shard.log r
  holders : ∀ h ∈ c.tenures, c.shard.status h.holder = .killed ∨
    ∃ r, c.shard.status h.holder = .running r ∧ r.active = true
  once : (c.tenures.map Tenure.holder).Nodup
  trades : c.shard.trades = c.tenures.flatMap Tenure.published

namespace Kept

variable {c d : Chronicle P} {t : Shard P} {id : String} {r r' : Replica P} {new : List (Trade P)}

theorem init : Kept (Chronicle.init : Chronicle P) where
  toInLine := InLine.init
  exclusive := by simp [Shard.Exclusive, Shard.init, Chronicle.init]
  unread := by simp [Shard.init, Chronicle.init]
  segments := by simp [Chronicle.init]
  live := by simp [Shard.init, Chronicle.init]
  holders := by simp [Chronicle.init]
  once := by simp [Chronicle.init]
  trades := rfl

theorem append (h : Kept c) (o : Order P) :
    Kept ⟨{ c.shard with log := c.shard.log ++ [o] }, c.tenures⟩ where
  toInLine := h.toInLine.append o
  exclusive := h.exclusive
  unread := h.unread
  segments := fun q hq => (h.segments q hq).append o
  live := by
    intro id r hr ha
    obtain ⟨past, q, heq, hid, hle, hout⟩ := h.live id r hr ha
    refine ⟨past, q, heq, hid, ?_, ?_⟩
    · simp only [List.length_append]
      omega
    · simp only [Replica.out]
      rw [tradesUpTo_snoc hle,
        tradesUpTo_snoc (Nat.le_trans r.completed_le (h.follows id r hr).bounded)]
      exact hout
  holders := h.holders
  once := h.once
  trades := h.trades

/-- An id that has no process yet has had no tenure. -/
theorem start (h : Kept c) (habsent : c.shard.status id = .absent) :
    Kept ⟨c.shard.boot id, c.tenures⟩ := by
  have hother : ∀ id' ≠ id, (c.shard.boot id).status id' = c.shard.status id' :=
    fun id' hne => Function.update_of_ne hne _ _
  refine ⟨h.toInLine.boot (h.fresh id habsent), h.exclusive.boot habsent, ?_, h.segments, ?_, ?_,
    h.once, h.trades⟩
  · intro id' q hq hpc
    by_cases hne : id' = id
    · subst hne
      obtain rfl := Status.running.inj ((c.shard.put_status id' _).symm.trans hq)
      simp [h.fresh id' habsent]
    · exact h.unread id' q ((hother id' hne).symm.trans hq) hpc
  · intro id' q hq ha
    by_cases hne : id' = id
    · subst hne
      obtain rfl := Status.running.inj ((c.shard.put_status id' _).symm.trans hq)
      cases ha
    · exact h.live id' q ((hother id' hne).symm.trans hq) ha
  · intro q hq
    have hne : q.holder ≠ id := by
      intro heq
      have := h.holders q hq
      rw [heq, habsent] at this
      simp at this
    simp only [hother _ hne]
    exact h.holders q hq

theorem kill (h : Kept c) (id : String) :
    Kept ⟨{ c.shard with
      status := Function.update c.shard.status id .killed
      lock := if c.shard.lock = some id then none else c.shard.lock }, c.tenures⟩ := by
  refine ⟨h.toInLine.kill id, h.exclusive.kill id, ?_, h.segments, ?_, ?_, h.once, h.trades⟩
  · intro id' q hq
    exact h.unread id' q (Shard.running_of_kill hq).2
  · intro id' q hq
    exact h.live id' q (Shard.running_of_kill hq).2
  · intro q hq
    by_cases hne : q.holder = id
    · exact Or.inl (by simp [hne])
    · simp only [Function.update_of_ne hne]
      exact h.holders q hq

/-- A replica that is not active has had no tenure. -/
theorem not_holder (h : Kept c) (hr : c.shard.status id = .running r) (ha : r.active = false)
    {q : Tenure P} (hq : q ∈ c.tenures) : q.holder ≠ id := by
  intro heq
  rcases h.holders q hq with hk | ⟨r', hr', ha'⟩
  · rw [heq, hr] at hk
    cases hk
  · rw [heq, hr] at hr'
    obtain rfl := Status.running.inj hr'
    rw [ha] at ha'
    cases ha'

/-- The lock is taken with all earlier records applied and none of their trades in hand. -/
theorem promotedOn (h : Kept c) (hr : c.shard.status id = .running r)
    (htries : r.triesLock = true) : c.shard.promotedOn id = r.completed := by
  unfold Replica.triesLock at htries
  cases hpc : r.pc with
  | starting =>
    simp [Shard.promotedOn, Replica.completed, Replica.applied, hr, hpc, h.unread id r hr hpc]
  | popped o => simp [Shard.promotedOn, Replica.completed, Replica.applied, hr, hpc]
  | polling | applying o | publishing ts i => simp [hpc] at htries

/-- The tenures after a step of `id`: those before it, and at their end the
one of `id` if it is active. -/
theorem record_eq (h : Kept c) (hr : c.shard.status id = .running r)
    (hm : Moved c.shard id r t r' new) :
    r'.active = false ∧ new = [] ∧ c.record id t = c.tenures ∨
      r'.active = true ∧ ∃ past q, c.record id t = past ++ [q] ∧ q.holder = id ∧
        q.Ties c.shard.log r' ∧ (∀ p ∈ past, p ∈ c.tenures ∧ p.holder ≠ id) ∧
        (past.map Tenure.holder).Nodup ∧
        c.shard.trades ++ new = (past ++ [q]).flatMap Tenure.published := by
  have hdrop : t.trades.drop c.shard.trades.length = new := by rw [hm.trades, List.drop_left]
  rcases hm.lock with ⟨hlock, hactive⟩ | ⟨hnone, ha, hlock, ha', htries⟩
  · have hkept : ¬(c.shard.lock = none ∧ t.lock = some id) := by
      rw [hlock]
      rintro ⟨hnone, hsome⟩
      rw [hnone] at hsome
      cases hsome
    simp only [Chronicle.record, if_neg hkept, hdrop]
    cases ha : r.active with
    | false =>
      refine Or.inl ⟨hactive.trans ha, hm.quiet ha, ?_⟩
      simp only [hm.quiet ha, Tenure.extend_nil, List.map_id']
    | true =>
      obtain ⟨past, q, heq, hid, hle, hout⟩ := h.live id r hr ha
      have hnd := h.once
      rw [heq, List.map_append, List.map_singleton, hid, List.nodup_append] at hnd
      have hpast : ∀ p ∈ past, p.holder ≠ id := fun p hp =>
        hnd.2.2 p.holder (List.mem_map_of_mem hp) id (by simp)
      refine Or.inr ⟨hactive.trans ha, past, { q with published := q.published ++ new }, ?_, hid,
        ⟨hle, ?_⟩, fun p hp => ⟨by simp [heq, hp], hpast p hp⟩, hnd.1, ?_⟩
      · rw [heq, List.map_append, List.map_singleton, Tenure.extend, if_pos hid]
        congr 1
        exact (List.map_congr_left fun p hp => Tenure.extend_of_ne (hpast p hp) new).trans
          (List.map_id' past)
      · rw [hm.out (hactive.trans ha), ← hout, List.append_assoc]
      · rw [h.trades, heq]
        simp
  · have hnew := hm.quiet ha
    have hfirst := h.promotedOn hr htries
    simp only [Chronicle.record, if_pos (And.intro hnone hlock), hdrop, hnew, Tenure.extend_nil,
      List.map_id']
    refine Or.inr ⟨ha', c.tenures, _, rfl, rfl, ⟨?_, ?_⟩,
      fun p hp => ⟨hp, h.not_holder hr ha hp⟩, h.once, ?_⟩
    · rw [hfirst]
      exact Nat.le_trans r.completed_le (h.follows id r hr).bounded
    · rw [hm.out ha', hnew, hfirst, Replica.out, r.inProgress_of_triesLock htries,
        List.append_nil, List.append_nil]
    · rw [h.trades]
      simp

theorem unread_moved (h : Kept c) (hadv : Advance c.shard id r t)
    (hm : Moved c.shard id r t r' new) {id' : String} {q : Replica P}
    (hq : t.status id' = .running q) (hpc : q.pc = .starting) : q.offset = 0 := by
  rcases hm.running hq with ⟨rfl, -⟩ | ⟨-, hq'⟩
  · exact absurd hpc (hadv.not_starting hq)
  · exact h.unread id' q hq' hpc

theorem holders_moved (h : Kept c) (hm : Moved c.shard id r t r' new) {p : Tenure P}
    (hp : p ∈ c.tenures) (hne : p.holder ≠ id) :
    t.status p.holder = .killed ∨ ∃ q, t.status p.holder = .running q ∧ q.active = true := by
  rw [hm.other hne]
  exact h.holders p hp

/-- A replica that is not active leaves the tenures as they are. -/
theorem advance_inactive (h : Kept c) (hr : c.shard.status id = .running r)
    (hadv : Advance c.shard id r t) (hm : Moved c.shard id r t r' new)
    (ha' : r'.active = false) (hnew : new = []) : Kept ⟨t, c.tenures⟩ where
  toInLine := h.toInLine.advance hr hadv
  exclusive := hm.exclusive h.exclusive hr
  unread := fun _ _ => h.unread_moved hadv hm
  segments := by
    simp only [hm.log]
    exact h.segments
  live := by
    intro id' q hq ha
    simp only [hm.log]
    rcases hm.running hq with ⟨-, rfl⟩ | ⟨-, hq'⟩
    · rw [ha'] at ha
      cases ha
    · exact h.live id' q hq' ha
  holders := fun _ hp => h.holders_moved hm hp (h.not_holder hr (hm.inactive ha') hp)
  once := h.once
  trades := by
    simp only [hm.trades, hnew, List.append_nil]
    exact h.trades

/-- The tenure of an active replica is the last one. -/
theorem advance_active (h : Kept c) (hr : c.shard.status id = .running r)
    (hadv : Advance c.shard id r t) (hm : Moved c.shard id r t r' new)
    (ha' : r'.active = true) {past : List (Tenure P)} {q : Tenure P} (hid : q.holder = id)
    (hties : q.Ties c.shard.log r') (hpast : ∀ p ∈ past, p ∈ c.tenures ∧ p.holder ≠ id)
    (hnd : (past.map Tenure.holder).Nodup)
    (htrades : c.shard.trades ++ new = (past ++ [q]).flatMap Tenure.published) :
    Kept ⟨t, past ++ [q]⟩ := by
  have hline := h.toInLine.advance hr hadv
  have hmem : ∀ {p}, p ∈ past ++ [q] → p ∈ past ∨ p = q := by
    intro p hp
    simpa using hp
  constructor
  case toInLine => exact hline
  case exclusive => exact hm.exclusive h.exclusive hr
  case unread => exact fun _ _ => h.unread_moved hadv hm
  case segments =>
    simp only [hm.log]
    intro p hp
    rcases hmem hp with hp | rfl
    · exact h.segments p (hpast p hp).1
    · exact hties.segment (hm.log ▸ hline.follows id r' hm.self)
  case live =>
    intro id' q' hq' ha
    simp only [hm.log]
    rcases hm.running hq' with ⟨rfl, rfl⟩ | ⟨hne, -⟩
    · exact ⟨past, q, rfl, hid, hties⟩
    · exact absurd (hm.only_active h.exclusive hr ha' hq' ha) hne
  case holders =>
    intro p hp
    rcases hmem hp with hp | rfl
    · exact h.holders_moved hm (hpast p hp).1 (hpast p hp).2
    · exact Or.inr ⟨r', by rw [hid, hm.self], ha'⟩
  case once =>
    simp only [List.map_append, List.map_singleton, hid]
    refine List.nodup_append.mpr ⟨hnd, List.nodup_singleton id, ?_⟩
    intro a hmem' b hb
    obtain ⟨p, hp, rfl⟩ := List.mem_map.mp hmem'
    rw [List.mem_singleton.mp hb]
    exact (hpast p hp).2
  case trades =>
    simp only [hm.trades]
    exact htrades

theorem advance (h : Kept c) (hr : c.shard.status id = .running r)
    (hadv : Advance c.shard id r t) : Kept ⟨t, c.record id t⟩ := by
  obtain ⟨r', new, hm⟩ := hadv.moved (h.follows id r hr)
  rcases h.record_eq hr hm with ⟨ha', hnew, hrec⟩ | ⟨ha', past, q, hrec, hid, hties, hpast, hnd, htr⟩
  · rw [hrec]
    exact h.advance_inactive hr hadv hm ha' hnew
  · rw [hrec]
    exact h.advance_active hr hadv hm ha' hid hties hpast hnd htr

theorem step {e : Event P} (h : Kept c) (hok : c.noRestart e = true) (hstep : c.step e = some d) :
    Kept d := by
  obtain ⟨t, ht, rfl⟩ := Option.map_eq_some_iff.mp hstep
  cases e with
  | append o =>
    obtain rfl := Option.some.inj ht
    exact h.append o
  | start id =>
    simp only [Shard.step] at ht
    split at ht
    · rename_i habsent
      obtain rfl := Option.some.inj ht
      exact h.start habsent
    · cases ht
  | loop id =>
    simp only [Shard.step] at ht
    split at ht
    · rename_i r hr
      exact h.advance hr (advance_cases ht)
    · cases ht
  | kill id =>
    simp only [Shard.step] at ht
    split at ht
    · obtain rfl := Option.some.inj ht
      exact h.kill id
    · cases ht
  | restart id => cases hok

end Kept

/-- Replicas agree, and the trade log is made of canonical segments. Only its
death cuts a replica's segment short: while it lives, the segment reaches as
far as the replica got. -/
structure Agreement (c : Chronicle P) : Prop where
  one_active : ∀ id id' r r', c.shard.status id = .running r → c.shard.status id' = .running r' →
    r.active = true → r'.active = true → id = id'
  same_engines : ∀ id id' r r', c.shard.status id = .running r →
    c.shard.status id' = .running r' → r.applied = r'.applied → r.engines = r'.engines
  one_tenure : (c.tenures.map Tenure.holder).Nodup
  segments : ∀ h ∈ c.tenures, h.Segment c.shard.log
  live : ∀ id r, c.shard.status id = .running r → r.active = true →
    ∃ h ∈ c.tenures, h.holder = id ∧ h.Ties c.shard.log r
  trade_log : c.shard.trades = c.tenures.flatMap Tenure.published

/-- **No phantom trades.** However appends, loop steps and kills interleave,
replicas that applied the same records have the same engines, one replica at
most is active, and every tenure publishes a segment of the canonical trades
that begins with the record the replica was promoted on. -/
theorem replicas_agree {c : Chronicle P}
    (h : Reachable (restrict Chronicle.step Chronicle.noRestart) .init c) : Agreement c := by
  have hinv : Kept c := h.invariant Kept.init fun c e d hc he =>
    hc.step (restrict_some.mp he).1 (restrict_some.mp he).2
  refine ⟨?_, ?_, hinv.once, hinv.segments, ?_, hinv.trades⟩
  · intro id id' r r' hr hr' ha ha'
    have hlock := (hinv.exclusive id).mpr ⟨r, hr, ha⟩
    rw [(hinv.exclusive id').mpr ⟨r', hr', ha'⟩] at hlock
    exact (Option.some.inj hlock).symm
  · intro id id' r r' hr hr' happ
    rw [(hinv.follows id r hr).engines, (hinv.follows id' r' hr').engines, happ]
  · intro id r hr ha
    obtain ⟨past, q, heq, hid, hties⟩ := hinv.live id r hr ha
    exact ⟨q, by simp [heq], hid, hties⟩

/-- The primary dies after the first of the two trades of the third record;
the standby, which has applied it too, is promoted on the fourth. -/
def deathInPublish : List (Event ℚ) :=
  [.start "primary", .loop "primary", .start "standby", .loop "standby",
    .append (Order.make 1 .sell .limit 100 10), .append (Order.make 2 .sell .limit 101 10),
    .append (Order.make 3 .buy .limit 101 25)] ++
  List.replicate 12 (.loop "primary") ++ List.replicate 9 (.loop "standby") ++
  [.kill "primary", .append (Order.make 4 .sell .limit 101 5)] ++
  List.replicate 5 (.loop "standby")

theorem replicas_agree_death_in_publish :
    ∃ c : Chronicle ℚ, exec (restrict Chronicle.step Chronicle.noRestart) .init deathInPublish =
        some c ∧ Agreement c ∧
      c.tenures.map Tenure.holder = ["primary", "standby"] ∧
      c.tenures.map Tenure.first = [0, 3] ∧
      c.tenures.map (fun h => h.published.map Trade.sellOrderId) = [[1], [4]] := by
  have hrun : (exec (restrict Chronicle.step Chronicle.noRestart) .init deathInPublish).any
      (fun c => c.tenures.map Tenure.holder == ["primary", "standby"] &&
        c.tenures.map Tenure.first == [0, 3] &&
        c.tenures.map (fun h => h.published.map Trade.sellOrderId) == [[1], [4]]) = true := by
    decide +kernel
  obtain ⟨c, hc, hq⟩ := exec_any hrun
  simp only [Bool.and_eq_true, beq_iff_eq] at hq
  exact ⟨c, hc, replicas_agree (Reachable.start.exec hc), hq.1.1, hq.1.2, hq.2⟩

end

end TradingSystem
