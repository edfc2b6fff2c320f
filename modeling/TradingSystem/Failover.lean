import TradingSystem.Replication

/-!
# Failover: which trades reach the trade log

A replica that takes the lock publishes from the record it then has in hand,
wherever the replica before it stopped. If it is ahead, the trades in between
are never published; if it is behind, they are published again. `clean` asks
that it is neither, and that no active replica dies halfway through the
trades of one record. Runs of that kind publish every trade once.
-/

namespace TradingSystem

open Transition

variable {P : Type}

namespace Shard

/-- Replica `id` is active and has finished all records of the log. -/
def drained (s : Shard P) (id : String) : Bool :=
  match s.status id with
  | .running r => r.active && r.polls && r.offset == s.log.length
  | _ => false

/-- The event is not a restart, does not kill an active replica midway through
the trades of a record, and gives the lock only to a replica that has applied
exactly the records completed by those before it. -/
def clean (s : Shard P) : Event P → Bool
  | .append _ | .start _ => true
  | .kill id =>
    match s.status id with
    | .running r => !(r.active && r.midway)
    | _ => true
  | .loop id =>
    match s.status id with
    | .running r =>
      !(r.triesLock && !r.active && s.lock.isNone) || r.completed == s.served
    | _ => true
  | .restart _ => false

/-- Only the holder of the lock is active. -/
def Exclusive (s : Shard P) : Prop :=
  ∀ id, s.lock = some id ↔ ∃ r, s.status id = .running r ∧ r.active = true

variable {s t : Shard P} {id : String} {r' : Replica P}

/-- Beside a replica that may hold the lock no other one is active. -/
theorem Exclusive.inactive (h : s.Exclusive)
    (hfree : r'.active = true → ∀ id', s.lock = some id' → id' = id) {id' : String}
    (hne : id' ≠ id) {q : Replica P} (hq : s.status id' = .running q) (hqa : q.active = true) :
    r'.active = false := by
  by_contra hact
  exact hne (hfree (by simpa using hact) id' ((h id').mpr ⟨q, hq, hqa⟩))

/-- Process `id` becomes `r'`, holding the lock if it is active. -/
theorem Exclusive.set (h : s.Exclusive)
    (hstatus : t.status = Function.update s.status id (.running r'))
    (hlock : t.lock = if r'.active then some id else s.lock)
    (hfree : r'.active = true → ∀ id', s.lock = some id' → id' = id)
    (hheld : r'.active = false → s.lock ≠ some id) : t.Exclusive := by
  intro id'
  by_cases hne : id' = id
  · subst hne
    rw [hstatus, Function.update_self, hlock]
    cases ha : r'.active with
    | true => simp [ha]
    | false => simp [ha, hheld ha]
  · rw [hstatus, Function.update_of_ne hne, hlock]
    cases ha : r'.active with
    | false => simpa [ha] using h id'
    | true =>
      constructor
      · intro heq
        exact absurd (Option.some.inj heq).symm hne
      · rintro ⟨q, hq, hqa⟩
        have hfalse := h.inactive hfree hne hq hqa
        rw [ha] at hfalse
        cases hfalse

theorem Exclusive.not_held (h : s.Exclusive) (habsent : s.status id = .absent) :
    s.lock ≠ some id := by
  intro heq
  obtain ⟨r, hr, -⟩ := (h id).mp heq
  rw [habsent] at hr
  cases hr

theorem Exclusive.boot (h : s.Exclusive) (habsent : s.status id = .absent) :
    (s.boot id).Exclusive :=
  h.set rfl rfl (fun hn => by cases hn) fun _ => h.not_held habsent

theorem running_of_kill {q : Replica P} {id' : String}
    (h : Function.update s.status id .killed id' = .running q) :
    id' ≠ id ∧ s.status id' = .running q := by
  by_cases hne : id' = id
  · subst hne
    rw [Function.update_self] at h
    cases h
  · rw [Function.update_of_ne hne] at h
    exact ⟨hne, h⟩

/-- The lock dies with its holder. -/
theorem Exclusive.kill (h : s.Exclusive) (id : String) :
    Exclusive { s with
      status := Function.update s.status id .killed
      lock := if s.lock = some id then none else s.lock } := by
  intro id'
  constructor
  · intro hlock
    simp only at hlock
    split at hlock
    · cases hlock
    · rename_i hne
      obtain ⟨q, hq, hqa⟩ := (h id').mp hlock
      have hid : id' ≠ id := by
        rintro rfl
        exact hne hlock
      exact ⟨q, (Function.update_of_ne hid _ _).trans hq, hqa⟩
  · rintro ⟨q, hq, hqa⟩
    obtain ⟨hne, hq'⟩ := running_of_kill hq
    have hlock := (h id').mpr ⟨q, hq', hqa⟩
    have hid : s.lock ≠ some id := by
      rw [hlock]
      exact fun heq => hne (Option.some.inj heq)
    exact (if_neg hid).trans hlock

end Shard

variable [LT P] [DecidableLT P] [PriceArith P]

/-- The trades that are out when active replicas have got as far as `r`. -/
def Replica.out (log : List (Order P)) (r : Replica P) : List (Trade P) :=
  tradesUpTo log r.completed ++ r.inProgress

theorem Follows.out_publishing {log : List (Order P)} {r : Replica P} (h : Follows log r)
    {ts : List (Trade P)} {i : ℕ} (hpc : r.pc = .publishing ts i) :
    r.out log = tradesUpTo log (r.offset - 1) ++ ts.take i := by
  obtain ⟨-, -, -, htrades⟩ := h.results ts i hpc
  by_cases hlt : i < ts.length
  · simp [Replica.out, Replica.completed, Replica.inProgress, hpc, hlt]
  · simp only [Replica.out, Replica.completed, Replica.inProgress, hpc, hlt, if_false,
      List.append_nil]
    rw [htrades, List.take_of_length_le (by omega)]

omit [LT P] [DecidableLT P] [PriceArith P] in
theorem Replica.completed_le (r : Replica P) : r.completed ≤ r.offset := by
  unfold Replica.completed Replica.applied
  split
  · split <;> omega
  · split <;> omega

omit [LT P] [DecidableLT P] [PriceArith P] in
theorem Replica.inProgress_of_triesLock (r : Replica P) (h : r.triesLock = true) :
    r.inProgress = [] := by
  unfold Replica.triesLock at h
  unfold Replica.inProgress
  split
  · rename_i hpc
    rw [hpc] at h
    cases h
  · rfl

/-- A step of the loop as the rest of the shard sees it: replica `r` becomes
`r'`, trades `new` come out, and the lock may be taken. -/
structure Moved (s : Shard P) (id : String) (r : Replica P) (t : Shard P) (r' : Replica P)
    (new : List (Trade P)) : Prop where
  status : t.status = Function.update s.status id (.running r')
  log : t.log = s.log
  served : t.served = if r'.active then r'.completed else s.served
  trades : t.trades = s.trades ++ new
  quiet : r.active = false → new = []
  out : r'.active = true → r'.out s.log = r.out s.log ++ new
  lock : t.lock = s.lock ∧ r'.active = r.active ∨
    s.lock = none ∧ r.active = false ∧ t.lock = some id ∧ r'.active = true ∧
      r.triesLock = true

/-- An active replica puts out exactly the trades by which it gets ahead. -/
theorem Advance.moved {s t : Shard P} {id : String} {r : Replica P} (hadv : Advance s id r t)
    (h : Follows s.log r) : ∃ r' new, Moved s id r t r' new := by
  obtain ⟨r₁, hr₁, hfollows⟩ := hadv.follows h
  cases hadv with
  | won htry hactive hlock =>
    obtain ⟨-, hcompleted, hprogress, hnone⟩ := htry.applied
    have htries : r.triesLock = true := by
      cases htry with
      | starting hpc => simp [Replica.triesLock, hpc]
      | popped hpc => simp [Replica.triesLock, hpc]
    refine ⟨_, [], rfl, rfl, rfl, by simp [Shard.put], fun _ => rfl, fun _ => ?_,
      Or.inr ⟨hlock, hactive, rfl, rfl, htries⟩⟩
    simp only [Replica.out, hcompleted true, hprogress true, hnone, List.append_nil]
  | tried htry hlock =>
    obtain ⟨-, hcompleted, hprogress, hnone⟩ := htry.applied
    refine ⟨_, [], rfl, rfl, rfl, by simp [Shard.put], fun _ => rfl, fun _ => ?_,
      Or.inl ⟨rfl, rfl⟩⟩
    simp only [Replica.out, hcompleted r.active, hprogress r.active, hnone, List.append_nil]
  | pop hpc hrec =>
    refine ⟨_, [], rfl, rfl, rfl, by simp [Shard.put], fun _ => rfl, fun _ => ?_,
      Or.inl ⟨rfl, rfl⟩⟩
    simp [Replica.out, Replica.completed, Replica.applied, Replica.inProgress, hpc]
  | apply hpc =>
    obtain rfl := Status.running.inj ((s.put_status id _).symm.trans hr₁)
    refine ⟨_, [], rfl, rfl, rfl, by simp [Shard.put], fun _ => rfl, fun ha => ?_,
      Or.inl ⟨rfl, rfl⟩⟩
    rw [hfollows.out_publishing (if_pos ha)]
    simp [Replica.out, Replica.completed, Replica.applied, Replica.inProgress, hpc]
  | @publish ts i trade hpc ht =>
    have ha := (h.results ts i hpc).1
    obtain rfl := Status.running.inj ((s.put_status id _).symm.trans hr₁)
    refine ⟨_, [trade], rfl, rfl, rfl, rfl, fun hn => ?_, fun _ => ?_, Or.inl ⟨rfl, rfl⟩⟩
    · rw [ha] at hn
      cases hn
    · rw [hfollows.out_publishing rfl, h.out_publishing hpc, List.append_assoc,
        ListLemmas.take_snoc ht]
  | @finish ts i hpc ht =>
    have hge : ts.length ≤ i := List.getElem?_eq_none_iff.mp ht
    refine ⟨_, [], rfl, rfl, rfl, by simp [Shard.put], fun _ => rfl, fun _ => ?_,
      Or.inl ⟨rfl, rfl⟩⟩
    simp [Replica.out, Replica.completed, Replica.applied, Replica.inProgress, hpc,
      Nat.not_lt.mpr hge]

namespace Moved

variable {s t : Shard P} {id : String} {r r' : Replica P} {new : List (Trade P)}

theorem inactive (h : Moved s id r t r' new) (ha' : r'.active = false) : r.active = false := by
  rcases h.lock with ⟨-, hactive⟩ | ⟨-, ha, -⟩
  · exact hactive.symm.trans ha'
  · exact ha

/-- The lock afterwards is the replica's if it is active, and nobody else held it then. -/
theorem lock_rule (h : Moved s id r t r' new) (hexcl : s.Exclusive)
    (hr : s.status id = .running r) :
    t.lock = (if r'.active then some id else s.lock) ∧
      (r'.active = true → ∀ id', s.lock = some id' → id' = id) ∧
      (r'.active = false → s.lock ≠ some id) := by
  have hiff : s.lock = some id ↔ r.active = true := by simp [hexcl id, hr]
  refine ⟨?_, ?_, ?_⟩
  · rcases h.lock with ⟨hlock, hactive⟩ | ⟨-, -, hlock, ha', -⟩
    · rw [hlock, hactive]
      split
      · rename_i ha
        exact hiff.mpr ha
      · rfl
    · rw [hlock, ha', if_pos rfl]
  · intro ha' id' hid
    rcases h.lock with ⟨-, hactive⟩ | ⟨hnone, -⟩
    · rw [hiff.mpr (hactive.symm.trans ha')] at hid
      exact (Option.some.inj hid).symm
    · rw [hnone] at hid
      cases hid
  · intro ha' hheld
    have ha := h.inactive ha'
    rw [hiff.mp hheld] at ha
    cases ha

theorem exclusive (h : Moved s id r t r' new) (hexcl : s.Exclusive)
    (hr : s.status id = .running r) : t.Exclusive := by
  obtain ⟨hlock, hfree, hheld⟩ := h.lock_rule hexcl hr
  exact hexcl.set h.status hlock hfree hheld

theorem self (h : Moved s id r t r' new) : t.status id = .running r' := by
  rw [h.status, Function.update_self]

theorem other (h : Moved s id r t r' new) {id' : String} (hne : id' ≠ id) :
    t.status id' = s.status id' := by
  rw [h.status, Function.update_of_ne hne]

theorem running (h : Moved s id r t r' new) {id' : String} {q : Replica P}
    (hq : t.status id' = .running q) : id' = id ∧ q = r' ∨ id' ≠ id ∧ s.status id' = .running q := by
  by_cases hne : id' = id
  · rw [hne, h.self] at hq
    exact Or.inl ⟨hne, (Status.running.inj hq).symm⟩
  · exact Or.inr ⟨hne, (h.other hne).symm.trans hq⟩

/-- No other replica is active when this one is. -/
theorem only_active (h : Moved s id r t r' new) (hexcl : s.Exclusive)
    (hr : s.status id = .running r) (ha' : r'.active = true) {id' : String} {q : Replica P}
    (hq : t.status id' = .running q) (ha : q.active = true) : id' = id := by
  have hlock : t.lock = some id' := (h.exclusive hexcl hr id').mpr ⟨q, hq, ha⟩
  rw [(h.lock_rule hexcl hr).1, if_pos ha'] at hlock
  exact (Option.some.inj hlock).symm

end Moved

/-- What holds along runs of clean events. -/
structure ExactlyOnce (s : Shard P) : Prop extends InLine s where
  exclusive : s.Exclusive
  bounded : s.served ≤ s.log.length
  idle : s.lock = none → s.trades = tradesUpTo s.log s.served
  live : ∀ id r, s.status id = .running r → r.active = true →
    s.served = r.completed ∧ s.trades = r.out s.log

namespace ExactlyOnce

variable {s t : Shard P} {id : String} {r r' : Replica P}

/-- Process `id` becomes `r'`, holding the lock if it is active. -/
theorem set (h : ExactlyOnce s) (hline : InLine t)
    (hstatus : t.status = Function.update s.status id (.running r')) (hlog : t.log = s.log)
    (hlock : t.lock = if r'.active then some id else s.lock)
    (hfree : r'.active = true → ∀ id', s.lock = some id' → id' = id)
    (hheld : r'.active = false → s.lock ≠ some id)
    (hserved : t.served = if r'.active then r'.completed else s.served)
    (hout : r'.active = true → t.trades = r'.out s.log)
    (hquiet : r'.active = false → t.trades = s.trades) : ExactlyOnce t := by
  have hself : t.status id = .running r' := by rw [hstatus, Function.update_self]
  have hbound : r'.completed ≤ s.log.length :=
    Nat.le_trans r'.completed_le (hlog ▸ (hline.follows id r' hself).bounded)
  refine ⟨hline, h.exclusive.set hstatus hlock hfree hheld, ?_, ?_, ?_⟩
  · rw [hserved, hlog]
    split
    · exact hbound
    · exact h.bounded
  · intro hnone
    cases ha : r'.active with
    | true =>
      rw [hlock, ha] at hnone
      cases hnone
    | false =>
      rw [hlock, ha] at hnone
      rw [hserved, hquiet ha, hlog, ha]
      exact h.idle hnone
  · intro id' q hq hqa
    by_cases hne : id' = id
    · subst hne
      rw [hself] at hq
      obtain rfl := Status.running.inj hq
      rw [hserved, hout hqa, hlog, hqa]
      exact ⟨rfl, rfl⟩
    · rw [hstatus, Function.update_of_ne hne] at hq
      have ha := h.exclusive.inactive hfree hne hq hqa
      rw [hserved, hquiet ha, hlog, ha]
      exact h.live id' q hq hqa

theorem start (h : ExactlyOnce s) (habsent : s.status id = .absent) : ExactlyOnce (s.boot id) :=
  h.set (h.boot (h.fresh id habsent)) rfl rfl rfl (fun hn => by cases hn)
    (fun _ => h.exclusive.not_held habsent) rfl (fun hn => by cases hn) (fun _ => rfl)

/-- Every step of the loop. The lock goes only to a replica that has applied
exactly what has been served. -/
theorem advance (h : ExactlyOnce s) (hr : s.status id = .running r) (hadv : Advance s id r t)
    (hclean : s.clean (.loop id) = true) : ExactlyOnce t := by
  obtain ⟨r', new, hm⟩ := hadv.moved (h.follows id r hr)
  obtain ⟨hlock, hfree, hheld⟩ := hm.lock_rule h.exclusive hr
  refine h.set (h.toInLine.advance hr hadv) hm.status hm.log hlock hfree hheld hm.served ?_ ?_
  · intro ha'
    have hout : s.trades = r.out s.log := by
      rcases hm.lock with ⟨-, hactive⟩ | ⟨hnone, ha, -, -, htries⟩
      · exact (h.live id r hr (hactive.symm.trans ha')).2
      · have hserved : r.completed = s.served := by
          simpa [Shard.clean, hr, htries, ha, hnone] using hclean
        rw [h.idle hnone, Replica.out, r.inProgress_of_triesLock htries, hserved, List.append_nil]
    rw [hm.trades, hm.out ha', hout]
  · intro ha'
    rw [hm.trades, hm.quiet (hm.inactive ha'), List.append_nil]

theorem append (h : ExactlyOnce s) (o : Order P) : ExactlyOnce { s with log := s.log ++ [o] } := by
  refine ⟨h.toInLine.append o, h.exclusive, ?_, ?_, ?_⟩
  · have := h.bounded
    simp only [List.length_append, List.length_singleton]
    omega
  · intro hnone
    rw [tradesUpTo_snoc h.bounded]
    exact h.idle hnone
  · intro id r hr ha
    obtain ⟨hserved, hout⟩ := h.live id r hr ha
    refine ⟨hserved, ?_⟩
    rw [Replica.out, tradesUpTo_snoc (Nat.le_trans r.completed_le (h.follows id r hr).bounded)]
    exact hout

/-- A replica dies: a standby, or an active one between the trades of two records. -/
theorem kill (h : ExactlyOnce s) (hr : s.status id = .running r)
    (hmid : r.active = true → r.inProgress = []) :
    ExactlyOnce { s with
      status := Function.update s.status id .killed
      lock := if s.lock = some id then none else s.lock } := by
  refine ⟨h.toInLine.kill id, h.exclusive.kill id, h.bounded, ?_, ?_⟩
  · intro hnone
    simp only at hnone ⊢
    split at hnone
    · rename_i hheld
      obtain ⟨q, hq, hqa⟩ := (h.exclusive id).mp hheld
      rw [hr] at hq
      obtain rfl := Status.running.inj hq
      obtain ⟨hserved, hout⟩ := h.live id r hr hqa
      rw [hout, Replica.out, hmid hqa, List.append_nil, hserved]
    · exact h.idle hnone
  · intro id' q hq hqa
    exact h.live id' q (Shard.running_of_kill hq).2 hqa

theorem step {e : Event P} (h : ExactlyOnce s) (hclean : s.clean e = true)
    (hstep : s.step e = some t) : ExactlyOnce t := by
  cases e with
  | append o =>
    obtain rfl := Option.some.inj hstep
    exact h.append o
  | start id =>
    simp only [Shard.step] at hstep
    split at hstep
    · rename_i habsent
      obtain rfl := Option.some.inj hstep
      exact h.start habsent
    · cases hstep
  | loop id =>
    simp only [Shard.step] at hstep
    split at hstep
    · rename_i r hr
      exact h.advance hr (advance_cases hstep) hclean
    · cases hstep
  | kill id =>
    simp only [Shard.step] at hstep
    split at hstep
    · rename_i r hr
      obtain rfl := Option.some.inj hstep
      refine h.kill hr fun ha => ?_
      simpa [Shard.clean, hr, ha, Replica.midway] using hclean
    · cases hstep
  | restart id => cases hclean

theorem init : ExactlyOnce (Shard.init : Shard P) where
  toInLine := InLine.init
  exclusive := by simp [Shard.Exclusive, Shard.init]
  bounded := Nat.le_refl _
  idle := fun _ => rfl
  live := by simp [Shard.init]

end ExactlyOnce

/-- A replica in `pop` has put out the trades of the records it popped. -/
theorem Replica.out_of_polls (log : List (Order P)) (r : Replica P) (h : r.polls = true) :
    r.out log = tradesUpTo log r.offset := by
  unfold Replica.polls at h
  split at h
  · rename_i hpc
    simp [Replica.out, Replica.completed, Replica.applied, Replica.inProgress, hpc]
  · cases h

/-- All records of the log are completed, and their trades are out. -/
theorem ExactlyOnce.all_out {s : Shard P} (h : ExactlyOnce s) {holder : String}
    (hdone : s.drained holder = true) : s.trades = canonicalTrades s.log := by
  unfold Shard.drained at hdone
  split at hdone
  · rename_i r hr
    simp only [Bool.and_eq_true, beq_iff_eq] at hdone
    obtain ⟨⟨hactive, hpolls⟩, hoffset⟩ := hdone
    rw [(h.live holder r hr hactive).2, r.out_of_polls s.log hpolls, hoffset, tradesUpTo_length]
  · cases hdone

/-- **Exactly-once publication across failover.** In every run of clean events,
whenever the active replica has finished all records of the log, the trade
log holds the trades of those records in log order, each of them once. -/
theorem published_exactly_once {s : Shard P} (h : Reachable (restrict Shard.step Shard.clean) .init s)
    {id : String} (hdone : s.drained id = true) : s.trades = canonicalTrades s.log := by
  have hinv : ExactlyOnce s := h.invariant ExactlyOnce.init fun s e t hs he =>
    hs.step (restrict_some.mp he).1 (restrict_some.mp he).2
  exact hinv.all_out hdone

/-- A primary publishes the trade of two records, the standby applies them
too, the primary dies and the standby goes on with the third record. -/
def standbyLevel : List (Event ℚ) :=
  [.start "primary", .loop "primary", .start "standby", .loop "standby",
    .append (Order.make 1 .sell .limit 100 10), .append (Order.make 2 .buy .limit 100 10)] ++
  List.replicate 9 (.loop "primary") ++ List.replicate 6 (.loop "standby") ++
  [.kill "primary", .append (Order.make 3 .sell .limit 100 10)] ++
  List.replicate 4 (.loop "standby")

theorem published_exactly_once_level :
    ∃ s : Shard ℚ, exec (restrict Shard.step Shard.clean) .init standbyLevel = some s ∧
      s.trades = canonicalTrades s.log ∧ s.trades = [⟨2, 1, 100, 10, 3⟩] := by
  have hrun : (exec (restrict Shard.step Shard.clean) .init standbyLevel).any (fun s =>
      s.drained "standby" && s.trades == [⟨2, 1, 100, 10, 3⟩]) = true := by decide +kernel
  obtain ⟨s, hs, hq⟩ := exec_any hrun
  simp only [Bool.and_eq_true, beq_iff_eq] at hq
  exact ⟨s, hs, published_exactly_once (Reachable.start.exec hs) hq.1, hq.2⟩

/-- The same, but the primary never gets to the first two records. -/
def standbyAhead : List (Event ℚ) :=
  [.start "primary", .loop "primary", .start "standby", .loop "standby",
    .append (Order.make 1 .sell .limit 100 10), .append (Order.make 2 .buy .limit 100 10)] ++
  List.replicate 6 (.loop "standby") ++
  [.kill "primary", .append (Order.make 3 .sell .limit 100 10)] ++
  List.replicate 4 (.loop "standby")

/-- The standby takes over at the third record; the trade is never published. -/
theorem failover_loses_trade :
    ∃ s : Shard ℚ, exec Shard.step .init standbyAhead = some s ∧
      s.drained "standby" = true ∧ s.trades ≠ canonicalTrades s.log := by
  have hrun : (exec Shard.step .init standbyAhead).any (fun s =>
      s.drained "standby" && s.trades != canonicalTrades s.log) = true := by decide +kernel
  obtain ⟨s, hs, hq⟩ := exec_any hrun
  simp only [Bool.and_eq_true, bne_iff_ne] at hq
  exact ⟨s, hs, hq⟩

end TradingSystem
