import TradingSystem.Failover

/-!
# Catching up

A replica that is left to run alone reads the rest of the log, applies every
record and goes back to `queue.pop`, within a number of steps that is known
beforehand. It ends with the engines of the whole log, and as the active
replica if the lock was free and it had another chance to try it: this is what
makes a standby a replacement.
-/

namespace TradingSystem

open Transition

variable {P : Type}

/-- Restarts of a replica that had popped nothing. -/
def Shard.freshRestart (s : Shard P) : Event P → Bool
  | .restart id => (s.checkpoint id).isNone
  | _ => true

/-- The steps of the loop up to the next `pop`, those that publish apart. -/
def Pc.rank : Pc P → ℕ
  | .starting => 1
  | .polling => 0
  | .popped _ => 3
  | .applying _ => 2
  | .publishing ts i => ts.length - i + 1

namespace Replica

/-- The replica is active, or it will try a lock that nobody holds. -/
def willLead (s : Shard P) (r : Replica P) : Bool :=
  r.active || s.lock.isNone && (r.triesLock || r.offset < s.log.length)

end Replica

/-- The process runs and will be active at the end of the log. -/
def Shard.willLead (s : Shard P) (id : String) : Bool :=
  match s.status id with
  | .running r => r.willLead s
  | _ => false

variable [LT P] [DecidableLT P] [PriceArith P]

/-- The loop steps to the end of the log: four for each record to be popped,
one for each trade of the records to be applied, and those of the record in
hand. -/
def Replica.work (log : List (Order P)) (r : Replica P) : ℕ :=
  4 * (log.length - r.offset) +
    ((canonicalTrades log).length - (tradesUpTo log r.applied).length) + r.pc.rank

theorem tradesUpTo_length_le (log : List (Order P)) (n : ℕ) :
    (tradesUpTo log n).length ≤ (canonicalTrades log).length := by
  obtain ⟨rest, hrest⟩ := tradesUpTo_canonical log n
  rw [hrest, List.length_append]
  exact Nat.le_add_right _ _

theorem tradesUpTo_length_mono (log : List (Order P)) {m n : ℕ} (h : m ≤ n) :
    (tradesUpTo log m).length ≤ (tradesUpTo log n).length := by
  have hle := tradesUpTo_length_le (log.take n) m
  rwa [tradesUpTo, List.take_take, Nat.min_eq_left h] at hle

/-- Every step of the loop brings its end nearer and keeps what the replica
will become. -/
theorem Advance.nearer {s t : Shard P} {id : String} {r r' : Replica P} (hadv : Advance s id r t)
    (h : Follows s.log r) (hr' : t.status id = .running r') :
    r'.work s.log < r.work s.log ∧ (r.willLead s = true → r'.willLead t = true) := by
  obtain ⟨r₁, hr₁, hfollows⟩ := hadv.follows h
  obtain rfl := Status.running.inj (hr'.symm.trans hr₁)
  cases hadv with
  | won htry hactive hlock =>
    obtain rfl := Status.running.inj ((s.put_status id _).symm.trans hr')
    refine ⟨?_, fun _ => rfl⟩
    simp only [Replica.work, htry.applied.1 true]
    cases htry with
    | starting hpc | popped hpc => simp [Pc.rank, hpc]
  | tried htry hlock =>
    obtain rfl := Status.running.inj ((s.put_status id _).symm.trans hr')
    constructor
    · simp only [Replica.work, htry.applied.1 r.active]
      cases htry with
      | starting hpc | popped hpc => simp [Pc.rank, hpc]
    · intro hlead
      rcases hlock with hactive | hheld
      · simp [Replica.willLead, hactive]
      · cases hl : s.lock with
        | none => exact absurd hl hheld
        | some holder =>
          simp only [Replica.willLead, hl, Option.isNone_some, Bool.false_and, Bool.or_false] at hlead
          simp [Replica.willLead, hlead]
  | pop hpc hrec =>
    obtain rfl := Status.running.inj ((s.put_status id _).symm.trans hr')
    have hlt := (List.getElem?_eq_some_iff.mp hrec).1
    constructor
    · simp only [Replica.work, Replica.applied, hpc, Pc.rank]
      simp only [Nat.add_sub_cancel]
      omega
    · simp [Replica.willLead, Replica.triesLock, Shard.put, hpc, hlt]
  | @apply o hpc =>
    obtain rfl := Status.running.inj ((s.put_status id _).symm.trans hr')
    cases hactive : r.active with
    | true =>
      refine ⟨?_, fun _ => by simp [Replica.willLead]⟩
      -- the trades of the record move from those to come to those in hand
      obtain ⟨-, -, -, htrades⟩ := hfollows.results _ 0 (if_pos hactive)
      have hle := tradesUpTo_length_le s.log r.offset
      have hlen := congrArg List.length htrades
      simp only [List.length_append] at hlen hle
      simp only [Replica.work, Replica.applied, hpc, if_true, Pc.rank]
      omega
    | false =>
      have hmono := tradesUpTo_length_mono s.log (Nat.sub_le r.offset 1)
      constructor
      · simp only [Replica.work, Replica.applied, hpc, Bool.false_eq_true, if_false, Pc.rank]
        omega
      · simp [Replica.willLead, Replica.triesLock, Shard.put, hpc, hactive]
  | @publish ts i trade hpc ht =>
    obtain rfl := Status.running.inj ((s.put_status id _).symm.trans hr')
    have hlt := (List.getElem?_eq_some_iff.mp ht).1
    have hactive := (h.results ts i hpc).1
    refine ⟨?_, fun _ => by simp [Replica.willLead, hactive]⟩
    simp only [Replica.work, Replica.applied, hpc, Pc.rank]
    omega
  | @finish ts i hpc ht =>
    obtain rfl := Status.running.inj ((s.put_status id _).symm.trans hr')
    have hactive := (h.results ts i hpc).1
    refine ⟨?_, fun _ => by simp [Replica.willLead, hactive]⟩
    simp only [Replica.work, Replica.applied, hpc, Pc.rank]
    omega

/-- What is kept while replica `id` runs alone, from state `s` on. -/
structure Alone (s : Shard P) (id : String) (lead : Bool) (t : Shard P) : Prop where
  log : t.log = s.log
  running : ∃ r, t.status id = .running r ∧ Follows t.log r ∧ (lead = true → r.willLead t = true)

/-- How far a replica is from the end of the log. -/
def Shard.workOf (s : Shard P) (id : String) : ℕ :=
  match s.status id with
  | .running r => r.work s.log
  | _ => 0

theorem Alone.step {s t u : Shard P} {id : String} {lead : Bool} (h : Alone s id lead t)
    (hstep : t.step (.loop id) = some u) : Alone s id lead u ∧ u.workOf id < t.workOf id := by
  obtain ⟨r, hr, hfollows, hlead⟩ := h.running
  simp only [Shard.step, hr] at hstep
  have hadv := advance_cases hstep
  obtain ⟨r', hr', hfollows'⟩ := hadv.follows hfollows
  obtain ⟨hless, hkeep⟩ := hadv.nearer hfollows hr'
  have hlog : u.log = t.log := hadv.frame.1
  refine ⟨⟨hlog.trans h.log, r', hr', hlog ▸ hfollows', fun hl => hkeep (hlead hl)⟩, ?_⟩
  simp only [Shard.workOf, hr, hr', hlog]
  exact hless

/-- A replica has no step to take only in `pop`, at the end of the log. -/
theorem Follows.at_end {s : Shard P} {id : String} {r : Replica P} (h : Follows s.log r)
    (hnone : s.advance id r = none) : r.pc = .polling ∧ r.offset = s.log.length := by
  unfold Shard.advance at hnone
  cases hpc : r.pc with
  | polling =>
    simp only [hpc] at hnone
    split at hnone
    · exact ⟨rfl, Nat.le_antisymm h.bounded (List.getElem?_eq_none_iff.mp ‹_›)⟩
    · cases hnone
  | publishing ts i =>
    simp only [hpc] at hnone
    split at hnone <;> cases hnone
  | starting | popped o | applying o =>
    simp only [hpc] at hnone
    cases hnone

theorem reachable_inLine {s : Shard P}
    (h : Reachable (restrict Shard.step Shard.freshRestart) .init s) : InLine s := by
  apply h.invariant InLine.init
  intro s e t hs he
  obtain ⟨hok, hstep⟩ := restrict_some.mp he
  apply hs.step hstep
  rintro id rfl -
  exact Option.isNone_iff_eq_none.mp hok

/-- **A replica catches up.** From any reachable state, the loop of a running
replica alone takes it to the end of the log in at most `work` steps. There its
engines are those of the whole log; and if it was active, or nobody held the
lock and it had yet to try it, it is active and the log is drained. -/
theorem replica_catches_up {s : Shard P} {id : String} {r : Replica P}
    (h : Reachable (restrict Shard.step Shard.freshRestart) .init s)
    (hr : s.status id = .running r) :
    ∃ n t r', n ≤ r.work s.log ∧ exec Shard.step s (List.replicate n (.loop id)) = some t ∧
      t.log = s.log ∧ t.status id = .running r' ∧ r'.offset = s.log.length ∧
      r'.engines = enginesAt s.log s.log.length ∧
      (r.willLead s = true → t.drained id = true) := by
  have hfollows := (reachable_inLine h).follows id r hr
  have hstart : Alone s id (r.willLead s) s := ⟨rfl, r, hr, hfollows, fun hl => hl⟩
  obtain ⟨n, t, hn, hexec, ht, hend⟩ :=
    exec_repeats (μ := fun s => s.workOf id) (fun t u ht hu => ht.step hu) hstart
  obtain ⟨r', hr', hfollows', hlead⟩ := ht.running
  simp only [Shard.step, hr'] at hend
  obtain ⟨hpc, hoffset⟩ := hfollows'.at_end hend
  have hwork : s.workOf id = r.work s.log := by simp only [Shard.workOf, hr]
  refine ⟨n, t, r', hwork ▸ hn, hexec, ht.log, hr', ht.log ▸ hoffset, ?_, fun hl => ?_⟩
  · rw [hfollows'.engines, ht.log, Replica.applied, hpc]
    simp only [hoffset, ht.log]
  · have hactive : r'.active = true := by
      simpa [Replica.willLead, Replica.triesLock, hpc, hoffset] using hlead hl
    simp [Shard.drained, Replica.polls, hr', hpc, hoffset, hactive]

/-- The primary dies with the second record in hand; the standby has read
nothing yet. -/
def primaryDies : List (Event ℚ) :=
  [.start "primary", .loop "primary", .start "standby", .loop "standby",
    .append (Order.make 1 .sell .limit 100 10), .append (Order.make 2 .buy .limit 100 10)] ++
  List.replicate 5 (.loop "primary") ++ [.kill "primary"]

theorem replica_catches_up_standby :
    ∃ s r, exec (restrict Shard.step Shard.freshRestart) .init primaryDies = some s ∧
      s.status "standby" = .running r ∧ r.work s.log = 9 ∧
      ∃ n t, n ≤ 9 ∧ exec Shard.step s (List.replicate n (.loop "standby")) = some t ∧
        t.drained "standby" = true := by
  have hrun : (exec (restrict Shard.step Shard.freshRestart) .init primaryDies).any (fun s =>
      s.willLead "standby" && s.workOf "standby" == 9) = true := by decide +kernel
  obtain ⟨s, hs, hq⟩ := exec_any hrun
  obtain ⟨hlead, hwork⟩ := Bool.and_eq_true_iff.mp hq
  unfold Shard.willLead at hlead
  split at hlead
  · rename_i r hr
    have hnine : r.work s.log = 9 := by simpa [Shard.workOf, hr] using hwork
    obtain ⟨n, t, -, hn, hexec, -, -, -, -, hdrained⟩ :=
      replica_catches_up (Reachable.start.exec hs) hr
    exact ⟨s, r, hs, hr, hnine, n, t, hnine ▸ hn, hexec, hdrained hlead⟩
  · cases hlead

end TradingSystem
