import TradingSystem.EngineMain
import TradingSystem.Lib.Transition

/-!
# One shard: gateways, replicas, the leader lock and the trade log

Any number of processes run the loop of `src/engine_main.cpp` on one shard's
order log. A replica advances by the steps of that loop: take the lock at
start-up, pop a record, try the lock, apply the record, publish its trades
one by one. Gateways append in between, and a replica may die at any point;
the lock (`flock`) is exclusive and dies with its holder. What survives a
process is durable: the log, the checkpoints and the trade log.
-/

namespace TradingSystem

variable {P : Type}

/-- Where a replica is in its loop. -/
inductive Pc (P : Type) where
  /-- before the first `try_acquire` -/
  | starting
  /-- in `queue.pop` -/
  | polling
  /-- a record has been read and checkpointed -/
  | popped (o : Order P)
  /-- the lock has been tried -/
  | applying (o : Order P)
  /-- in the loop over the record's trades, the first `i` of them published -/
  | publishing (ts : List (Trade P)) (i : ℕ)

/-- The memory of a running process. `active` is also `held_` of its lock. -/
structure Replica (P : Type) where
  engines : Engines P
  offset : ℕ
  active : Bool
  pc : Pc P

inductive Status (P : Type) where
  | absent
  | running (r : Replica P)
  | killed

/-- The shard: durable files, the lock and the processes by replica id.
`served` is a ghost: how many records the active replicas have completed. -/
structure Shard (P : Type) where
  log : List (Order P)
  checkpoint : String → Option ℕ
  trades : List (Trade P)
  lock : Option String
  status : String → Status P
  served : ℕ

def Shard.init : Shard P := ⟨[], fun _ => none, [], none, fun _ => .absent, 0⟩

namespace Replica

/-- How many records the replica's engines have been fed. -/
def applied (r : Replica P) : ℕ :=
  match r.pc with
  | .popped _ | .applying _ => r.offset - 1
  | _ => r.offset

/-- The trades of the record in hand that are out already, when others are not. -/
def inProgress (r : Replica P) : List (Trade P) :=
  match r.pc with
  | .publishing ts i => if i < ts.length then ts.take i else []
  | _ => []

/-- How many records the replica has applied and, if active, published. -/
def completed (r : Replica P) : ℕ :=
  match r.pc with
  | .publishing ts i => if i < ts.length then r.offset - 1 else r.offset
  | _ => r.applied

/-- Some but not all trades of the record in hand are published. -/
def midway (r : Replica P) : Bool := !r.inProgress.isEmpty

/-- The loop is at `queue.pop`. -/
def polls (r : Replica P) : Bool :=
  match r.pc with
  | .polling => true
  | _ => false

/-- The next step calls `try_acquire` unless the lock is held already. -/
def triesLock (r : Replica P) : Bool :=
  match r.pc with
  | .starting | .popped _ => true
  | _ => false

end Replica

namespace Shard

def put (s : Shard P) (id : String) (r : Replica P) : Shard P :=
  { s with
    status := Function.update s.status id (.running r)
    served := if r.active then r.completed else s.served }

@[simp] theorem put_status (s : Shard P) (id : String) (r : Replica P) :
    (s.put id r).status id = .running r :=
  Function.update_self _ _ _

/-- `try_acquire`, leaving the loop at `next`. -/
def tryAcquire (s : Shard P) (id : String) (r : Replica P) (next : Pc P) : Shard P :=
  if !r.active && s.lock.isNone then
    { s.put id { r with active := true, pc := next } with lock := some id }
  else s.put id { r with pc := next }

/-- A new process: the checkpoint is read, the engines are empty. -/
def boot (s : Shard P) (id : String) : Shard P :=
  s.put id ⟨Engines.empty, (s.checkpoint id).getD 0, false, .starting⟩

section
variable [LT P] [DecidableLT P] [PriceArith P]

/-- One step of the loop; `none` while `pop` has nothing to return. -/
def advance (s : Shard P) (id : String) (r : Replica P) : Option (Shard P) :=
  match r.pc with
  | .starting => some (s.tryAcquire id r .polling)
  | .polling =>
    match s.log[r.offset]? with
    | none => none
    | some o => some
        { s.put id { r with offset := r.offset + 1, pc := .popped o } with
          checkpoint := Function.update s.checkpoint id (some (r.offset + 1)) }
  | .popped o => some (s.tryAcquire id r (.applying o))
  | .applying o =>
    let a := r.engines.apply o
    some (s.put id { r with
      engines := a.1
      pc := if r.active then .publishing a.2.tradeList 0 else .polling })
  | .publishing ts i =>
    match ts[i]? with
    | some t => some
        { s.put id { r with pc := .publishing ts (i + 1) } with trades := s.trades ++ [t] }
    | none => some (s.put id { r with pc := .polling })

end

end Shard

inductive Event (P : Type) where
  | append (o : Order P)
  | start (id : String)
  | loop (id : String)
  | kill (id : String)
  | restart (id : String)

namespace Shard

variable [LT P] [DecidableLT P] [PriceArith P]

def step (s : Shard P) : Event P → Option (Shard P)
  | .append o => some { s with log := s.log ++ [o] }
  | .start id =>
    match s.status id with
    | .absent => some (s.boot id)
    | _ => none
  | .loop id =>
    match s.status id with
    | .running r => s.advance id r
    | _ => none
  | .kill id =>
    match s.status id with
    | .running _ => some
        { s with
          status := Function.update s.status id .killed
          lock := if s.lock = some id then none else s.lock }
    | _ => none
  | .restart id =>
    match s.status id with
    | .killed => some (s.boot id)
    | _ => none

end Shard

/-! ## What a step can do -/

/-- The two places where the loop tries the lock. -/
inductive Replica.Tries (r : Replica P) : Pc P → Prop where
  | starting : r.pc = .starting → r.Tries .polling
  | popped {o : Order P} : r.pc = .popped o → r.Tries (.applying o)

section
variable [LT P] [DecidableLT P] [PriceArith P]

inductive Advance (s : Shard P) (id : String) (r : Replica P) : Shard P → Prop where
  | won {next : Pc P} (htry : r.Tries next) (hactive : r.active = false) (hlock : s.lock = none) :
      Advance s id r { s.put id { r with active := true, pc := next } with lock := some id }
  | tried {next : Pc P} (htry : r.Tries next) (hlock : r.active = true ∨ s.lock ≠ none) :
      Advance s id r (s.put id { r with pc := next })
  | pop {o : Order P} (hpc : r.pc = .polling) (hrec : s.log[r.offset]? = some o) :
      Advance s id r
        { s.put id { r with offset := r.offset + 1, pc := .popped o } with
          checkpoint := Function.update s.checkpoint id (some (r.offset + 1)) }
  | apply {o : Order P} (hpc : r.pc = .applying o) :
      Advance s id r (s.put id { r with
        engines := (r.engines.apply o).1
        pc := if r.active then .publishing (r.engines.apply o).2.tradeList 0 else .polling })
  | publish {ts : List (Trade P)} {i : ℕ} {t : Trade P} (hpc : r.pc = .publishing ts i)
      (ht : ts[i]? = some t) :
      Advance s id r
        { s.put id { r with pc := .publishing ts (i + 1) } with trades := s.trades ++ [t] }
  | finish {ts : List (Trade P)} {i : ℕ} (hpc : r.pc = .publishing ts i) (ht : ts[i]? = none) :
      Advance s id r (s.put id { r with pc := .polling })

omit [LT P] [DecidableLT P] [PriceArith P] in
theorem tryAcquire_cases (s : Shard P) (id : String) (r : Replica P) (next : Pc P) :
    r.active = false ∧ s.lock = none ∧ s.tryAcquire id r next =
        { s.put id { r with active := true, pc := next } with lock := some id } ∨
      (r.active = true ∨ s.lock ≠ none) ∧ s.tryAcquire id r next = s.put id { r with pc := next } := by
  unfold Shard.tryAcquire
  cases ha : r.active with
  | true => simp
  | false =>
    cases hl : s.lock with
    | none => simp
    | some holder => simp

theorem advance_cases {s t : Shard P} {id : String} {r : Replica P}
    (h : s.advance id r = some t) : Advance s id r t := by
  have htries : ∀ next, r.Tries next → Advance s id r (s.tryAcquire id r next) := by
    intro next htry
    obtain ⟨ha, hl, heq⟩ | ⟨hl, heq⟩ := tryAcquire_cases s id r next
    · rw [heq]
      exact .won htry ha hl
    · rw [heq]
      exact .tried htry hl
  unfold Shard.advance at h
  cases hpc : r.pc with
  | starting =>
    simp only [hpc, Option.some.injEq] at h
    rw [← h]
    exact htries _ (.starting hpc)
  | polling =>
    simp only [hpc] at h
    split at h
    · cases h
    · rename_i o hrec
      rw [← Option.some.inj h]
      exact .pop hpc hrec
  | popped o =>
    simp only [hpc, Option.some.injEq] at h
    rw [← h]
    exact htries _ (.popped hpc)
  | applying o =>
    simp only [hpc, Option.some.injEq] at h
    rw [← h]
    exact .apply hpc
  | publishing ts i =>
    simp only [hpc] at h
    split at h
    · rename_i t ht
      rw [← Option.some.inj h]
      exact .publish hpc ht
    · rename_i ht
      rw [← Option.some.inj h]
      exact .finish hpc ht

/-! ## Replicas that follow the log -/

/-- The replica's engines are those of the records it has applied, and what it
has in hand comes from the log. -/
structure Follows (log : List (Order P)) (r : Replica P) : Prop where
  engines : r.engines = enginesAt log r.applied
  bounded : r.offset ≤ log.length
  inHand : ∀ o, r.pc = .popped o ∨ r.pc = .applying o →
    0 < r.offset ∧ log[r.offset - 1]? = some o
  results : ∀ ts i, r.pc = .publishing ts i → r.active = true ∧ 0 < r.offset ∧ i ≤ ts.length ∧
    tradesUpTo log r.offset = tradesUpTo log (r.offset - 1) ++ ts

theorem Follows.append {log : List (Order P)} {r : Replica P} (h : Follows log r) (o : Order P) :
    Follows (log ++ [o]) r := by
  have hlen := h.bounded
  have happ : r.applied ≤ log.length := by
    unfold Replica.applied
    split <;> omega
  refine ⟨?_, ?_, ?_, ?_⟩
  · rw [enginesAt_snoc happ]
    exact h.engines
  · simp only [List.length_append, List.length_singleton]
    omega
  · intro o' hpc
    obtain ⟨hpos, hrec⟩ := h.inHand o' hpc
    exact ⟨hpos, by rw [List.getElem?_append_left (by omega)]; exact hrec⟩
  · intro ts i hpc
    rw [tradesUpTo_snoc hlen, tradesUpTo_snoc (by omega)]
    exact h.results ts i hpc

omit [LT P] [DecidableLT P] [PriceArith P] in
theorem Replica.Tries.applied {r : Replica P} {next : Pc P} (h : r.Tries next) :
    (∀ a, ({ r with active := a, pc := next } : Replica P).applied = r.applied) ∧
      (∀ a, ({ r with active := a, pc := next } : Replica P).completed = r.completed) ∧
      (∀ a, ({ r with active := a, pc := next } : Replica P).inProgress = []) ∧
      r.inProgress = [] := by
  cases h with
  | starting hpc => simp [Replica.applied, Replica.completed, Replica.inProgress, hpc]
  | popped hpc => simp [Replica.applied, Replica.completed, Replica.inProgress, hpc]

theorem Follows.tries {log : List (Order P)} {r : Replica P} (h : Follows log r) {next : Pc P}
    (htry : r.Tries next) (a : Bool) : Follows log { r with active := a, pc := next } := by
  refine ⟨?_, h.bounded, ?_, ?_⟩
  · rw [htry.applied.1]
    exact h.engines
  · cases htry with
    | starting hpc => simp
    | popped hpc =>
      intro o hnext
      simp only [reduceCtorEq, Pc.applying.injEq, false_or] at hnext
      subst hnext
      exact h.inHand _ (Or.inl hpc)
  · cases htry with
    | starting hpc => simp
    | popped hpc => simp

/-- One step of the loop keeps a replica in line with the log. -/
theorem Advance.follows {s t : Shard P} {id : String} {r : Replica P} (hadv : Advance s id r t)
    (h : Follows s.log r) : ∃ r', t.status id = .running r' ∧ Follows s.log r' := by
  cases hadv with
  | won htry ha hl => exact ⟨_, s.put_status id _, h.tries htry true⟩
  | tried htry hl => exact ⟨_, s.put_status id _, h.tries htry r.active⟩
  | pop hpc hrec =>
    have hlt := (List.getElem?_eq_some_iff.mp hrec).1
    have hengines := h.engines
    simp only [Replica.applied, hpc] at hengines
    refine ⟨_, s.put_status id _, hengines, hlt, ?_, ?_⟩
    · rintro o (hnext | hnext)
      · obtain rfl := Pc.popped.inj hnext
        exact ⟨Nat.succ_pos _, hrec⟩
      · cases hnext
    · intro ts i hnext
      cases hnext
  | @apply o hpc =>
    obtain ⟨hpos, hrec⟩ := h.inHand o (Or.inr hpc)
    have hengines := h.engines
    have hsucc : r.offset - 1 + 1 = r.offset := by omega
    have hnext := enginesAt_succ hrec
    have htrades := tradesUpTo_succ hrec
    simp only [Replica.applied, hpc] at hengines
    rw [hsucc, ← hengines] at hnext htrades
    refine ⟨_, s.put_status id _, ?_, h.bounded, ?_, ?_⟩
    · cases r.active <;> exact hnext.symm
    · cases r.active <;> simp
    · intro ts i hpub
      cases ha : r.active with
      | false => simp [ha] at hpub
      | true =>
        simp only [ha, if_true, Pc.publishing.injEq] at hpub
        obtain ⟨rfl, rfl⟩ := hpub
        exact ⟨rfl, hpos, Nat.zero_le _, htrades⟩
  | @publish ts i t hpc ht =>
    obtain ⟨ha, hpos, -, htrades⟩ := h.results ts i hpc
    have hengines := h.engines
    simp only [Replica.applied, hpc] at hengines
    have hlt := (List.getElem?_eq_some_iff.mp ht).1
    refine ⟨_, s.put_status id _, hengines, h.bounded, by simp, ?_⟩
    intro ts' i' hpub
    obtain ⟨rfl, rfl⟩ := Pc.publishing.inj hpub
    exact ⟨ha, hpos, hlt, htrades⟩
  | @finish ts i hpc ht =>
    have hengines := h.engines
    simp only [Replica.applied, hpc] at hengines
    exact ⟨_, s.put_status id _, hengines, h.bounded, by simp, by simp⟩

/-- A process that starts without a checkpoint starts in line with the log. -/
theorem follows_boot (log : List (Order P)) :
    Follows log ⟨Engines.empty, 0, false, .starting⟩ :=
  ⟨rfl, Nat.zero_le _, by simp, by simp⟩

/-- A step of the loop touches no other process and no other checkpoint. -/
theorem Advance.frame {s t : Shard P} {id : String} {r : Replica P} (hadv : Advance s id r t) :
    t.log = s.log ∧ ∀ id' ≠ id, t.status id' = s.status id' ∧
      t.checkpoint id' = s.checkpoint id' := by
  cases hadv with
  | won | tried | apply | publish | finish =>
    exact ⟨rfl, fun id' hne => ⟨Function.update_of_ne hne _ _, rfl⟩⟩
  | pop =>
    exact ⟨rfl, fun id' hne => ⟨Function.update_of_ne hne _ _, Function.update_of_ne hne _ _⟩⟩

/-- All running replicas follow the log, and an id not used yet has no checkpoint. -/
structure InLine (s : Shard P) : Prop where
  follows : ∀ id r, s.status id = .running r → Follows s.log r
  fresh : ∀ id, s.status id = .absent → s.checkpoint id = none

namespace InLine

variable {s t : Shard P} {id : String} {r : Replica P}

theorem init : InLine (Shard.init : Shard P) :=
  ⟨by simp [Shard.init], fun _ _ => rfl⟩

theorem append (h : InLine s) (o : Order P) : InLine { s with log := s.log ++ [o] } :=
  ⟨fun id r hr => (h.follows id r hr).append o, h.fresh⟩

theorem boot (h : InLine s) (hnone : s.checkpoint id = none) : InLine (s.boot id) := by
  unfold Shard.boot
  rw [hnone]
  constructor
  · intro id' r hr
    by_cases hne : id' = id
    · subst hne
      rw [Shard.put_status] at hr
      obtain rfl := Status.running.inj hr
      exact follows_boot s.log
    · exact h.follows id' r ((Function.update_of_ne hne _ _).symm.trans hr)
  · intro id' habsent
    by_cases hne : id' = id
    · subst hne
      exact hnone
    · exact h.fresh id' ((Function.update_of_ne hne _ _).symm.trans habsent)

theorem advance (h : InLine s) (hr : s.status id = .running r) (hadv : Advance s id r t) :
    InLine t := by
  obtain ⟨r₁, hr₁, hfollows⟩ := hadv.follows (h.follows id r hr)
  obtain ⟨hlog, hother⟩ := hadv.frame
  constructor
  · intro id' q hq
    rw [hlog]
    by_cases hne : id' = id
    · subst hne
      rw [hr₁] at hq
      obtain rfl := Status.running.inj hq
      exact hfollows
    · exact h.follows id' q ((hother id' hne).1 ▸ hq)
  · intro id' habsent
    by_cases hne : id' = id
    · subst hne
      rw [hr₁] at habsent
      cases habsent
    · rw [(hother id' hne).2]
      exact h.fresh id' ((hother id' hne).1 ▸ habsent)

theorem kill (h : InLine s) (id : String) :
    InLine { s with
      status := Function.update s.status id .killed
      lock := if s.lock = some id then none else s.lock } := by
  have hother : ∀ id', id' ≠ id →
      Function.update s.status id .killed id' = s.status id' :=
    fun id' hne => Function.update_of_ne hne _ _
  constructor
  · intro id' q hq
    by_cases hne : id' = id
    · subst hne
      simp at hq
    · exact h.follows id' q ((hother id' hne).symm.trans hq)
  · intro id' habsent
    by_cases hne : id' = id
    · subst hne
      simp at habsent
    · exact h.fresh id' ((hother id' hne).symm.trans habsent)

/-- Every step keeps the replicas in line, a restart if nothing was popped before. -/
theorem step (h : InLine s) {e : Event P} (hstep : s.step e = some t)
    (hrestart : ∀ id, e = .restart id → s.status id = .killed → s.checkpoint id = none) :
    InLine t := by
  cases e with
  | append o =>
    obtain rfl := Option.some.inj hstep
    exact h.append o
  | start id =>
    simp only [Shard.step] at hstep
    split at hstep
    · rename_i habsent
      obtain rfl := Option.some.inj hstep
      exact h.boot (h.fresh id habsent)
    · cases hstep
  | loop id =>
    simp only [Shard.step] at hstep
    split at hstep
    · rename_i r hr
      exact h.advance hr (advance_cases hstep)
    · cases hstep
  | kill id =>
    simp only [Shard.step] at hstep
    split at hstep
    · obtain rfl := Option.some.inj hstep
      exact h.kill id
    · cases hstep
  | restart id =>
    simp only [Shard.step] at hstep
    split at hstep
    · rename_i hkilled
      obtain rfl := Option.some.inj hstep
      exact h.boot (hrestart id rfl hkilled)
    · cases hstep

end InLine

end

end TradingSystem
