import TradingSystem.Sharding

/-!
# Gateways with another number of shards

The runs of a cluster in which a gateway may have been started with any number
of shards. Each engine process checks every record it pops against its own
number (`src/engine_main.cpp`) and prints a warning, but goes on to submit the
order.

The warnings are exactly the records popped from a log that is not their
symbol's, so no symbol has two books in silence. What the check cannot see is
a log without a process.
-/

namespace TradingSystem

namespace Cluster

open Transition

variable {P : Type} [LT P] [DecidableLT P] [PriceArith P] {numShards : UInt32} {s t : Cluster P}

def AllHome (numShards : UInt32) (s : Cluster P) : Prop :=
  ∀ shard, ∀ o ∈ s.logs shard, shardForSymbol o.symbolStr numShards = shard

/-- What holds whatever the gateways were started with. -/
structure Checked (numShards : UInt32) (s : Cluster P) : Prop where
  popped : ∀ shard, Popped numShards shard (s.logs shard) (s.processes shard)
  unread : ∀ shard, numShards ≤ shard → s.processes shard = .start
  routed : s.AllHome numShards → ∀ shard,
    s.logs shard = s.appended.filter (shardForSymbol ·.symbolStr numShards = shard)

theorem checked_init : Checked numShards (init : Cluster P) := by
  constructor
  · intro shard
    exact ⟨Nat.le_refl _, rfl, rfl⟩
  · exact fun _ _ => rfl
  · exact fun _ _ => rfl

theorem Checked.push (h : Checked numShards s) (router : ShardRouterQueue) (o : Order P) :
    Checked numShards { s with logs := router.push s.logs o, appended := s.appended ++ [o] } := by
  have hgrow : ∀ shard, s.logs shard <+: router.push s.logs o shard := by
    intro shard
    rw [router.push_eq]
    exact List.prefix_append _ _
  constructor
  · exact fun shard => (h.popped shard).grow (hgrow shard)
  · exact h.unread
  · intro hhome shard
    -- the logs only grow, so they held their own records before the append
    have hbefore := h.routed fun shard o' ho' => hhome shard o' ((hgrow shard).subset ho')
    have hself : shardForSymbol o.symbolStr numShards =
        shardForSymbol o.symbolStr router.numShards := by
      apply hhome
      simp [router.push_eq]
    simp only [router.push_eq, List.filter_append, hbefore shard]
    congr 1
    by_cases hs : shardForSymbol o.symbolStr numShards = shard
    · simp [hs, hself ▸ hs]
    · simp [hs, hself ▸ hs]

theorem Checked.consume (h : Checked numShards s) {shard : UInt32} (hlt : shard < numShards)
    {o : Order P} (ho : (s.logs shard)[(s.processes shard).offset]? = some o) :
    Checked numShards { s with
      processes := Function.update s.processes shard
        ((s.processes shard).handle shard numShards o) } := by
  refine ⟨popped_consume h.popped ho, fun other hge => ?_, h.routed⟩
  have hs : other ≠ shard := by
    rintro rfl
    exact absurd hlt (UInt32.not_lt.mpr hge)
  simp only [Function.update_of_ne hs]
  exact h.unread other hge

theorem reachable_checked (h : Reachable (step numShards) init s) : Checked numShards s := by
  apply h.invariant checked_init
  intro s e t hs he
  cases e with
  | push router o =>
    obtain rfl := Option.some.inj he
    exact hs.push router o
  | consume shard =>
    simp only [step] at he
    split at he
    · obtain ⟨o, ho, rfl⟩ := Option.map_eq_some_iff.mp he
      exact hs.consume ‹_› ho
    · cases he

theorem Checked.routed_of_home (h : Checked numShards s) (hhome : s.AllHome numShards) :
    Routed numShards s :=
  ⟨h.routed hhome, h.popped⟩

structure MismatchCheck (numShards : UInt32) (s : Cluster P) : Prop where
  /-- the warnings are the popped records of other shards -/
  exact : ∀ shard, (s.processes shard).warnings =
    (s.consumed shard).filter (shardForSymbol ·.symbolStr numShards ≠ shard)
  /-- of two books for one symbol at least one was warned about -/
  split : ∀ a b, a ≠ b → ∀ o ∈ s.consumed a, ∀ o' ∈ s.consumed b, o.symbolStr = o'.symbolStr →
    o ∈ (s.processes a).warnings ∨ o' ∈ (s.processes b).warnings
  /-- a log without a process is never read -/
  unread : ∀ shard, numShards ≤ shard → s.consumed shard = []
  /-- no warnings and no such log: every symbol has an engine of its own -/
  silent : s.Drained numShards → (∀ shard < numShards, (s.processes shard).warnings = []) →
    (∀ shard, numShards ≤ shard → s.logs shard = []) → ∀ symbol, OwnEngine numShards symbol s

/-- **A wrong number of shards does not go unnoticed.** However the gateways
were started, the warnings are exactly the popped records of other shards; two
books for one symbol come with a warning; and a drained cluster with no
warnings and no log without a process has an engine for each symbol. -/
theorem mismatch_warned (hpos : 0 < numShards) (h : Reachable (step numShards) init s) :
    MismatchCheck numShards s := by
  have hchecked := reachable_checked h
  have hexact : ∀ shard, (s.processes shard).warnings =
      (s.consumed shard).filter (shardForSymbol ·.symbolStr numShards ≠ shard) :=
    fun shard => (hchecked.popped shard).warned
  refine ⟨hexact, ?_, ?_, ?_⟩
  · intro a b hab o ho o' ho' hsymbol
    by_cases hhome : shardForSymbol o.symbolStr numShards = a
    · right
      rw [hexact b]
      refine List.mem_filter.mpr ⟨ho', ?_⟩
      rw [← hsymbol, hhome]
      exact decide_eq_true hab
    · left
      rw [hexact a]
      exact List.mem_filter.mpr ⟨ho, decide_eq_true hhome⟩
  · intro shard hge
    rw [consumed, hchecked.unread shard hge]
    rfl
  · intro hdrained hquiet hempty symbol
    apply Routed.ownEngine _ hpos
    apply hchecked.routed_of_home
    intro shard o ho
    by_cases hlt : shard < numShards
    · have hall : s.consumed shard = s.logs shard := by
        rw [consumed, hdrained shard hlt, List.take_length]
      have hnone := hquiet shard hlt
      rw [hexact shard, hall, List.filter_eq_nil_iff] at hnone
      simpa using hnone o ho
    · rw [hempty shard (UInt32.not_lt.mp hlt)] at ho
      cases ho

/-- A buy and a sell at one price, routed by gateways that count three and two
shards, to three engine processes. -/
def twoCounts : List (ClusterEvent ℚ) :=
  [.push ⟨3⟩ { Order.make 1 .buy .limit 100 5 with symbol := setSymbol [88, 89, 90] },
    .push ⟨2⟩ { Order.make 2 .sell .limit 100 5 with symbol := setSymbol [88, 89, 90] },
    .consume 0, .consume 2]

/-- The two orders do not trade, and the process that should not have seen its
order says so. -/
theorem mismatch_warned_two_counts :
    ∃ s : Cluster ℚ, exec (step 3) init twoCounts = some s ∧ MismatchCheck 3 s ∧
      (s.processes 0).warnings.map Order.orderId = [2] ∧
      s.results 0 [88, 89, 90] = [.trades []] ∧ s.results 2 [88, 89, 90] = [.trades []] := by
  have hrun : (exec (step 3) (init : Cluster ℚ) twoCounts).any (fun s =>
      (s.processes 0).warnings.map Order.orderId == [2] &&
        (s.results 0 [88, 89, 90] == [.trades []] && s.results 2 [88, 89, 90] == [.trades []])) =
      true := by decide +kernel
  obtain ⟨s, hs, hq⟩ := exec_any hrun
  simp only [Bool.and_eq_true, beq_iff_eq] at hq
  exact ⟨s, hs, mismatch_warned (by decide) (Reachable.start.exec hs), hq⟩

end Cluster

end TradingSystem
