import TradingSystem.EngineMain
import TradingSystem.Lib.Transition

/-!
# Sharding by symbol

Gateways (`include/shard_router_queue.hpp`) hash the symbol of each order
(`include/sharding.hpp`) and append the order to the log of its shard. One
engine process for each shard (`src/engine_main.cpp`) drains that log. The
appends of all gateways and the pops of all processes interleave freely.

The projection of this system on one symbol is a single matching engine.
-/

namespace TradingSystem

open Transition

variable {P : Type}

/-- FNV-1a over the bytes of a string. -/
def fnv1a (s : List UInt8) : UInt64 :=
  s.foldl (fun hash c => (hash ^^^ c.toUInt64) * 1099511628211) 14695981039346656037

/-- The shard that owns a symbol. -/
def shardForSymbol (symbol : List UInt8) (numShards : UInt32) : UInt32 :=
  (fnv1a symbol % numShards.toUInt64).toUInt32

theorem shardForSymbol_lt (symbol : List UInt8) {numShards : UInt32} (h : 0 < numShards) :
    shardForSymbol symbol numShards < numShards := by
  have hpos : 0 < numShards.toNat := UInt32.lt_iff_toNat_lt.mp h
  have hmod : (fnv1a symbol).toNat % numShards.toNat < numShards.toNat := Nat.mod_lt _ hpos
  have hsize : numShards.toNat < 2 ^ 32 := numShards.toNat_lt
  rw [UInt32.lt_iff_toNat_lt, shardForSymbol, UInt64.toNat_toUInt32, UInt64.toNat_mod,
    UInt32.toNat_toUInt64, Nat.mod_eq_of_lt (hmod.trans hsize)]
  exact hmod

/-- A gateway's queue. It holds the shard logs' handles and no orders. -/
structure ShardRouterQueue where
  numShards : UInt32

/-- `push`: append to the log of the shard that owns the symbol. -/
def ShardRouterQueue.push (router : ShardRouterQueue) (logs : UInt32 → List (Order P))
    (o : Order P) : UInt32 → List (Order P) :=
  let shard := shardForSymbol o.symbolStr router.numShards
  Function.update logs shard (logs shard ++ [o])

theorem ShardRouterQueue.push_eq (router : ShardRouterQueue) (logs : UInt32 → List (Order P))
    (o : Order P) (shard : UInt32) :
    router.push logs o shard =
      logs shard ++ [o].filter (shardForSymbol ·.symbolStr router.numShards = shard) := by
  unfold ShardRouterQueue.push
  by_cases hs : shard = shardForSymbol o.symbolStr router.numShards
  · subst hs
    simp
  · simp [hs, Ne.symm hs]

/-- An engine process that is active from the start. `warnings` are the orders
its mismatch check complained about, `output` the results it printed. -/
structure EngineProcess (P : Type) where
  offset : ℕ
  engines : Engines P
  warnings : List (Order P)
  output : List (List UInt8 × SubmitResult P)

/-- No checkpoint, no engines. -/
def EngineProcess.start : EngineProcess P := ⟨0, Engines.empty, [], []⟩

section Process
variable [LT P] [DecidableLT P] [PriceArith P]

/-- The loop body for the order at `offset`. -/
def EngineProcess.handle (shardId numShards : UInt32) (p : EngineProcess P) (o : Order P) :
    EngineProcess P :=
  let expected := shardForSymbol o.symbolStr numShards
  let r := p.engines.serve o
  { offset := p.offset + 1
    engines := r.1
    warnings := if expected ≠ shardId then p.warnings ++ [o] else p.warnings
    output := p.output ++ [r.2] }

end Process

/-- The shard logs and the engine processes. `appended` is a ghost: the orders
of all logs, as they were appended. -/
structure Cluster (P : Type) where
  logs : UInt32 → List (Order P)
  processes : UInt32 → EngineProcess P
  appended : List (Order P)

inductive ClusterEvent (P : Type) where
  | push (router : ShardRouterQueue) (o : Order P)
  | consume (shard : UInt32)

namespace Cluster

def init : Cluster P := ⟨fun _ => [], fun _ => .start, []⟩

/-- The records a process has popped. -/
def consumed (s : Cluster P) (shard : UInt32) : List (Order P) :=
  (s.logs shard).take (s.processes shard).offset

/-- The orders of a symbol, as they were appended. -/
def ordersOf (s : Cluster P) (symbol : List UInt8) : List (Order P) :=
  s.appended.filter (·.symbolStr = symbol)

/-- Every process has popped its whole log. -/
def Drained (numShards : UInt32) (s : Cluster P) : Prop :=
  ∀ shard < numShards, (s.processes shard).offset = (s.logs shard).length

/-- What a shard's process printed for a symbol. -/
def results (s : Cluster P) (shard : UInt32) (symbol : List UInt8) : List (SubmitResult P) :=
  Machine.outputsOf symbol (s.processes shard).output

/-- All gateways were started with the engines' number of shards. -/
def sameShards (numShards : UInt32) (_ : Cluster P) : ClusterEvent P → Bool
  | .push router _ => router.numShards = numShards
  | .consume _ => true

variable [LT P] [DecidableLT P] [PriceArith P]

/-- One append by a gateway, or one round of the loop of an engine process. -/
def step (numShards : UInt32) (s : Cluster P) : ClusterEvent P → Option (Cluster P)
  | .push router o => some { s with
      logs := router.push s.logs o
      appended := s.appended ++ [o] }
  | .consume shard =>
    if shard < numShards then
      (s.logs shard)[(s.processes shard).offset]?.map fun o => { s with
        processes := Function.update s.processes shard
          ((s.processes shard).handle shard numShards o) }
    else none

/-- The runs of a cluster whose gateways agree with the engines. -/
abbrev Runs (numShards : UInt32) (s : Cluster P) : Prop :=
  Reachable (restrict (step numShards) (sameShards numShards)) init s

/-! ## Routing and serving -/

/-- A process has served the part of its log that it has popped, and warned of
the records that belong elsewhere. -/
structure Popped (numShards shard : UInt32) (log : List (Order P)) (p : EngineProcess P) : Prop where
  offset_le : p.offset ≤ log.length
  served : (p.engines, p.output) = Machine.run Engines.serve Engines.empty (log.take p.offset)
  warned : p.warnings =
    (log.take p.offset).filter (shardForSymbol ·.symbolStr numShards ≠ shard)

section
variable {numShards shard : UInt32} {log : List (Order P)} {p : EngineProcess P}

theorem Popped.grow (h : Popped numShards shard log p) {log' : List (Order P)}
    (hlog : log <+: log') : Popped numShards shard log' p := by
  obtain ⟨rest, rfl⟩ := hlog
  have htake : (log ++ rest).take p.offset = log.take p.offset :=
    List.take_append_of_le_length h.offset_le
  constructor
  · exact h.offset_le.trans (List.prefix_append _ _).length_le
  · rw [htake]
    exact h.served
  · rw [htake]
    exact h.warned

theorem Popped.handle (h : Popped numShards shard log p) {o : Order P}
    (ho : log[p.offset]? = some o) : Popped numShards shard log (p.handle shard numShards o) := by
  have hlt : p.offset < log.length := (List.getElem?_eq_some_iff.mp ho).1
  constructor
  · exact hlt
  · simp only [EngineProcess.handle, ListLemmas.take_snoc ho, Machine.run_snoc, ← h.served]
  · simp only [EngineProcess.handle, ListLemmas.take_snoc ho, List.filter_append, ← h.warned]
    by_cases hhome : shardForSymbol o.symbolStr numShards = shard
    · simp [hhome]
    · simp [hhome]

/-- One process takes a record, the others stay as they are. -/
theorem popped_consume {s : Cluster P}
    (h : ∀ other, Popped numShards other (s.logs other) (s.processes other)) {o : Order P}
    (ho : (s.logs shard)[(s.processes shard).offset]? = some o) (other : UInt32) :
    Popped numShards other (s.logs other) (Function.update s.processes shard
      ((s.processes shard).handle shard numShards o) other) := by
  by_cases hs : other = shard
  · subst hs
    simp only [Function.update_self]
    exact (h other).handle ho
  · simp only [Function.update_of_ne hs]
    exact h other

end

/-- Each log is the appended sequence cut down to its shard, and each process
has served what it popped. -/
structure Routed (numShards : UInt32) (s : Cluster P) : Prop where
  logs : ∀ shard,
    s.logs shard = s.appended.filter (shardForSymbol ·.symbolStr numShards = shard)
  popped : ∀ shard, Popped numShards shard (s.logs shard) (s.processes shard)

variable {numShards : UInt32} {s : Cluster P}

theorem routed_init : Routed numShards (init : Cluster P) :=
  ⟨fun _ => rfl, fun _ => ⟨Nat.le_refl _, rfl, rfl⟩⟩

theorem Routed.home (h : Routed numShards s) {shard : UInt32} {o : Order P}
    (ho : o ∈ s.logs shard) : shardForSymbol o.symbolStr numShards = shard := by
  rw [h.logs] at ho
  simpa using (List.mem_filter.mp ho).2

theorem Routed.no_warning (h : Routed numShards s) (shard : UInt32) :
    (s.processes shard).warnings = [] := by
  rw [(h.popped shard).warned, List.filter_eq_nil_iff]
  intro o ho
  simp [h.home (List.mem_of_mem_take ho)]

theorem Routed.push (h : Routed numShards s) {router : ShardRouterQueue}
    (hrouter : router.numShards = numShards) (o : Order P) :
    Routed numShards { s with logs := router.push s.logs o, appended := s.appended ++ [o] } := by
  subst hrouter
  constructor
  case logs =>
    intro shard
    simp only [router.push_eq, List.filter_append, h.logs]
  case popped =>
    intro shard
    simp only [router.push_eq]
    exact (h.popped shard).grow (List.prefix_append _ _)

theorem Routed.consume (h : Routed numShards s) {shard : UInt32} {o : Order P}
    (ho : (s.logs shard)[(s.processes shard).offset]? = some o) :
    Routed numShards { s with
      processes := Function.update s.processes shard
        ((s.processes shard).handle shard numShards o) } :=
  ⟨h.logs, popped_consume h.popped ho⟩

theorem Runs.routed (h : Runs numShards s) : Routed numShards s := by
  refine h.invariant routed_init fun s e t hs he => ?_
  obtain ⟨hok, hstep⟩ := restrict_some.mp he
  cases e with
  | push router o =>
    obtain rfl := Option.some.inj hstep
    exact hs.push (of_decide_eq_true hok) o
  | consume shard =>
    simp only [step] at hstep
    split at hstep
    · obtain ⟨o, ho, rfl⟩ := Option.map_eq_some_iff.mp hstep
      exact hs.consume ho
    · cases hstep

/-! ## One symbol -/

/-- A standalone engine's results for a sequence of orders. -/
def standalone (orders : List (Order P)) : List (SubmitResult P) :=
  (Machine.run MatchingEngine.submitOrder Engines.fresh orders).2

theorem Routed.results (h : Routed numShards s) (shard : UInt32) (symbol : List UInt8) :
    s.results shard symbol =
      standalone ((s.consumed shard).filter (·.symbolStr = symbol)) := by
  unfold Cluster.results
  rw [show (s.processes shard).output = _ from congrArg Prod.snd (h.popped shard).served]
  exact serve_outputsOf _ _

theorem Routed.log_home (h : Routed numShards s) (symbol : List UInt8) :
    (s.logs (shardForSymbol symbol numShards)).filter (·.symbolStr = symbol) =
      s.ordersOf symbol := by
  rw [h.logs, List.filter_filter]
  refine List.filter_congr fun o _ => ?_
  by_cases ho : o.symbolStr = symbol
  · simp [ho]
  · simp [ho]

/-- One symbol in a cluster. The process of the symbol's shard is the only one
that pops its orders, in the order they were appended; it never complains, and
its results are those of an engine that is fed these orders alone. -/
structure OwnEngine (numShards : UInt32) (symbol : List UInt8) (s : Cluster P) : Prop where
  served : shardForSymbol symbol numShards < numShards
  elsewhere : ∀ shard, shard ≠ shardForSymbol symbol numShards →
    ∀ o ∈ s.consumed shard, o.symbolStr ≠ symbol
  no_warning : ∀ shard, (s.processes shard).warnings = []
  in_order : (s.consumed (shardForSymbol symbol numShards)).filter (·.symbolStr = symbol) <+:
    s.ordersOf symbol
  all_consumed : s.Drained numShards →
    (s.consumed (shardForSymbol symbol numShards)).filter (·.symbolStr = symbol) =
      s.ordersOf symbol
  results : s.results (shardForSymbol symbol numShards) symbol =
    standalone ((s.consumed (shardForSymbol symbol numShards)).filter (·.symbolStr = symbol))
  drained : s.Drained numShards →
    s.results (shardForSymbol symbol numShards) symbol = standalone (s.ordersOf symbol)

theorem Routed.ownEngine (h : Routed numShards s) (hpos : 0 < numShards) (symbol : List UInt8) :
    OwnEngine numShards symbol s := by
  have hserved := shardForSymbol_lt symbol hpos
  have hall : s.Drained numShards →
      (s.consumed (shardForSymbol symbol numShards)).filter (·.symbolStr = symbol) =
        s.ordersOf symbol := by
    intro hdrained
    rw [consumed, hdrained _ hserved, List.take_length, h.log_home]
  constructor
  case served => exact hserved
  case elsewhere =>
    rintro shard hne o ho rfl
    exact hne (h.home (List.mem_of_mem_take ho)).symm
  case no_warning => exact h.no_warning
  case in_order =>
    rw [← h.log_home symbol]
    exact (List.take_prefix _ _).filter _
  case all_consumed => exact hall
  case results => exact h.results _ symbol
  case drained => exact fun hdrained => by rw [h.results, hall hdrained]

/-- **A sharded system is one engine for each symbol.** Whatever the number of
shards and however the appends and the pops interleave, each symbol has an
engine of its own; so in two drained clusters whose orders for a symbol agree,
its results agree, whatever the other orders are. -/
theorem sharded_eq_standalone (numShards : UInt32) (hpos : 0 < numShards) (s : Cluster P)
    (h : Runs numShards s) (symbol : List UInt8) :
    OwnEngine numShards symbol s ∧
      ∀ t : Cluster P, Runs numShards t → s.Drained numShards → t.Drained numShards →
        s.ordersOf symbol = t.ordersOf symbol →
          s.results (shardForSymbol symbol numShards) symbol =
            t.results (shardForSymbol symbol numShards) symbol := by
  have hs := h.routed.ownEngine hpos symbol
  refine ⟨hs, fun t ht hsd htd heq => ?_⟩
  have hother := ht.routed.ownEngine hpos symbol
  rw [hs.drained hsd, hother.drained htd, heq]

/-- Two symbols share a shard and a third has another. The sell of the second
symbol would cross the buy of the first in a common book. -/
def threeSymbols : List (ClusterEvent ℚ) :=
  let order (id : UInt64) (symbol : List UInt8) (side : Side) : ClusterEvent ℚ :=
    .push ⟨3⟩ { Order.make id side .limit 100 5 with symbol := setSymbol symbol }
  [order 1 [88, 89, 90] .buy, order 2 [84, 65, 84, 65] .sell, order 3 [65, 66, 67] .sell,
    .consume 2, .consume 0, order 4 [88, 89, 90] .sell, .consume 2, .consume 2]

theorem sharded_eq_standalone_three :
    ∃ s : Cluster ℚ, exec (restrict (step 3) (sameShards 3)) init threeSymbols = some s ∧
      OwnEngine 3 [88, 89, 90] s ∧ s.Drained 3 ∧
      s.results (shardForSymbol [88, 89, 90] 3) [88, 89, 90] =
        [.trades [], .trades [⟨1, 4, 100, 5, 3⟩]] := by
  have hrun : (exec (restrict (step 3) (sameShards 3)) (init : Cluster ℚ) threeSymbols).any
      (fun s => ([0, 1, 2].all fun shard => (s.processes shard).offset = (s.logs shard).length) &&
        s.results (shardForSymbol [88, 89, 90] 3) [88, 89, 90] =
          [.trades [], .trades [⟨1, 4, 100, 5, 3⟩]]) = true := by decide +kernel
  obtain ⟨s, hs, hq⟩ := exec_any hrun
  obtain ⟨hoffsets, hresults⟩ := Bool.and_eq_true_iff.mp hq
  refine ⟨s, hs, (sharded_eq_standalone 3 (by decide) s (Reachable.start.exec hs) _).1, ?_,
    of_decide_eq_true hresults⟩
  intro shard hlt
  have hmem : shard ∈ [0, 1, 2] := by
    rw [UInt32.lt_iff_toNat_lt] at hlt
    simp only [List.mem_cons, ← UInt32.toNat_inj]
    simp at hlt ⊢
    omega
  simpa using List.all_eq_true.mp hoffsets shard hmem

end Cluster

end TradingSystem
