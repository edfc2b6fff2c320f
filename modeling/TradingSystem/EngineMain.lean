import TradingSystem.MatchLoop
import TradingSystem.Lib.ListLemmas

/-!
# The engine process: one engine for each symbol

The body of the loop in `src/engine_main.cpp`, apart from lock and log: the
order goes to the engine of its symbol, created on first sight. `replay` is
what a log produces from the start, record by record. For one symbol it is
what a single engine produces on the orders of that symbol.
-/

namespace TradingSystem

variable {P : Type}

/-- `std::unordered_map<std::string, MatchingEngine>`. -/
abbrev Engines (P : Type) := List UInt8 → Option (MatchingEngine P)

namespace Engines

def empty : Engines P := fun _ => none

variable [LT P] [DecidableLT P] [PriceArith P]

/-- `MatchingEngine()`: the default collar band is 10 percent. -/
def fresh : MatchingEngine P := .new (PriceArith.lit 10)

/-- `engines.try_emplace(symbol)`, then `submit_order`. -/
def apply (engines : Engines P) (o : Order P) : Engines P × SubmitResult P :=
  let symbol := o.symbolStr
  let r := ((engines symbol).getD fresh).submitOrder o
  (Function.update engines symbol (some r.1), r.2)

/-- As `apply`; the result carries its symbol, as the printed lines do. -/
def serve (engines : Engines P) (o : Order P) :
    Engines P × (List UInt8 × SubmitResult P) :=
  let r := engines.apply o
  (r.1, (o.symbolStr, r.2))

/-- A fresh set of engines fed the records of a log. -/
def replay (log : List (Order P)) : Engines P × List (SubmitResult P) :=
  Machine.run apply empty log

end Engines

/-- The trades of a result, none if it is a rejection. -/
def SubmitResult.tradeList : SubmitResult P → List (Trade P)
  | .trades ts => ts
  | .rejection _ => []

section Replay
variable [LT P] [DecidableLT P] [PriceArith P]

/-- The engines after the first `n` records of the log. -/
def enginesAt (log : List (Order P)) (n : ℕ) : Engines P := (Engines.replay (log.take n)).1

/-- The trades of the first `n` records, in log order. -/
def tradesUpTo (log : List (Order P)) (n : ℕ) : List (Trade P) :=
  (Engines.replay (log.take n)).2.flatMap SubmitResult.tradeList

/-- The trades of all records of the log. -/
def canonicalTrades (log : List (Order P)) : List (Trade P) :=
  (Engines.replay log).2.flatMap SubmitResult.tradeList

theorem tradesUpTo_length (log : List (Order P)) :
    tradesUpTo log log.length = canonicalTrades log := by
  rw [tradesUpTo, canonicalTrades, List.take_length]

theorem replay_take_succ {log : List (Order P)} {n : ℕ} {o : Order P} (h : log[n]? = some o) :
    Engines.replay (log.take (n + 1)) =
      ((Engines.apply (enginesAt log n) o).1,
        (Engines.replay (log.take n)).2 ++ [(Engines.apply (enginesAt log n) o).2]) := by
  rw [ListLemmas.take_snoc h]
  exact Machine.run_snoc _ _ _

theorem enginesAt_succ {log : List (Order P)} {n : ℕ} {o : Order P} (h : log[n]? = some o) :
    enginesAt log (n + 1) = (Engines.apply (enginesAt log n) o).1 := by
  rw [enginesAt, replay_take_succ h]

theorem tradesUpTo_succ {log : List (Order P)} {n : ℕ} {o : Order P} (h : log[n]? = some o) :
    tradesUpTo log (n + 1) =
      tradesUpTo log n ++ (Engines.apply (enginesAt log n) o).2.tradeList := by
  rw [tradesUpTo, replay_take_succ h, List.flatMap_append, List.flatMap_singleton, tradesUpTo]

/-- Appending to the log changes nothing about its earlier records. -/
theorem enginesAt_snoc {log : List (Order P)} {n : ℕ} (h : n ≤ log.length) (o : Order P) :
    enginesAt (log ++ [o]) n = enginesAt log n := by
  rw [enginesAt, List.take_append_of_le_length h, enginesAt]

theorem tradesUpTo_snoc {log : List (Order P)} {n : ℕ} (h : n ≤ log.length) (o : Order P) :
    tradesUpTo (log ++ [o]) n = tradesUpTo log n := by
  rw [tradesUpTo, List.take_append_of_le_length h, tradesUpTo]

theorem canonicalTrades_append (log more : List (Order P)) :
    ∃ rest, canonicalTrades (log ++ more) = canonicalTrades log ++ rest :=
  ⟨_, by rw [canonicalTrades, Engines.replay, Machine.run_append, List.flatMap_append]; rfl⟩

theorem tradesUpTo_canonical (log : List (Order P)) (n : ℕ) :
    ∃ rest, canonicalTrades log = tradesUpTo log n ++ rest := by
  obtain ⟨rest, hrest⟩ := canonicalTrades_append (log.take n) (log.drop n)
  rw [List.take_append_drop] at hrest
  exact ⟨rest, hrest⟩

/-- A replayed symbol has an engine. -/
theorem enginesAt_ne_empty {log : List (Order P)} {n : ℕ} (hn : 0 < n) (h : n ≤ log.length) :
    enginesAt log n ≠ Engines.empty := by
  obtain ⟨m, rfl⟩ : ∃ m, n = m + 1 := ⟨n - 1, by omega⟩
  have hrec : log[m]? = some (log[m]) := List.getElem?_eq_getElem h
  rw [enginesAt_succ hrec]
  intro heq
  have := congrFun heq (log[m]).symbolStr
  simp [Engines.apply, Engines.empty] at this

/-- An engine that is created on first sight might as well have been there from
the start. -/
theorem serve_eq_bank {engines : Engines P} {bank : List UInt8 → MatchingEngine P}
    (h : ∀ symbol, (engines symbol).getD Engines.fresh = bank symbol) (o : Order P) :
    (∀ symbol, ((engines.serve o).1 symbol).getD Engines.fresh =
        (Machine.bank Order.symbolStr MatchingEngine.submitOrder bank o).1 symbol) ∧
      (engines.serve o).2 = (Machine.bank Order.symbolStr MatchingEngine.submitOrder bank o).2 := by
  constructor
  · intro symbol
    by_cases hs : symbol = o.symbolStr
    · subst hs
      simp [Engines.serve, Engines.apply, Machine.bank, h]
    · simp [Engines.serve, Engines.apply, Machine.bank, hs, h]
  · simp [Engines.serve, Engines.apply, Machine.bank, h]

theorem serve_run_eq_bank (orders : List (Order P)) :
    (Machine.run Engines.serve Engines.empty orders).2 =
      (Machine.run (Machine.bank Order.symbolStr MatchingEngine.submitOrder)
        (fun _ => Engines.fresh) orders).2 :=
  (Machine.run_simulation
    (R := fun _ engines bank => ∀ symbol, (engines symbol).getD Engines.fresh = bank symbol)
    (fun _ => rfl) orders fun _ o _ _ _ h => serve_eq_bank h o).2

/-- The results for one symbol are those of an engine of its own that is fed
the orders of that symbol only. -/
theorem serve_outputsOf (orders : List (Order P)) (symbol : List UInt8) :
    Machine.outputsOf symbol (Machine.run Engines.serve Engines.empty orders).2 =
      (Machine.run MatchingEngine.submitOrder Engines.fresh
        (orders.filter (·.symbolStr = symbol))).2 := by
  rw [serve_run_eq_bank, Machine.bank_run]

end Replay

end TradingSystem
