import Mathlib.Algebra.Order.Ring.Rat
import TradingSystem.Order

/-!
# The price collar

`include/price_collar.hpp` and `src/price_collar.cpp`. The band is computed
with whatever arithmetic prices have; nothing is assumed about it here, so
what is proved over any `PriceArith` covers rounded `double` arithmetic.
-/

namespace TradingSystem

/-- The arithmetic and the numerals the collar uses. No law is required. -/
class PriceArith (P : Type) extends Add P, Sub P, Mul P, Div P where
  lit : Nat → P

/-- Exact arithmetic. -/
instance : PriceArith ℚ where
  lit n := n

inductive RejectReason where
  | none
  | priceTooHigh
  | priceTooLow
  deriving DecidableEq, Repr

structure CollarResult where
  accepted : Bool
  reason : RejectReason
  deriving DecidableEq, Repr

structure PriceCollar (P : Type) where
  bandFraction : P
  deriving DecidableEq, Repr

variable {P : Type} [PriceArith P]

/-- `bandPercent` is for example 10 for a band of ten percent each way. -/
def PriceCollar.new (bandPercent : P) : PriceCollar P :=
  ⟨bandPercent / PriceArith.lit 100⟩

/-- The lower and the upper end of the band around `ref`. -/
def PriceCollar.lo (c : PriceCollar P) (ref : P) : P := ref - ref * c.bandFraction

def PriceCollar.hi (c : PriceCollar P) (ref : P) : P := ref + ref * c.bandFraction

variable [LT P] [DecidableLT P]

def PriceCollar.check (c : PriceCollar P) (orderPrice : P) : Option P → CollarResult
  | .none => ⟨true, .none⟩
  | .some ref =>
    let band := ref * c.bandFraction
    let lo := ref - band
    let hi := ref + band
    if hi < orderPrice then ⟨false, .priceTooHigh⟩
    else if orderPrice < lo then ⟨false, .priceTooLow⟩
    else ⟨true, .none⟩

/-- The collar refuses what is past an end of the band. -/
theorem PriceCollar.check_accepted_iff (c : PriceCollar P) (orderPrice ref : P) :
    (c.check orderPrice (some ref)).accepted = true ↔
      ¬ c.hi ref < orderPrice ∧ ¬ orderPrice < c.lo ref := by
  simp only [PriceCollar.check, PriceCollar.hi, PriceCollar.lo]
  split
  · simp [*]
  · split
    · simp [*]
    · simp [*]

end TradingSystem
