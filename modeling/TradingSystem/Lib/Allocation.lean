import Mathlib.Algebra.BigOperators.Group.List.Basic
import Mathlib.Algebra.Order.Group.Basic
import Mathlib.Algebra.Order.Monoid.Unbundled.Pow
import Mathlib.Data.List.Forall2
import Mathlib.Tactic.Abel

/-!
# Filling a demand from priced offers

An offer is a unit price and an amount. `greedy` serves a demand from the
offers in the order they stand. If that order is by price, no other way to
take the same amount from the offers is cheaper: for every price `m` the sum
`floor m` is a lower bound on the cost of taking an amount, and the greedy
way attains the bound at its marginal price.
-/

namespace Allocation

variable {G : Type*}

/-- How much to take from each offer for a demand of `q`. -/
def greedy : ℕ → List (G × ℕ) → List ℕ
  | _, [] => []
  | q, o :: os => min q o.2 :: greedy (q - min q o.2) os

/-- No more is taken from an offer than it has. -/
def Fits (os : List (G × ℕ)) (ys : List ℕ) : Prop := List.Forall₂ (fun o y => y ≤ o.2) os ys

theorem sum_greedy (q : ℕ) (os : List (G × ℕ)) :
    (greedy q os).sum = min q (os.map Prod.snd).sum := by
  induction os generalizing q with
  | nil => simp [greedy]
  | cons o os ih =>
    simp only [greedy, List.sum_cons, ih, List.map_cons]
    omega

variable [AddCommGroup G]

def cost : List (G × ℕ) → List ℕ → G
  | o :: os, y :: ys => y • o.1 + cost os ys
  | _, _ => 0

theorem cost_greedy_zero (os : List (G × ℕ)) : cost os (greedy 0 os) = 0 := by
  induction os with
  | nil => rfl
  | cons o os ih => simp [greedy, cost, ih]

/-- A demand that the first offers serve takes nothing from the later ones. -/
theorem cost_greedy_append (q : ℕ) (os more : List (G × ℕ)) :
    cost (os ++ more) (greedy (greedy q os).sum (os ++ more)) = cost os (greedy q os) := by
  induction os generalizing q with
  | nil => simpa [greedy, cost] using cost_greedy_zero more
  | cons o os ih =>
    have hfirst : min (min q o.2 + (greedy (q - min q o.2) os).sum) o.2 = min q o.2 := by
      rw [sum_greedy]
      omega
    have hrest : min q o.2 + (greedy (q - min q o.2) os).sum - min q o.2 =
        (greedy (q - min q o.2) os).sum := Nat.add_sub_cancel_left _ _
    simp only [List.cons_append, greedy, List.sum_cons, cost, hfirst, hrest, ih]

/-- What is taken depends on the amounts only. -/
theorem greedy_neg (q : ℕ) (os : List (G × ℕ)) :
    greedy q (os.map fun o => (-o.1, o.2)) = greedy q os := by
  induction os generalizing q with
  | nil => rfl
  | cons o os ih => simp only [List.map_cons, greedy, ih]

/-- Prices seen from the other side. -/
theorem cost_neg (os : List (G × ℕ)) (ys : List ℕ) :
    cost (os.map fun o => (-o.1, o.2)) ys = -cost os ys := by
  induction os generalizing ys with
  | nil => simp [cost]
  | cons o os ih =>
    cases ys with
    | nil => simp [cost]
    | cons y ys => simp [cost, ih, add_comm]

variable [LinearOrder G] [IsOrderedAddMonoid G]

/-- What taking every offer below the price `m` saves. -/
def floor (m : G) (os : List (G × ℕ)) : G := (os.map fun o => o.2 • min (o.1 - m) 0).sum

omit [IsOrderedAddMonoid G] in
theorem floor_cons (m : G) (o : G × ℕ) (os : List (G × ℕ)) :
    floor m (o :: os) = o.2 • min (o.1 - m) 0 + floor m os := by
  simp [floor]

/-- Above all prices but the lowest nothing is saved. -/
theorem floor_of_le {m : G} {os : List (G × ℕ)} (h : ∀ o ∈ os, m ≤ o.1) : floor m os = 0 := by
  induction os with
  | nil => rfl
  | cons o os ih =>
    obtain ⟨ho, hos⟩ := List.forall_mem_cons.mp h
    rw [floor_cons, ih hos, min_eq_right (sub_nonneg.mpr ho), nsmul_zero, add_zero]

theorem floor_le_cost (m : G) {os : List (G × ℕ)} {ys : List ℕ} (h : Fits os ys) :
    floor m os + ys.sum • m ≤ cost os ys := by
  induction h with
  | nil => simp [floor, cost]
  | @cons o y os ys hy _ ih =>
    have hfirst : o.2 • min (o.1 - m) 0 ≤ y • (o.1 - m) :=
      calc o.2 • min (o.1 - m) 0
        _ ≤ y • min (o.1 - m) 0 := nsmul_le_nsmul_left_of_nonpos (min_le_right _ _) hy
        _ ≤ y • (o.1 - m) := nsmul_le_nsmul_right (min_le_left _ _) y
    calc floor m (o :: os) + (y :: ys).sum • m
      _ = (o.2 • min (o.1 - m) 0 + y • m) + (floor m os + ys.sum • m) := by
        rw [floor_cons, List.sum_cons, add_nsmul]
        abel
      _ ≤ (y • (o.1 - m) + y • m) + cost os ys := by gcongr
      _ = cost (o :: os) (y :: ys) := by rw [← nsmul_add, sub_add_cancel, cost]

/-- Offers by price: the greedy way attains the bound, at a price that is no
lower than the lowest of them. -/
theorem cost_greedy_eq {os : List (G × ℕ)} (hsorted : os.Pairwise fun a b => a.1 ≤ b.1) (q : ℕ)
    {low : G} (hlow : ∀ o ∈ os, low ≤ o.1) :
    ∃ m, low ≤ m ∧ cost os (greedy q os) = floor m os + (greedy q os).sum • m := by
  induction os generalizing q low with
  | nil => exact ⟨low, le_refl _, by simp [cost, floor, greedy]⟩
  | cons o os ih =>
    obtain ⟨hfirst, hrest⟩ := List.pairwise_cons.mp hsorted
    obtain ⟨hlow₀, -⟩ := List.forall_mem_cons.mp hlow
    by_cases hq : q ≤ o.2
    · -- the first offer serves the demand and sets the price
      refine ⟨o.1, hlow₀, ?_⟩
      have hzero : q - min q o.2 = 0 := by omega
      have hsum : (greedy q (o :: os)).sum = min q o.2 := by
        rw [greedy, hzero, List.sum_cons, sum_greedy, Nat.zero_min, Nat.add_zero]
      rw [hsum, floor_of_le (List.forall_mem_cons.mpr ⟨le_refl _, hfirst⟩), greedy, hzero, cost,
        cost_greedy_zero, add_zero, zero_add]
    · -- the first offer is used up, and the price is set by the others
      obtain ⟨m, hm, hcost⟩ := ih hrest (q - o.2) hfirst
      refine ⟨m, hlow₀.trans hm, ?_⟩
      have hmin : min q o.2 = o.2 := by omega
      rw [greedy, hmin, cost, hcost, floor_cons, min_eq_left (sub_nonpos.mpr hm), List.sum_cons,
        add_nsmul, nsmul_sub]
      abel

/-- **Taking the cheapest first is cheapest.** -/
theorem cost_greedy_le {os : List (G × ℕ)} (hsorted : os.Pairwise fun a b => a.1 ≤ b.1) {q : ℕ}
    {ys : List ℕ} (h : Fits os ys) (hsum : ys.sum = (greedy q os).sum) :
    cost os (greedy q os) ≤ cost os ys := by
  cases os with
  | nil => simp [cost]
  | cons o os =>
    have hlow : ∀ a ∈ o :: os, o.1 ≤ a.1 :=
      List.forall_mem_cons.mpr ⟨le_refl _, (List.pairwise_cons.mp hsorted).1⟩
    obtain ⟨m, -, hcost⟩ := cost_greedy_eq hsorted q hlow
    rw [hcost, ← hsum]
    exact floor_le_cost m h

/-- **Taking the dearest first brings most.** -/
theorem le_cost_greedy {os : List (G × ℕ)} (hsorted : os.Pairwise fun a b => b.1 ≤ a.1) {q : ℕ}
    {ys : List ℕ} (h : Fits os ys) (hsum : ys.sum = (greedy q os).sum) :
    cost os ys ≤ cost os (greedy q os) := by
  have hsorted' : (os.map fun o => (-o.1, o.2)).Pairwise fun a b => a.1 ≤ b.1 := by
    rw [List.pairwise_map]
    exact hsorted.imp fun hab => neg_le_neg_iff.mpr hab
  have hfits : Fits (os.map fun o => (-o.1, o.2)) ys := List.forall₂_map_left_iff.mpr h
  have hle := cost_greedy_le (q := q) hsorted' hfits (by rw [greedy_neg, hsum])
  rw [greedy_neg, cost_neg, cost_neg] at hle
  exact neg_le_neg_iff.mp hle

end Allocation
