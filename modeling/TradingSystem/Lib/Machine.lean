import Mathlib.Algebra.BigOperators.Group.Finset.Basic
import Mathlib.Algebra.GroupWithZero.Nat
import Mathlib.Data.List.Induction
import Mathlib.Logic.Function.Basic

/-!
# Deterministic machines with inputs and outputs

`Machine.run` feeds a list of inputs to a step function and collects the
outputs. An invariant or a simulation is proved for one step and holds of
every run; both come with the list of inputs already consumed, so that what
is assumed about the whole input can be used along the way.
-/

namespace Machine

variable {σ τ ι ο : Type*}

def run (step : σ → ι → σ × ο) : σ → List ι → σ × List ο
  | s, [] => (s, [])
  | s, i :: is =>
    let r := step s i
    let q := run step r.1 is
    (q.1, r.2 :: q.2)

variable {step : σ → ι → σ × ο}

@[simp] theorem run_nil (s : σ) : run step s [] = (s, []) := rfl

@[simp] theorem run_cons (s : σ) (i : ι) (is : List ι) :
    run step s (i :: is) =
      ((run step (step s i).1 is).1, (step s i).2 :: (run step (step s i).1 is).2) := rfl

theorem run_append (s : σ) (is js : List ι) :
    run step s (is ++ js) =
      ((run step (run step s is).1 js).1,
        (run step s is).2 ++ (run step (run step s is).1 js).2) := by
  induction is generalizing s with
  | nil => simp
  | cons i is ih => simp [ih]

theorem run_snoc (s : σ) (is : List ι) (i : ι) :
    run step s (is ++ [i]) =
      ((step (run step s is).1 i).1, (run step s is).2 ++ [(step (run step s is).1 i).2]) := by
  simp [run_append]

/-- What every step preserves holds after every run. -/
theorem run_invariant {I : σ → Prop} (hstep : ∀ s i, I s → I (step s i).1) {s : σ} (h : I s)
    (is : List ι) : I (run step s is).1 := by
  induction is generalizing s with
  | nil => exact h
  | cons i is ih => exact ih (hstep s i h)

/-- Two machines in a relation that every step preserves, with equal outputs
at each step, produce the same outputs. -/
theorem run_simulation {step' : τ → ι → τ × ο} {R : List ι → σ → τ → Prop} {s : σ} {t : τ}
    (h : R [] s t) (is : List ι)
    (hstep : ∀ is' i s t, is' ++ [i] <+: is → R is' s t →
      R (is' ++ [i]) (step s i).1 (step' t i).1 ∧ (step s i).2 = (step' t i).2) :
    R is (run step s is).1 (run step' t is).1 ∧ (run step s is).2 = (run step' t is).2 := by
  suffices ∀ is', is' <+: is →
      R is' (run step s is').1 (run step' t is').1 ∧ (run step s is').2 = (run step' t is').2 from
    this is (List.prefix_refl is)
  intro is'
  induction is' using List.reverseRecOn with
  | nil => exact fun _ => ⟨h, rfl⟩
  | append_singleton is' i ih =>
    intro hp
    obtain ⟨hr, ho⟩ := ih ((List.prefix_append is' [i]).trans hp)
    have hs := hstep is' i _ _ hp hr
    rw [run_snoc, run_snoc]
    exact ⟨hs.1, by rw [ho, hs.2]⟩

/-- Where each step of a run corresponds to a step of another machine under
maps of states, inputs and outputs, so does the run. -/
theorem run_map {ι' ο' : Type*} {step' : τ → ι' → τ × ο'} {g : σ → τ} {f : ι → ι'} {k : ο → ο'}
    {s : σ} (is : List ι)
    (h : ∀ past i, past ++ [i] <+: is → step' (g (run step s past).1) (f i) =
      (g (step (run step s past).1 i).1, k (step (run step s past).1 i).2)) :
    run step' (g s) (is.map f) = (g (run step s is).1, (run step s is).2.map k) := by
  induction is using List.reverseRecOn with
  | nil => rfl
  | append_singleton is i ih =>
    have hlast := h is i List.prefix_rfl
    have hinit := ih fun past j hp => h past j (hp.trans (List.prefix_append is [i]))
    rw [List.map_append, List.map_singleton, run_snoc, run_snoc, hinit, hlast, List.map_append,
      List.map_singleton]

section Bank

variable {κ : Type*} [DecidableEq κ]

/-- One machine for each key. An input goes to the machine of its key, and its
output carries the key. -/
def bank (key : ι → κ) (step : σ → ι → σ × ο) (s : κ → σ) (i : ι) : (κ → σ) × (κ × ο) :=
  let r := step (s (key i)) i
  (Function.update s (key i) r.1, (key i, r.2))

/-- The outputs that carry a key. -/
def outputsOf (k : κ) (os : List (κ × ο)) : List ο := (os.filter (·.1 = k)).map Prod.snd

/-- The machine of a key sees its own inputs and nothing else. -/
theorem bank_run (key : ι → κ) (s : κ → σ) (is : List ι) (k : κ) :
    outputsOf k (run (bank key step) s is).2 = (run step (s k) (is.filter (key · = k))).2 := by
  induction is generalizing s with
  | nil => rfl
  | cons i is ih =>
    have ih := ih (bank key step s i).1
    by_cases hk : key i = k
    · subst hk
      simp only [bank, Function.update_self] at ih
      simp [outputsOf, bank, ← ih]
    · have hs : (bank key step s i).1 k = s k := Function.update_of_ne (Ne.symm hk) _ _
      rw [hs] at ih
      simp only [bank] at ih
      simp [outputsOf, bank, hk, ← ih]

/-- If a step pays for its output with one unit and the potential of its own
machine, the outputs of a run cost no more than its inputs and the potential
it started with. -/
theorem bank_cost (key : ι → κ) (cost : ο → ℕ) (potential : σ → ℕ)
    (hpay : ∀ s i, cost (step s i).2 + potential (step s i).1 ≤ potential s + 1)
    {s : κ → σ} {keys : Finset κ} {is : List ι} (hkeys : ∀ i ∈ is, key i ∈ keys) :
    ((run (bank key step) s is).2.map fun o => cost o.2).sum +
        ∑ k ∈ keys, potential ((run (bank key step) s is).1 k) ≤
      is.length + ∑ k ∈ keys, potential (s k) := by
  induction is generalizing s with
  | nil => simp
  | cons i is ih =>
    obtain ⟨hi, his⟩ := List.forall_mem_cons.mp hkeys
    have hself : (bank key step s i).1 (key i) = (step (s (key i)) i).1 := Function.update_self _ _ _
    have hothers : ∑ k ∈ keys.erase (key i), potential ((bank key step s i).1 k) =
        ∑ k ∈ keys.erase (key i), potential (s k) := by
      refine Finset.sum_congr rfl fun k hk => ?_
      simp only [bank, Function.update_of_ne (Finset.ne_of_mem_erase hk)]
    have hcost : cost (bank key step s i).2.2 = cost (step (s (key i)) i).2 := rfl
    have hpaid := hpay (s (key i)) i
    have hrest := ih his (s := (bank key step s i).1)
    have hbefore := Finset.add_sum_erase keys (fun k => potential (s k)) hi
    have hafter := Finset.add_sum_erase keys (fun k => potential ((bank key step s i).1 k)) hi
    simp only [hself, hothers] at hafter
    simp only [run_cons, List.map_cons, List.sum_cons, List.length_cons]
    omega

end Bank

end Machine
