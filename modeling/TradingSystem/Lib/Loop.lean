import Mathlib.Data.Nat.Notation

/-!
# While loops as iterated partial steps

A loop body is a function that either declines (`none`, the loop exits) or
returns the state after one round. `Loop.run` bounds the rounds by fuel;
`run_exit` shows that a measure which every round decreases is fuel enough,
so the bound is never what ends the loop.
-/

namespace Loop

variable {σ τ : Type*}

/-- Run `body` until it declines, for at most `fuel` rounds. -/
def run (body : σ → Option σ) : ℕ → σ → σ
  | 0, s => s
  | fuel + 1, s =>
    match body s with
    | none => s
    | some t => run body fuel t

variable {body : σ → Option σ}

theorem run_none {s : σ} (h : body s = none) (fuel : ℕ) : run body fuel s = s := by
  cases fuel <;> simp [run, h]

theorem run_some {s t : σ} (h : body s = some t) (fuel : ℕ) :
    run body (fuel + 1) s = run body fuel t := by
  simp [run, h]

/-- What every round preserves holds after the loop. -/
theorem run_invariant {I : σ → Prop} (hstep : ∀ s t, I s → body s = some t → I t)
    (fuel : ℕ) {s : σ} (h : I s) : I (run body fuel s) := by
  induction fuel generalizing s with
  | zero => exact h
  | succ fuel ih =>
    cases hb : body s with
    | none => rwa [run_none hb]
    | some t =>
      rw [run_some hb]
      exact ih (hstep s t h hb)

/-- Fuel at least the measure is enough: the body declines where the run ends. -/
theorem run_exit {μ : σ → ℕ} (hdec : ∀ s t, body s = some t → μ t < μ s)
    {fuel : ℕ} {s : σ} (h : μ s ≤ fuel) : body (run body fuel s) = none := by
  induction fuel generalizing s with
  | zero =>
    cases hb : body s with
    | none => simpa [run] using hb
    | some t =>
      have := hdec s t hb
      omega
  | succ fuel ih =>
    cases hb : body s with
    | none => rwa [run_none hb]
    | some t =>
      rw [run_some hb]
      have := hdec s t hb
      exact ih (by omega)

/-- Two loops whose rounds correspond under `g` stay in step. -/
theorem run_map {body' : τ → Option τ} {g : σ → τ} (h : ∀ s, body' (g s) = (body s).map g)
    (fuel : ℕ) (s : σ) : run body' fuel (g s) = g (run body fuel s) := by
  induction fuel generalizing s with
  | zero => rfl
  | succ fuel ih =>
    cases hb : body s with
    | none =>
      have hb' : body' (g s) = none := by rw [h, hb]; rfl
      rw [run_none hb, run_none hb']
    | some t =>
      have hb' : body' (g s) = some (g t) := by rw [h, hb]; rfl
      rw [run_some hb, run_some hb', ih]

/-- Two amounts of fuel that both reach the exit give the same state. -/
theorem run_fuel {fuel fuel' : ℕ} {s : σ} (h : body (run body fuel s) = none)
    (h' : body (run body fuel' s) = none) : run body fuel s = run body fuel' s := by
  induction fuel generalizing s fuel' with
  | zero => rw [run] at h ⊢; rw [run_none h]
  | succ fuel ih =>
    cases hb : body s with
    | none => rw [run_none hb, run_none hb]
    | some t =>
      cases fuel' with
      | zero => rw [run, hb] at h'; cases h'
      | succ fuel' =>
        rw [run_some hb] at h ⊢
        rw [run_some hb] at h' ⊢
        exact ih h h'

end Loop
