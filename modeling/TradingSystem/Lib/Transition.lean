import Mathlib.Data.List.Induction
import Mathlib.Data.Nat.Notation

/-!
# Transition systems with events

`step s e` is the state after event `e`, or `none` where `e` cannot happen in
`s`. A property of all runs is proved as an invariant of `Reachable`; `exec`
evaluates one given run. Runs in which every event meets a condition are the
runs of the restricted system.
-/

namespace Transition

variable {σ ε : Type*}

inductive Reachable (step : σ → ε → Option σ) (init : σ) : σ → Prop
  | start : Reachable step init init
  | next {s t : σ} {e : ε} : Reachable step init s → step s e = some t → Reachable step init t

variable {step : σ → ε → Option σ} {init s : σ}

theorem Reachable.invariant {I : σ → Prop} (hinit : I init)
    (hstep : ∀ s e t, I s → step s e = some t → I t) (h : Reachable step init s) : I s := by
  induction h with
  | start => exact hinit
  | next _ he ih => exact hstep _ _ _ ih he

def exec (step : σ → ε → Option σ) : σ → List ε → Option σ
  | s, [] => some s
  | s, e :: es => (step s e).bind fun t => exec step t es

theorem exec_snoc (s : σ) (es : List ε) (e : ε) :
    exec step s (es ++ [e]) = (exec step s es).bind fun t => step t e := by
  induction es generalizing s with
  | nil => simp [exec]
  | cons e' es ih =>
    simp only [List.cons_append, exec]
    cases step s e' with
    | none => rfl
    | some t => exact ih t

theorem exec_append (s : σ) (es es' : List ε) :
    exec step s (es ++ es') = (exec step s es).bind fun t => exec step t es' := by
  induction es generalizing s with
  | nil => rfl
  | cons e es ih =>
    simp only [List.cons_append, exec, Option.bind_assoc, ih]

/-- An invariant of the states along one run; a step may use that its event
comes next in that run. -/
theorem exec_invariant {I : σ → Prop} (h : I init) {es : List ε}
    (hstep : ∀ pre e s t, pre ++ [e] <+: es → exec step init pre = some s → I s →
      step s e = some t → I t) {pre : List ε} (hp : pre <+: es) {t : σ}
    (ht : exec step init pre = some t) : I t := by
  induction pre using List.reverseRecOn generalizing t with
  | nil =>
    obtain rfl := Option.some.inj ht
    exact h
  | append_singleton pre e ih =>
    rw [exec_snoc] at ht
    obtain ⟨u, hu, hut⟩ := Option.bind_eq_some_iff.mp ht
    exact hstep pre e u t hp hu (ih ((List.prefix_append pre [e]).trans hp) hu) hut

theorem Reachable.exec {t : σ} (h : Reachable step init s) {es : List ε}
    (he : exec step s es = some t) : Reachable step init t := by
  induction es generalizing s with
  | nil =>
    obtain rfl := Option.some.inj he
    exact h
  | cons e es ih =>
    obtain ⟨u, hu, ht⟩ := Option.bind_eq_some_iff.mp he
    exact ih (h.next hu) ht

theorem exec_any {q : σ → Bool} {es : List ε} (h : (exec step s es).any q = true) :
    ∃ t, exec step s es = some t ∧ q t = true := by
  cases he : exec step s es with
  | none => rw [he] at h; cases h
  | some t =>
    rw [he] at h
    exact ⟨t, rfl, h⟩

/-- Where every step lowers a measure, the measure bounds the length of a run. -/
theorem exec_bounded {I : σ → Prop} {μ : σ → ℕ}
    (hstep : ∀ s e t, I s → step s e = some t → I t ∧ μ t < μ s) {t : σ} (h : I s) {es : List ε}
    (he : exec step s es = some t) : I t ∧ es.length + μ t ≤ μ s := by
  induction es generalizing s with
  | nil =>
    obtain rfl := Option.some.inj he
    exact ⟨h, by simp⟩
  | cons e es ih =>
    obtain ⟨u, hu, ht⟩ := Option.bind_eq_some_iff.mp he
    obtain ⟨hI, hlt⟩ := hstep s e u h hu
    obtain ⟨hend, hle⟩ := ih hI ht
    refine ⟨hend, ?_⟩
    rw [List.length_cons]
    omega

/-- How many events of a run meet a condition where they happen. -/
def tally (step : σ → ε → Option σ) (ok : σ → ε → Bool) : σ → List ε → ℕ
  | _, [] => 0
  | s, e :: es => (ok s e).toNat + (step s e).elim 0 fun t => tally step ok t es

/-- Where no step raises a measure and some lower it, the measure bounds the
number of those. -/
theorem exec_tally {I : σ → Prop} {μ : σ → ℕ} {ok : σ → ε → Bool}
    (hstep : ∀ s e t, I s → step s e = some t → I t ∧ (ok s e).toNat + μ t ≤ μ s) {t : σ} (h : I s)
    {es : List ε} (he : exec step s es = some t) : I t ∧ tally step ok s es + μ t ≤ μ s := by
  induction es generalizing s with
  | nil =>
    obtain rfl := Option.some.inj he
    exact ⟨h, by simp [tally]⟩
  | cons e es ih =>
    obtain ⟨u, hu, ht⟩ := Option.bind_eq_some_iff.mp he
    obtain ⟨hI, hle⟩ := hstep s e u h hu
    obtain ⟨hend, htally⟩ := ih hI ht
    refine ⟨hend, ?_⟩
    simp only [tally, hu, Option.elim_some]
    omega

/-- An event that lowers a measure wherever it can happen is repeated until it
cannot. -/
theorem exec_repeats {I : σ → Prop} {μ : σ → ℕ} {e : ε}
    (hstep : ∀ s t, I s → step s e = some t → I t ∧ μ t < μ s) (h : I s) :
    ∃ n t, n ≤ μ s ∧ exec step s (List.replicate n e) = some t ∧ I t ∧ step t e = none := by
  induction hμ : μ s using Nat.strongRecOn generalizing s with
  | ind m ih =>
    cases he : step s e with
    | none => exact ⟨0, s, Nat.zero_le _, rfl, h, he⟩
    | some t =>
      obtain ⟨ht, hlt⟩ := hstep s t h he
      obtain ⟨n, u, hn, hexec, hu, hend⟩ := ih (μ t) (hμ ▸ hlt) ht rfl
      refine ⟨n + 1, u, by omega, ?_, hu, hend⟩
      rw [List.replicate_succ, exec, he]
      exact hexec

/-- An event that can happen until a goal is reached, and lowers a measure, is
repeated up to there. -/
theorem exec_until {I : σ → Prop} {μ : σ → ℕ} {g : σ → Bool} {e : ε}
    (hstep : ∀ s, I s → g s = false →
      ∃ t, step s e = some t ∧ I t ∧ (g t = true ∨ μ t < μ s)) (h : I s) :
    ∃ n t, n ≤ μ s + 1 ∧ exec step s (List.replicate n e) = some t ∧ I t ∧ g t = true := by
  induction hμ : μ s using Nat.strongRecOn generalizing s with
  | ind m ih =>
    cases hgoal : g s with
    | true => exact ⟨0, s, Nat.zero_le _, rfl, h, hgoal⟩
    | false =>
      obtain ⟨t, ht, hI, hreached | hlt⟩ := hstep s h hgoal
      · refine ⟨1, t, by omega, ?_, hI, hreached⟩
        simp only [List.replicate_one, exec, ht, Option.bind_some]
      · obtain ⟨n, u, hn, hexec, hu, hend⟩ := ih (μ t) (hμ ▸ hlt) hI rfl
        refine ⟨n + 1, u, by omega, ?_, hu, hend⟩
        rw [List.replicate_succ, exec, ht]
        exact hexec

/-- Only events that meet the condition happen. -/
def restrict (step : σ → ε → Option σ) (ok : σ → ε → Bool) (s : σ) (e : ε) : Option σ :=
  if ok s e then step s e else none

theorem restrict_some {ok : σ → ε → Bool} {t : σ} {e : ε} :
    restrict step ok s e = some t ↔ ok s e = true ∧ step s e = some t := by
  unfold restrict
  split
  · simp [*]
  · simp [*]

end Transition
