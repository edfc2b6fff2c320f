import TradingSystem.Replication

/-!
# Recovery: what a restarted replica knows

The checkpoint of a replica is durable, its engines are not. A restart reads
the checkpoint and begins there with empty engines, so the books of all
records before it are gone. Replicas stay in line with the log exactly in the
runs that restart none of them after its first pop.
-/

namespace TradingSystem

open Transition

variable {P : Type} [LT P] [DecidableLT P] [PriceArith P]

/-- Every running replica's engines are those of the records it has applied:
all before `consumer_offset_` but the one between its pop and its submission. -/
def Shard.Faithful (s : Shard P) : Prop :=
  ∀ id r, s.status id = .running r → r.engines = enginesAt s.log r.applied

/-! ## Checkpoints -/

def Shard.Checkpointed (s : Shard P) : Prop :=
  ∀ id k, s.checkpoint id = some k → 0 < k ∧ k ≤ s.log.length

theorem step_checkpointed {s t : Shard P} {e : Event P} (h : s.Checkpointed)
    (hstep : s.step e = some t) : t.Checkpointed := by
  cases e with
  | append o =>
    obtain rfl := Option.some.inj hstep
    intro id k hk
    have := h id k hk
    simp only [List.length_append, List.length_singleton]
    omega
  | start id | restart id =>
    simp only [Shard.step] at hstep
    split at hstep
    · obtain rfl := Option.some.inj hstep
      exact h
    · cases hstep
  | kill id =>
    simp only [Shard.step] at hstep
    split at hstep
    · obtain rfl := Option.some.inj hstep
      exact h
    · cases hstep
  | loop id =>
    simp only [Shard.step] at hstep
    split at hstep
    · cases advance_cases hstep with
      | won | tried | apply | publish | finish => exact h
      | pop hpc hrec =>
        have hlt := (List.getElem?_eq_some_iff.mp hrec).1
        intro id' k hk
        simp only at hk
        by_cases hne : id' = id
        · subst hne
          rw [Function.update_self] at hk
          obtain rfl := Option.some.inj hk
          exact ⟨Nat.succ_pos _, hlt⟩
        · rw [Function.update_of_ne hne] at hk
          exact h id' k hk
    · cases hstep

omit [LT P] [DecidableLT P] [PriceArith P] in
theorem init_checkpointed : (Shard.init : Shard P).Checkpointed := by
  intro id k hk
  cases hk

/-- A restart behind a checkpoint leaves the replica without its books. -/
theorem boot_not_faithful {s : Shard P} (h : s.Checkpointed) {id : String} {k : ℕ}
    (hk : s.checkpoint id = some k) : ¬ (s.boot id).Faithful := by
  intro hfaithful
  obtain ⟨hpos, hle⟩ := h id k hk
  have hengines := hfaithful id _ (s.put_status id _)
  simp only [Replica.applied, hk, Option.getD_some] at hengines
  exact enginesAt_ne_empty hpos hle hengines.symm

/-- **When replicas survive restarts.** All running replicas have the books of
a replica that was never killed, in every state along a run, exactly if every
restart in the run is of a replica that had popped nothing yet. -/
theorem faithful_iff_fresh_restarts (evs : List (Event P)) :
    (∀ pre s, pre <+: evs → exec Shard.step .init pre = some s → s.Faithful) ↔
      ∀ pre id s, pre ++ [.restart id] <+: evs → exec Shard.step .init pre = some s →
        s.status id = .killed → s.checkpoint id = none := by
  constructor
  · intro hall pre id s hp hs hkilled
    have hcheck : s.Checkpointed := (Reachable.start.exec hs).invariant init_checkpointed
      fun _ _ _ h hstep => step_checkpointed h hstep
    have hboot : exec Shard.step .init (pre ++ [.restart id]) = some (s.boot id) := by
      rw [exec_snoc, hs]
      simp only [Option.bind_some, Shard.step, hkilled]
    cases hk : s.checkpoint id with
    | none => rfl
    | some k => exact absurd (hall _ _ hp hboot) (boot_not_faithful hcheck hk)
  · intro hfresh pre s hp hs
    have hline : InLine s := by
      refine exec_invariant InLine.init ?_ hp hs
      intro pre' e u v hp' hu hline hstep
      refine hline.step hstep ?_
      rintro id rfl hkilled
      exact hfresh pre' id u hp' hu hkilled
    exact fun id r hr => (hline.follows id r hr).engines

/-- The replica runs without an engine that it has fed. -/
def Shard.lacksEngine (s : Shard P) (id : String) (symbol : List UInt8) : Bool :=
  match s.status id with
  | .running r => (r.engines symbol).isNone && (enginesAt s.log r.applied symbol).isSome
  | _ => false

theorem Shard.lacksEngine_not_faithful {s : Shard P} {id : String} {symbol : List UInt8}
    (h : s.lacksEngine id symbol = true) : ¬ s.Faithful := by
  intro hfaithful
  unfold lacksEngine at h
  split at h
  · rename_i r hr
    rw [← hfaithful id r hr] at h
    cases he : r.engines symbol <;> simp [he] at h
  · cases h

/-- A replica pops one order, applies it and is killed and restarted. -/
def restartAfterPop : List (Event ℚ) :=
  [.append (Order.make 1 .sell .limit 100 10), .start "r0"] ++ List.replicate 5 (.loop "r0") ++
  [.kill "r0", .restart "r0"]

/-- It resumes behind the order but has no engine that holds it. -/
theorem restart_loses_book :
    ∃ s : Shard ℚ, exec Shard.step .init restartAfterPop = some s ∧ ¬ s.Faithful := by
  have hrun : (exec Shard.step .init restartAfterPop).any (·.lacksEngine "r0" []) = true := by
    decide +kernel
  obtain ⟨s, hs, hq⟩ := exec_any hrun
  exact ⟨s, hs, Shard.lacksEngine_not_faithful hq⟩

end TradingSystem
