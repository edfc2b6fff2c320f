import TradingSystem.LogReader

/-!
# What `pop` of the log queue promises when it returns false

`LogBackedOrderQueue::pop` returns false when the file held nothing new and
`done_` is set. The two are looked at one after the other, and gateways in
other processes append without the reader's mutex: an append and `shutdown`
between the two looks make `pop` return false with a record left that was in
the log before `shutdown`.
-/

namespace TradingSystem

open Transition

variable {α : Type}

/-- The reader has found nothing new, and a record has come in since. -/
def Reader.overtaken (log : List α) (r : Reader α) : Bool :=
  match r.pc with
  | .checking => r.offset < log.length
  | _ => false

/-- `shutdown` is not called between the two looks of `pop` when a record has
come in after the first. -/
def LogState.timelyShutdown (s : LogState α) : LogEvent α → Bool
  | .shutdown id => (s.readers id).all fun r => !r.overtaken s.log
  | _ => true

/-- If the next step of `id` makes `pop` return false, all records that were in
the log when `shutdown` was called have been returned. -/
def LogState.DrainKept (s : LogState α) (base id : String) : Prop :=
  ∀ t r, s.step .orderQueue base (.advance id) = some t → t.readers id = some r →
    r.pc = .returned none → s.log.take (s.promised id) <+: s.received id

variable {base id : String} {s t : LogState α} {r r' : Reader α}

/-- `pop` waits on `done_` only at the end of the log. -/
theorem ReadStep.checking {api : LogApi} (hstep : ReadStep api base s id r t)
    (h : r.Sound api s.log (s.files (api.checkpointPath base id))) (hr' : t.readers id = some r')
    (hpc : r'.pc = .checking) : s.log.length ≤ r'.offset := by
  cases hstep with
  | nothing _ hpc' hge =>
    obtain rfl := Option.some.inj ((s.put_readers id _).symm.trans hr')
    exact hge
  | short hpc' hnone =>
    exact absurd (h.available hpc') (Nat.not_lt.mpr (List.getElem?_eq_none_iff.mp hnone))
  | call | available | refused | drained | again | fetch | truncate | write | ret =>
    obtain rfl := Option.some.inj ((s.put_readers id _).symm.trans hr')
    cases hpc

/-- A reader about to look at a set `done_` has nothing promised in front of it. -/
structure Timely (base : String) (s : LogState α) : Prop extends Exact .orderQueue base s where
  promised : ∀ id, s.promised id ≤ s.log.length
  settled : ∀ id r, s.readers id = some r → r.pc = .checking → r.done = true →
    s.promised id ≤ r.offset

namespace Timely

theorem init : Timely base (LogState.init : LogState α) :=
  ⟨Exact.init, fun _ => Nat.le_refl _, by simp [LogState.init]⟩

theorem own {e : LogEvent α} (h : Timely base s) (hh : Happens .orderQueue base s e t)
    (hkill : s.noKill e = true) (hok : s.timelyShutdown e = true) (hid : e.reader = some id) :
    t.promised id ≤ t.log.length ∧ ∀ r, t.readers id = some r → r.pc = .checking →
      r.done = true → t.promised id ≤ r.offset := by
  have hbound := h.promised id
  cases hh with
  | append x => cases hid
  | kill => cases hkill
  | attach hnone =>
    obtain rfl := Option.some.inj hid
    simp only [Function.update_self]
    exact ⟨Nat.zero_le _, fun r _ _ _ => Nat.zero_le _⟩
  | detach hr hout =>
    obtain rfl := Option.some.inj hid
    refine ⟨hbound, fun r hr' => ?_⟩
    simp [LogState.drop] at hr'
  | @advance id' r r' _ hr hstep hm =>
    obtain rfl : id = id' := (Option.some.inj hid).symm
    rw [hm.promised, hm.log]
    refine ⟨hbound, fun q hq hpc _ => ?_⟩
    exact Nat.le_trans hbound (hstep.checking (h.readers id r hr) hq hpc)
  | @shutdown id' r _ hr =>
    obtain rfl : id = id' := (Option.some.inj hid).symm
    simp only [Function.update_self]
    refine ⟨Nat.le_refl _, fun q hq hpc _ => ?_⟩
    obtain rfl := Option.some.inj ((s.put_readers id _).symm.trans hq)
    simp only at hpc
    simpa [LogState.timelyShutdown, hr, Reader.overtaken, hpc] using hok

theorem step {e : LogEvent α} (h : Timely base s) (hkill : s.noKill e = true)
    (hok : s.timelyShutdown e = true) (hstep : s.step .orderQueue base e = some t) :
    Timely base t := by
  have hh := h.happens hstep
  have hboth : ∀ id, t.promised id ≤ t.log.length ∧ ∀ r, t.readers id = some r →
      r.pc = .checking → r.done = true → t.promised id ≤ r.offset := by
    intro id
    by_cases hid : e.reader = some id
    · exact h.own hh hkill hok hid
    · have hun := hh.unseen hid
      rw [hun.promised, hun.reader]
      exact ⟨Nat.le_trans (h.promised id) hun.log.length_le, h.settled id⟩
  exact ⟨h.toExact.step hkill hstep, fun id => (hboth id).1, fun id => (hboth id).2⟩

theorem drainKept (h : Timely base s) (id : String) : s.DrainKept base id := by
  intro t q hstep hq hpc
  cases h.happens hstep with
  | @advance _ r _ _ hr hread hm =>
    rcases hread.returns_false (h.readers id r hr) hq hpc with ⟨hapi, -⟩ | ⟨hchk, hdone, -⟩
    · cases hapi
    · have hentry := (Reader.entry_durable (show r.pc.inHand = none by rw [hchk]; rfl)).1
      rw [h.received id, consumed_of_reader hr, hentry]
      exact List.take_prefix_take_left (h.settled id r hr hchk hdone)

end Timely

theorem Reader.overtaken_iff {log : List α} :
    r.overtaken log = true ↔ r.pc = .checking ∧ r.offset < log.length := by
  unfold Reader.overtaken
  cases hpc : r.pc with
  | checking => simp
  | fresh | returned res | polling | found | fetched x | truncated x | written x | threw => simp

/-- A reader about to look at a set `done_` returns false next. -/
theorem LogState.DrainKept.drained (h : s.DrainKept base id) (hr : s.readers id = some r)
    (hpc : r.pc = .checking) (hdone : r.done = true) :
    s.log.take (s.promised id) <+: s.received id :=
  h (s.put id { r with pc := .returned none }) _
    (by simp only [LogState.step, hr, LogState.advance, hpc, hdone, if_true])
    (s.put_readers id _) rfl

theorem not_drainKept (h : Exact .orderQueue base s) (hr : s.readers id = some r)
    (hover : r.overtaken s.log = true) :
    ∃ t, s.step .orderQueue base (.shutdown id) = some t ∧ ¬ t.DrainKept base id := by
  obtain ⟨hpc, hlt⟩ := Reader.overtaken_iff.mp hover
  refine ⟨{ s.put id { r with done := true } with
    promised := Function.update s.promised id s.log.length }, ?_, fun hkept => ?_⟩
  · simp only [LogState.step, hr]
  · have hlen := (hkept.drained (s.put_readers id _) hpc rfl).length_le
    have hreceived := h.received id
    rw [consumed_of_reader hr, (Reader.entry_durable (by rw [hpc]; rfl)).1] at hreceived
    simp only [LogState.received] at hreceived
    simp only [LogState.received, LogState.put, Function.update_self, hreceived,
      List.length_take] at hlen
    omega

/-- **When `pop` keeps its drain promise.** In runs in which `shutdown` never
falls between the two looks of `pop` behind a new record, every `pop` that
returns false has returned all records appended before `shutdown`. Where it
does, the reader's next step returns false with such a record left. -/
theorem drain_promise_timely (base : String) :
    (∀ s : LogState α, Reachable (restrict (LogState.step .orderQueue base)
        fun s e => s.noKill e && s.timelyShutdown e) .init s → ∀ id, s.DrainKept base id) ∧
    ∀ s : LogState α, Reachable (restrict (LogState.step .orderQueue base) LogState.noKill) .init s →
      ∀ id, s.timelyShutdown (.shutdown id) = false →
        ∃ t, s.step .orderQueue base (.shutdown id) = some t ∧ ¬ t.DrainKept base id := by
  constructor
  · intro s hs id
    have hinv : Timely base s := hs.invariant Timely.init fun s e t h he => by
      obtain ⟨hok, hstep⟩ := restrict_some.mp he
      obtain ⟨hkill, htimely⟩ := Bool.and_eq_true_iff.mp hok
      exact h.step hkill htimely hstep
    exact hinv.drainKept id
  · intro s hs id hlate
    have hinv : Exact .orderQueue base s := hs.invariant Exact.init fun s e t h he =>
      h.step (restrict_some.mp he).1 (restrict_some.mp he).2
    obtain ⟨r, hr, hover⟩ : ∃ r, s.readers id = some r ∧ r.overtaken s.log = true := by
      cases hr : s.readers id with
      | none => simp [LogState.timelyShutdown, hr] at hlate
      | some r => exact ⟨r, rfl, by simpa [LogState.timelyShutdown, hr] using hlate⟩
    exact not_drainKept hinv hr hover

/-- A record comes in between the two looks of `pop`, and `shutdown` after the second. -/
def shutdownBetweenPolls : List (LogEvent (Order ℚ)) :=
  [.attach "", .advance "", .advance "", .append (Order.make 1 .sell .limit 100 10),
    .advance "", .shutdown ""] ++ List.replicate 7 (.advance "")

/-- The record is returned, and `pop` is about to return false. -/
theorem drain_promise_between_polls :
    ∃ s : LogState (Order ℚ), exec (restrict (LogState.step .orderQueue "shard_0")
        fun s e => s.noKill e && s.timelyShutdown e) .init shutdownBetweenPolls = some s ∧
      s.DrainKept "shard_0" "" ∧ s.readers "" = some ⟨1, true, .checking⟩ := by
  have hrun : (exec (restrict (LogState.step .orderQueue "shard_0")
      fun s e => s.noKill e && s.timelyShutdown e) .init shutdownBetweenPolls).any
      (fun s => s.readers "" == some ⟨1, true, .checking⟩) = true := by
    decide +kernel
  obtain ⟨s, hs, hq⟩ := exec_any hrun
  exact ⟨s, hs, (drain_promise_timely "shard_0").1 s (Reachable.start.exec hs) "", beq_iff_eq.mp hq⟩

/-- The log is empty when `pop` looks; an order is appended and `shutdown`
called before `pop` loads `done_`. -/
def shutdownOverRecord : List (LogEvent (Order ℚ)) :=
  [.attach "", .advance "", .advance "", .append (Order.make 1 .sell .limit 100 10), .shutdown ""]

/-- `pop` returns false, and the order has not been returned. -/
theorem drain_promise_broken :
    ∃ s : LogState (Order ℚ), exec (LogState.step .orderQueue "shard_0") .init shutdownOverRecord =
      some s ∧ ¬ s.DrainKept "shard_0" "" := by
  have hrun : (exec (LogState.step .orderQueue "shard_0") .init shutdownOverRecord).any
      (fun s => s.readers "" == some ⟨0, true, .checking⟩ &&
        decide ((s.received "").length < (s.log.take (s.promised "")).length)) = true := by
    decide +kernel
  obtain ⟨s, hs, hq⟩ := exec_any hrun
  simp only [Bool.and_eq_true, beq_iff_eq, decide_eq_true_eq] at hq
  exact ⟨s, hs, fun hkept => absurd (hkept.drained hq.1 rfl rfl).length_le (Nat.not_le.mpr hq.2)⟩

end TradingSystem
