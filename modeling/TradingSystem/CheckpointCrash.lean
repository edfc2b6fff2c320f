import TradingSystem.LogReader

/-!
# Kills inside a call of a log reader

`write_checkpoint` opens the file with `"wb"` before it writes the offset. A
process that dies in between leaves an empty file, which `read_checkpoint`
takes for offset 0. At every other point of a call a kill is harmless: the
next incarnation begins at the interrupted record or right behind it.
-/

namespace TradingSystem

open Transition

variable {α : Type}

/-- The checkpoint file is empty and the offset it held was not 0. -/
def Reader.exposed (r : Reader α) : Bool :=
  match r.pc with
  | .truncated _ => 0 < r.entry
  | _ => false

/-- No reader is killed while its checkpoint is lost. -/
def LogState.sparesCheckpoint (s : LogState α) : LogEvent α → Bool
  | .kill id => (s.readers id).all fun r => !r.exposed
  | _ => true

variable {api : LogApi} {base id : String} {s t : LogState α} {r : Reader α}

/-- What the next incarnation finds, compared with what the call began with. -/
theorem Reader.durable_cases (h : ∀ x, r.pc.inHand = some x → 0 < r.offset) :
    (r.durable = r.entry ∨ r.durable = r.entry + 1) ↔ r.exposed = false := by
  unfold Reader.durable Reader.entry Reader.exposed Reader.entry
  cases hpc : r.pc with
  | truncated x =>
    simp only [decide_eq_false_iff_not]
    omega
  | written x =>
    have := h x (by rw [hpc]; rfl)
    simp only [iff_true]
    omega
  | fresh | returned res | polling | checking | found | fetched x | threw => simp

/-- The next incarnation begins where the checkpoint file says. -/
theorem restart_begins (api : LogApi) (base : String) (hr : s.readers id = some r) :
    ∃ t, exec (LogState.step api base) s [.kill id, .attach id] = some t ∧
      t.readers id = some ⟨s.checkpoint api base id, false, .fresh⟩ := by
  have hnone : (s.drop id).readers id = none := Function.update_self _ _ _
  refine ⟨{ (s.drop id).put id ⟨s.checkpoint api base id, false, .fresh⟩ with
    promised := Function.update s.promised id 0 }, ?_, LogState.put_readers (s.drop id) id _⟩
  simp only [exec, LogState.step, hr, hnone, Option.bind_some]
  rfl

/-- Positions only grow, and a position comes with its record. -/
structure InOrder (log : List α) (bound : ℕ) (returned : List (ℕ × α)) : Prop where
  increasing : returned.Pairwise fun p q => p.1 < q.1
  behind : ∀ p ∈ returned, p.1 < bound
  records : ∀ p ∈ returned, log[p.1]? = some p.2

namespace InOrder

variable {log : List α} {bound : ℕ} {returned : List (ℕ × α)}

theorem mono (h : InOrder log bound returned) {bound' : ℕ} (hle : bound ≤ bound') :
    InOrder log bound' returned :=
  ⟨h.increasing, fun p hp => Nat.lt_of_lt_of_le (h.behind p hp) hle, h.records⟩

theorem append (h : InOrder log bound returned) {log' : List α} (hlog : log <+: log') :
    InOrder log' bound returned := by
  refine ⟨h.increasing, h.behind, fun p hp => ?_⟩
  obtain ⟨more, rfl⟩ := hlog
  have hrec := h.records p hp
  rw [List.getElem?_append_left (List.getElem?_eq_some_iff.mp hrec).1, hrec]

theorem snoc (h : InOrder log bound returned) {x : α} (hrec : log[bound]? = some x) :
    InOrder log (bound + 1) (returned ++ [(bound, x)]) := by
  refine ⟨?_, ?_, ?_⟩
  · refine List.pairwise_append.mpr ⟨h.increasing, List.pairwise_singleton _ _, ?_⟩
    intro p hp q hq
    obtain rfl := List.mem_singleton.mp hq
    exact h.behind p hp
  · intro p hp
    rcases List.mem_append.mp hp with hp | hp
    · exact Nat.lt_succ_of_lt (h.behind p hp)
    · obtain rfl := List.mem_singleton.mp hp
      exact Nat.lt_succ_self _
  · intro p hp
    rcases List.mem_append.mp hp with hp | hp
    · exact h.records p hp
    · obtain rfl := List.mem_singleton.mp hp
      exact hrec

end InOrder

/-- Every id has been returned records in order, all of them behind it. -/
structure Ordered (api : LogApi) (base : String) (s : LogState α) : Prop
    extends Aligned api base s where
  inOrder : ∀ id, InOrder s.log (s.consumed api base id) (s.returned id)

namespace Ordered

theorem init : Ordered api base (LogState.init : LogState α) :=
  ⟨Aligned.init, fun _ => ⟨List.Pairwise.nil, by simp [LogState.init], by simp [LogState.init]⟩⟩

/-- A kill that spares the checkpoint puts no returned record in front of the reader again. -/
theorem entry_le_checkpoint (h : Ordered api base s) (hr : s.readers id = some r)
    (hspared : r.exposed = false) : r.entry ≤ s.checkpoint api base id := by
  have hsound := h.readers id r hr
  rw [LogState.checkpoint, hsound.durable]
  rcases (Reader.durable_cases fun x hx => (hsound.inHand x hx).1).mpr hspared with heq | heq
  · exact Nat.le_of_eq heq.symm
  · omega

theorem own {e : LogEvent α} (h : Ordered api base s) (hh : Happens api base s e t)
    (hok : s.sparesCheckpoint e = true) (hid : e.reader = some id) :
    InOrder t.log (t.consumed api base id) (t.returned id) := by
  have hbefore := h.inOrder id
  cases hh with
  | append x => cases hid
  | attach hnone =>
    obtain rfl := Option.some.inj hid
    simp only [LogState.consumed, hnone] at hbefore
    simp only [LogState.consumed, LogState.put_readers]
    exact hbefore
  | detach hr hout =>
    obtain rfl := Option.some.inj hid
    rw [h.consumed_outside hr (ReadPc.inHand_of_outside hout)] at hbefore
    simp only [LogState.consumed, LogState.drop, Function.update_self]
    exact hbefore
  | @advance id' r r' _ hr hstep hm =>
    obtain rfl : id = id' := (Option.some.inj hid).symm
    have hself : t.readers id = some r' := by rw [hm.readers, Function.update_self]
    rw [consumed_of_reader hr] at hbefore
    rw [consumed_of_reader hself, hm.log]
    rcases hm.returned with ⟨hret, hentry, -⟩ | ⟨x, hrec, -, hentry, hret⟩
    · rw [hret, hentry]
      exact hbefore
    · rw [hret, hentry, Function.update_self]
      exact hbefore.snoc hrec
  | shutdown hapi hr =>
    obtain rfl := Option.some.inj hid
    rw [consumed_of_reader hr] at hbefore
    simp only [LogState.consumed, LogState.put_readers]
    exact hbefore
  | @kill id' r hr =>
    obtain rfl : id = id' := (Option.some.inj hid).symm
    have hspared : r.exposed = false := by simpa [LogState.sparesCheckpoint, hr] using hok
    rw [consumed_of_reader hr] at hbefore
    simp only [LogState.consumed, LogState.drop, Function.update_self]
    exact hbefore.mono (h.entry_le_checkpoint hr hspared)

theorem step {e : LogEvent α} (h : Ordered api base s) (hok : s.sparesCheckpoint e = true)
    (hstep : s.step api base e = some t) : Ordered api base t := by
  have hh := h.happens hstep
  refine ⟨hh.aligned h.toAligned, fun id => ?_⟩
  by_cases hid : e.reader = some id
  · exact h.own hh hok hid
  · have hun := hh.unseen hid
    rw [hun.returned, hun.consumed]
    exact (h.inOrder id).append hun.log

end Ordered

/-- **When a kill inside a call is harmless.** In every reachable state, the
next incarnation of a killed reader begins at the record its call began with
or behind it, exactly if the kill did not fall between truncating a non-zero
checkpoint and writing it. In runs without such kills no record is returned
twice or out of order. -/
theorem crash_atomic_iff (api : LogApi) (base : String) :
    (∀ s : LogState α, Reachable (LogState.step api base) .init s →
      ∀ id r, s.readers id = some r →
        (r.pc.outside = true → s.checkpoint api base id = r.entry) ∧
        ((∃ t q, exec (LogState.step api base) s [.kill id, .attach id] = some t ∧
            t.readers id = some q ∧ (q.offset = r.entry ∨ q.offset = r.entry + 1)) ↔
          s.sparesCheckpoint (.kill id) = true)) ∧
    ∀ s : LogState α, Reachable (restrict (LogState.step api base) LogState.sparesCheckpoint) .init s →
      ∀ id, InOrder s.log (s.consumed api base id) (s.returned id) := by
  constructor
  · intro s hs id r hr
    have haligned : Aligned api base s := hs.invariant Aligned.init fun s e t h he =>
      (h.happens he).aligned h
    have hsound := haligned.readers id r hr
    have hcases := Reader.durable_cases fun x hx => (hsound.inHand x hx).1
    obtain ⟨t, ht, hq⟩ := restart_begins api base hr
    have hspares : s.sparesCheckpoint (.kill id) = true ↔ r.exposed = false := by
      simp [LogState.sparesCheckpoint, hr]
    refine ⟨fun hout => ?_, ?_⟩
    · rw [← haligned.consumed_outside hr (ReadPc.inHand_of_outside hout), consumed_of_reader hr]
    · rw [hspares, ← hcases, ← hsound.durable]
      constructor
      · rintro ⟨t', q, ht', hq', hoff⟩
        obtain rfl := Option.some.inj (ht.symm.trans ht')
        obtain rfl := Option.some.inj (hq.symm.trans hq')
        exact hoff
      · exact fun hoff => ⟨t, _, ht, hq, hoff⟩
  · intro s hs
    have hinv : Ordered api base s := hs.invariant Ordered.init fun s e t h he =>
      h.step (restrict_some.mp he).1 (restrict_some.mp he).2
    exact hinv.inOrder

/-- The reader pops the first order and has truncated its checkpoint for the second. -/
def secondPopTruncated : List (LogEvent (Order ℚ)) :=
  [.append (Order.make 1 .sell .limit 100 10), .append (Order.make 2 .buy .limit 100 10),
    .attach ""] ++ List.replicate 10 (.advance "")

/-- A kill after the offset of the second order is written is harmless. -/
theorem crash_atomic_after_write :
    ∃ (s t : LogState (Order ℚ)) (r q : Reader (Order ℚ)),
      exec (LogState.step .orderQueue "shard_0") .init (secondPopTruncated ++ [.advance ""]) =
        some s ∧ s.readers "" = some r ∧ r.entry = 1 ∧
      exec (LogState.step .orderQueue "shard_0") s [.kill "", .attach ""] = some t ∧
      t.readers "" = some q ∧ (q.offset = 1 ∨ q.offset = 2) := by
  have hrun : (exec (LogState.step .orderQueue "shard_0") .init
      (secondPopTruncated ++ [.advance ""])).any (fun s =>
        s.sparesCheckpoint (.kill "") && (s.readers "").map Reader.entry == some 1) = true := by
    decide +kernel
  obtain ⟨s, hs, hq⟩ := exec_any hrun
  simp only [Bool.and_eq_true, beq_iff_eq, Option.map_eq_some_iff] at hq
  obtain ⟨hspares, r, hr, hentry⟩ := hq
  obtain ⟨t, q, ht, hq, hoff⟩ := (((crash_atomic_iff .orderQueue "shard_0").1 s
    (Reachable.start.exec hs) "" r hr).2).mpr hspares
  rw [hentry] at hoff
  exact ⟨s, t, r, q, hs, hr, hentry, ht, hq, hoff⟩

/-- One order is behind the reader when it is killed with its checkpoint
truncated. It begins at 0 again and returns that order a second time. -/
theorem truncated_checkpoint_replays :
    (exec (LogState.step .orderQueue "shard_0") .init secondPopTruncated).map
        (fun s => s.consumed .orderQueue "shard_0" "") = some 1 ∧
      (exec (LogState.step .orderQueue "shard_0") .init
        (secondPopTruncated ++ [.kill "", .attach ""])).map
        (fun s => (s.readers "").map Reader.offset) = some (some 0) ∧
      (exec (LogState.step .orderQueue "shard_0") .init
        (secondPopTruncated ++ [.kill "", .attach ""] ++ List.replicate 6 (.advance ""))).map
        (fun s => (s.received "").map Order.orderId) = some [1, 1] := by
  decide +kernel

end TradingSystem
