import TradingSystem.ThreadedRunner

/-!
# The ring's two tests

`push` takes the difference of the two counters and compares it with the
capacity; `pop` compares the counters themselves. While neither has wrapped
both see the same number of orders. The push that brings `head_` back to zero
leaves `tail_` above it, and from then on `pop` sees an empty ring.
-/

namespace TradingSystem

open Transition

namespace LockFreeQueue

variable {w c : ℕ} {P : Type} {s : LockFreeQueue w P} {minCapacity : BitVec w}

/-- What `pop` finds is what `push` counts: an order in the ring is seen by
every load of `head_`, the first one and the one after `done_`, and a `pop`
that returned false left nothing behind. -/
structure TestsAgree (s : LockFreeQueue w P) : Prop where
  available : s.tail < s.head ↔ s.head - s.tail ≠ 0#w
  polls : ∀ tail, s.pop = .polling tail → s.head - s.tail ≠ 0#w →
    s.step .loadHead = some { s with pop := .reading tail }
  rechecks : ∀ tail, s.pop = .rechecking tail → s.head - s.tail ≠ 0#w →
    s.step .recheck = some { s with pop := .reading tail }
  refused : s.pop = .refused → s.head - s.tail = 0#w

/-- The slots are used in turn. -/
structure Cyclic (s : LockFreeQueue w P) : Prop where
  next : ∀ x, s.slot (x + 1#w) = (s.slot x + 1) % s.capacity.toNat
  head : s.slot s.head = s.pushed.length % s.capacity.toNat
  tail : s.slot s.tail = s.returned.length % s.capacity.toNat

/-- The last value of a counter is followed by the slot of zero. -/
theorem Inv.slot_succ (h : Inv c s) (x : BitVec w) : s.slot (x + 1#w) = (s.slot x + 1) % 2 ^ c := by
  have hw : 0 < w := Nat.zero_lt_of_lt h.lt_width
  have hdvd : 2 ^ c ∣ 2 ^ w := Nat.pow_dvd_pow 2 h.lt_width.le
  rw [h.slot_eq, h.slot_eq, BitVec.toNat_add, BitVec.toNat_one hw, Nat.mod_mod_of_dvd _ hdvd,
    Nat.mod_add_mod]

theorem Inv.cyclic (h : Inv c s) : s.Cyclic := by
  constructor
  case next => rw [h.capacity]; exact h.slot_succ
  case head => rw [h.capacity, h.head]; exact h.slot_ofNat _
  case tail => rw [h.capacity, h.tail]; exact h.slot_ofNat _

theorem Inv.occupied_iff (h : Inv c s) :
    s.head - s.tail ≠ 0#w ↔ s.returned.length < s.pushed.length := by
  have hcount : (s.head - s.tail).toNat = 0 ↔ s.head - s.tail = 0#w := by
    rw [← BitVec.toNat_inj, BitVec.toNat_ofNat, Nat.zero_mod]
  rw [h.occupancy] at hcount
  have hle : s.returned.length ≤ s.pushed.length := h.returned_le
  rw [ne_eq, ← hcount]
  omega

theorem Inv.available_iff (h : Inv c s) (hpushes : s.pushed.length < 2 ^ w) :
    s.tail < s.head ↔ s.returned.length < s.pushed.length := by
  rw [BitVec.lt_def, h.head_toNat hpushes,
    h.tail_toNat (Nat.lt_of_le_of_lt h.returned_le hpushes)]

/-- A `head_` that has wrapped is less than the capacity above zero, and
`tail_` has not wrapped with it. -/
theorem Inv.not_available (h : Inv c s) (hpops : s.returned.length < 2 ^ w)
    (hwrap : 2 ^ w ≤ s.pushed.length) : ¬ s.tail < s.head := by
  have hroom : s.pushed.length ≤ s.returned.length + 2 ^ c := h.pushed_le
  have hcap : 2 ^ c < 2 ^ w := Nat.pow_lt_pow_right (by decide) h.lt_width
  rw [BitVec.lt_def, h.tail_toNat hpops, h.head, BitVec.toNat_ofNat, Nat.mod_eq_sub_mod hwrap,
    Nat.mod_eq_of_lt (by omega)]
  omega

theorem Inv.testsAgree (h : Inv c s) (hpushes : s.pushed.length < 2 ^ w) : s.TestsAgree := by
  have hseen : s.tail < s.head ↔ s.head - s.tail ≠ 0#w := by
    rw [h.available_iff hpushes, h.occupied_iff]
  have hpops := h.pop
  unfold PopKnows at hpops
  constructor
  case available => exact hseen
  case polls =>
    intro tail hpop hne
    simp only [hpop] at hpops
    subst hpops
    simp [LockFreeQueue.step, hpop, hseen.mpr hne]
  case rechecks =>
    intro tail hpop hne
    simp only [hpop] at hpops
    obtain ⟨rfl, -⟩ := hpops
    simp [LockFreeQueue.step, hpop, hseen.mpr hne]
  case refused =>
    intro hpop
    simp only [hpop] at hpops
    exact not_not.mp fun hne => hpops.2 (hseen.mpr hne)

/-- **When the ring's tests agree.** In every state of every interleaving, for
every width of the counters and every capacity the constructor can round up,
`pop`'s test agrees with the occupancy `push` computes exactly while `head_`
has not wrapped. The slots are used in turn on both sides of the wrap. -/
theorem ring_tests_agree_iff [Zero P] (hw : 0 < w) (minCapacity : BitVec w)
    (hmin : minCapacity.toNat ≤ 2 ^ (w - 1)) (s : LockFreeQueue w P)
    (h : Reachable step (new minCapacity) s) :
    (s.TestsAgree ↔ s.pushed.length < 2 ^ w) ∧ s.Cyclic := by
  obtain ⟨c, hinv⟩ := reachable_inv hw hmin h
  have hpops := (reachable_counted hw hmin h).returned
  refine ⟨⟨fun hagree => ?_, hinv.testsAgree⟩, hinv.cyclic⟩
  by_contra hwrap
  have hin : s.head - s.tail ≠ 0#w := hinv.occupied_iff.mpr (by omega)
  exact hinv.not_available hpops (by omega) (hagree.available.mpr hin)

/-- The consumer of the one-slot ring has seen `done_`, and the second order
is in the ring. -/
theorem ring_tests_agree_one_slot :
    ∃ s : LockFreeQueue 64 ℚ, exec step (new 1#64) (oneSlot.take 18) = some s ∧
      s.pop = .rechecking 1#64 ∧ s.head - s.tail = 1#64 ∧ s.TestsAgree := by
  have hrun : (exec step (new 1#64 : LockFreeQueue 64 ℚ) (oneSlot.take 18)).any (fun s =>
      s.pop = .rechecking 1#64 ∧ s.head - s.tail = 1#64 ∧ s.pushed.length = 2) = true := by
    decide +kernel
  obtain ⟨s, hs, hq⟩ := exec_any hrun
  obtain ⟨hpop, hin, hpushed⟩ := of_decide_eq_true hq
  have hagree := (ring_tests_agree_iff (by decide) 1#64 (by decide) s (Reachable.start.exec hs)).1
  exact ⟨s, hs, hpop, hin, hagree.mpr (by rw [hpushed]; decide)⟩

/-- After `2 ^ w` pushes and one pop less, `pop` returns false with the last
order in the ring. -/
theorem exists_hidden_order (hw : 0 < w) (hmin : minCapacity.toNat ≤ 2 ^ (w - 1)) (o : Order ℚ) :
    ∃ s : LockFreeQueue w ℚ, Reachable step (new minCapacity) s ∧ s.pop = .refused ∧
      s.pushed.length = 2 ^ w ∧ s.returned.length + 1 = 2 ^ w := by
  have hlen : (List.replicate (2 ^ w - 1) o).length + 1 = 2 ^ w := by
    rw [List.length_replicate]
    exact Nat.sub_add_cancel Nat.one_le_two_pow
  obtain ⟨s, hs, hpop, hreturned⟩ := runLockfree_misses minCapacity hw hmin 10 hlen o
  have hQ := api_delivers (P := ℚ) hw hmin
  have hinv := Runner.reachable_inv hQ hs
  have hgiven : s.queue.pushed ++ s.queue.push.inHand = List.replicate (2 ^ w - 1) o ++ [o] :=
    hinv.all_given hQ (RingPop.isRefused_iff.mpr hpop)
  obtain ⟨c, hring⟩ := reachable_inv hw hmin hinv.queue
  have hstopped : s.queue.push = .stopped := by
    have hpops := hring.pop
    simp only [PopKnows, hpop] at hpops
    exact hring.closed.mp hpops.1
  rw [hstopped, RingPush.inHand, List.append_nil] at hgiven
  refine ⟨s.queue, hinv.queue, hpop, ?_, ?_⟩
  · rw [hgiven, List.length_append, List.length_singleton]
    exact hlen
  · rw [hreturned]
    exact hlen

theorem ring_wrap_hides_order :
    ∃ s : LockFreeQueue 64 ℚ, Reachable step (new (1#64 <<< 20)) s ∧ s.pop = .refused ∧
      s.head = 0#64 ∧ s.tail = BitVec.allOnes 64 ∧
        s.head - s.tail ≠ 0#64 ∧ ¬ s.tail < s.head := by
  have hmin : (1#64 <<< 20).toNat ≤ 2 ^ (64 - 1) := by decide
  obtain ⟨s, hs, hpop, hpushed, hreturned⟩ :=
    exists_hidden_order (by decide) hmin (Order.make 1 .buy .limit 100 5)
  obtain ⟨c, hinv⟩ := reachable_inv (by decide) hmin hs
  have hhead : s.head = 0#64 := by
    rw [hinv.head, hpushed]
    decide
  have htail : s.tail = BitVec.allOnes 64 := by
    rw [hinv.tail, show s.returned.length = 2 ^ 64 - 1 by omega]
    decide
  refine ⟨s, hs, hpop, hhead, htail, ?_, ?_⟩
  all_goals rw [hhead, htail]; decide

end LockFreeQueue

end TradingSystem
