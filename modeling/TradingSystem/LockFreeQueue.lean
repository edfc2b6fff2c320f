import Mathlib.Data.Nat.Bitwise
import Mathlib.Algebra.Order.Ring.Rat
import TradingSystem.Order
import TradingSystem.Lib.Circular
import TradingSystem.Lib.ListLemmas
import TradingSystem.Lib.Loop
import TradingSystem.Lib.Transition

/-!
# The lock-free ring

`include/lockfree_order_queue.hpp` as two threads that interleave: one
producer that pushes and finally calls `shutdown`, one consumer that pops.
Every atomic load or store and every slot access is a step. `size_t` is
`BitVec w`, so the counters wrap.

`pushed`, `returned` and `unread` are not in the source. The first two record
the orders whose push or pop has taken effect. A slot is `unread` from the
write of an order until the read of it.
-/

namespace TradingSystem

open Transition

/-- Where the producer is in `push`; `head` is its copy of `head_`. -/
inductive RingPush (w : ℕ) (P : Type) where
  | idle
  /-- about to load `tail_` and test for room -/
  | loaded (o : Order P) (head : BitVec w)
  /-- there was room -/
  | writing (o : Order P) (head : BitVec w)
  /-- the slot is written, `head_` not yet stored -/
  | storing (o : Order P) (head : BitVec w)
  /-- `shutdown` was called -/
  | stopped
  deriving DecidableEq

/-- Where the consumer is in `pop`; `tail` is its copy of `tail_`. -/
inductive RingPop (w : ℕ) (P : Type) where
  | idle
  /-- about to load `head_` -/
  | polling (tail : BitVec w)
  /-- found nothing, about to load `done_` -/
  | checking (tail : BitVec w)
  /-- saw `done_`, about to load `head_` again -/
  | rechecking (tail : BitVec w)
  | reading (tail : BitVec w)
  /-- the slot is read, `tail_` not yet stored -/
  | advancing (tail : BitVec w) (o : Order P)
  /-- the last `pop` returned false -/
  | refused
  deriving DecidableEq

/-- The producer's copy of `head_`. -/
def RingPush.head? {w : ℕ} {P : Type} : RingPush w P → Option (BitVec w)
  | .loaded _ head | .writing _ head | .storing _ head => some head
  | .idle | .stopped => none

/-- The consumer's copy of `tail_`. -/
def RingPop.tail? {w : ℕ} {P : Type} : RingPop w P → Option (BitVec w)
  | .polling tail | .checking tail | .rechecking tail | .reading tail => some tail
  | .advancing tail _ => some tail
  | .idle | .refused => none

structure LockFreeQueue (w : ℕ) (P : Type) where
  capacity : BitVec w
  mask : BitVec w
  buffer : ℕ → Order P
  head : BitVec w
  tail : BitVec w
  done : Bool
  push : RingPush w P
  pop : RingPop w P
  unread : ℕ → Bool
  pushed : List (Order P)
  returned : List (Order P)

inductive RingEvent (P : Type) where
  | beginPush (o : Order P)
  | loadTail
  | writeSlot
  | storeHead
  | shutdown
  | beginPop
  | loadHead
  | loadDone
  | recheck
  | readSlot
  | storeTail

namespace LockFreeQueue

variable {w : ℕ} {P : Type}

/-- One round of the constructor's loop. -/
def grow (minCapacity capacity : BitVec w) : Option (BitVec w) :=
  if capacity < minCapacity then some (capacity <<< 1) else none

/-- The constructor. Above `2 ^ (w - 1)` the source's loop shifts the capacity
to zero and never ends; up to there `w` rounds are enough. -/
def new [Zero P] (minCapacity : BitVec w) : LockFreeQueue w P where
  capacity := Loop.run (grow minCapacity) w 1#w
  mask := Loop.run (grow minCapacity) w 1#w - 1#w
  buffer := fun _ => Order.make 0 .buy .limit 0 0
  head := 0#w
  tail := 0#w
  done := false
  push := .idle
  pop := .idle
  unread := fun _ => false
  pushed := []
  returned := []

/-- The index `x & mask_`. -/
def slot (s : LockFreeQueue w P) (x : BitVec w) : ℕ := (x &&& s.mask).toNat

def step (s : LockFreeQueue w P) : RingEvent P → Option (LockFreeQueue w P)
  | .beginPush o =>
    match s.push with
    | .idle => some { s with push := .loaded o s.head }
    | _ => none
  | .loadTail =>
    match s.push with
    | .loaded o head =>
      -- a full ring sends the producer round its loop again
      if head - s.tail < s.capacity then some { s with push := .writing o head } else some s
    | _ => none
  | .writeSlot =>
    match s.push with
    | .writing o head => some { s with
        push := .storing o head
        buffer := Function.update s.buffer (s.slot head) o
        unread := Function.update s.unread (s.slot head) true }
    | _ => none
  | .storeHead =>
    match s.push with
    | .storing o head =>
      some { s with push := .idle, head := head + 1#w, pushed := s.pushed ++ [o] }
    | _ => none
  | .shutdown =>
    match s.push with
    | .idle => some { s with push := .stopped, done := true }
    | _ => none
  | .beginPop =>
    match s.pop with
    | .idle => some { s with pop := .polling s.tail }
    | .refused => some { s with pop := .polling s.tail }
    | _ => none
  | .loadHead =>
    match s.pop with
    | .polling tail =>
      if tail < s.head then some { s with pop := .reading tail }
      else some { s with pop := .checking tail }
    | _ => none
  | .loadDone =>
    match s.pop with
    | .checking tail =>
      if s.done then some { s with pop := .rechecking tail }
      else some { s with pop := .polling tail }
    | _ => none
  | .recheck =>
    match s.pop with
    | .rechecking tail =>
      if tail < s.head then some { s with pop := .reading tail }
      else some { s with pop := .refused }
    | _ => none
  | .readSlot =>
    match s.pop with
    | .reading tail => some { s with
        pop := .advancing tail (s.buffer (s.slot tail))
        unread := Function.update s.unread (s.slot tail) false }
    | _ => none
  | .storeTail =>
    match s.pop with
    | .advancing tail o =>
      some { s with pop := .idle, tail := tail + 1#w, returned := s.returned ++ [o] }
    | _ => none

/-- What each event requires and does. -/
inductive Does (s : LockFreeQueue w P) : RingEvent P → LockFreeQueue w P → Prop where
  | beginPush {o : Order P} (hpush : s.push = .idle) :
      Does s (.beginPush o) { s with push := .loaded o s.head }
  | room {o : Order P} {head : BitVec w} (hpush : s.push = .loaded o head)
      (hroom : head - s.tail < s.capacity) : Does s .loadTail { s with push := .writing o head }
  | spin {o : Order P} {head : BitVec w} (hpush : s.push = .loaded o head) :
      Does s .loadTail s
  | writeSlot {o : Order P} {head : BitVec w} (hpush : s.push = .writing o head) :
      Does s .writeSlot { s with
        push := .storing o head
        buffer := Function.update s.buffer (s.slot head) o
        unread := Function.update s.unread (s.slot head) true }
  | storeHead {o : Order P} {head : BitVec w} (hpush : s.push = .storing o head) :
      Does s .storeHead { s with
        push := .idle, head := head + 1#w, pushed := s.pushed ++ [o] }
  | shutdown (hpush : s.push = .idle) :
      Does s .shutdown { s with push := .stopped, done := true }
  | beginPop (hpop : s.pop = .idle ∨ s.pop = .refused) :
      Does s .beginPop { s with pop := .polling s.tail }
  | available {tail : BitVec w} (hpop : s.pop = .polling tail) (hlt : tail < s.head) :
      Does s .loadHead { s with pop := .reading tail }
  | nothing {tail : BitVec w} (hpop : s.pop = .polling tail) :
      Does s .loadHead { s with pop := .checking tail }
  | sawDone {tail : BitVec w} (hpop : s.pop = .checking tail) (hdone : s.done = true) :
      Does s .loadDone { s with pop := .rechecking tail }
  | again {tail : BitVec w} (hpop : s.pop = .checking tail) :
      Does s .loadDone { s with pop := .polling tail }
  | late {tail : BitVec w} (hpop : s.pop = .rechecking tail) (hlt : tail < s.head) :
      Does s .recheck { s with pop := .reading tail }
  | refuse {tail : BitVec w} (hpop : s.pop = .rechecking tail) (hlt : ¬ tail < s.head) :
      Does s .recheck { s with pop := .refused }
  | readSlot {tail : BitVec w} (hpop : s.pop = .reading tail) :
      Does s .readSlot { s with
        pop := .advancing tail (s.buffer (s.slot tail))
        unread := Function.update s.unread (s.slot tail) false }
  | storeTail {tail : BitVec w} {o : Order P} (hpop : s.pop = .advancing tail o) :
      Does s .storeTail { s with
        pop := .idle, tail := tail + 1#w, returned := s.returned ++ [o] }

theorem step_does {s t : LockFreeQueue w P} {e : RingEvent P} (h : s.step e = some t) :
    Does s e t := by
  cases e with
  | loadTail =>
    simp only [step] at h
    split at h
    · split at h
      all_goals cases h
      · exact .room ‹_› ‹_›
      · exact .spin ‹_›
    · cases h
  | beginPop =>
    simp only [step] at h
    split at h
    all_goals cases h
    · exact .beginPop (.inl ‹_›)
    · exact .beginPop (.inr ‹_›)
  | loadHead =>
    simp only [step] at h
    split at h
    · split at h
      all_goals cases h
      · exact .available ‹_› ‹_›
      · exact .nothing ‹_›
    · cases h
  | loadDone =>
    simp only [step] at h
    split at h
    · split at h
      all_goals cases h
      · exact .sawDone ‹_› ‹_›
      · exact .again ‹_›
    · cases h
  | recheck =>
    simp only [step] at h
    split at h
    · split at h
      all_goals cases h
      · exact .late ‹_› ‹_›
      · exact .refuse ‹_› ‹_›
    · cases h
  | _ =>
    simp only [step] at h
    split at h
    all_goals cases h
    all_goals constructor; assumption

/-! ## The constructor's capacity -/

theorem grow_run {minCapacity : BitVec w} (hmin : minCapacity.toNat ≤ 2 ^ (w - 1)) (fuel k : ℕ)
    {capacity : BitVec w} (hcap : capacity.toNat = 2 ^ k) (hk : k < w) (hfuel : w ≤ k + fuel + 1) :
    ∃ c < w, (Loop.run (grow minCapacity) fuel capacity).toNat = 2 ^ c ∧
      minCapacity.toNat ≤ 2 ^ c := by
  induction fuel generalizing k capacity with
  | zero =>
    obtain rfl : k = w - 1 := by omega
    exact ⟨w - 1, hk, hcap, hmin⟩
  | succ fuel ih =>
    by_cases hlt : capacity < minCapacity
    · have hbody : grow minCapacity capacity = some (capacity <<< 1) := by simp [grow, hlt]
      have hless : 2 ^ k < 2 ^ (w - 1) := by
        have := BitVec.lt_def.mp hlt
        omega
      have hk' : k < w - 1 := (Nat.pow_lt_pow_iff_right (by decide)).mp hless
      have hdouble : (capacity <<< 1).toNat = 2 ^ (k + 1) := by
        rw [BitVec.toNat_shiftLeft, hcap, Nat.shiftLeft_eq, ← Nat.pow_succ]
        exact Nat.mod_eq_of_lt (Nat.pow_lt_pow_right (by decide) (by omega))
      rw [Loop.run_some hbody]
      exact ih (k + 1) hdouble (by omega) (by omega)
    · have hbody : grow minCapacity capacity = none := by simp [grow, hlt]
      rw [Loop.run_none hbody]
      exact ⟨k, hk, hcap, by rw [← hcap]; exact Nat.le_of_not_lt hlt⟩

/-- The ring is built with the least power of two the loop reaches. -/
theorem new_capacity [Zero P] (hw : 0 < w) {minCapacity : BitVec w}
    (hmin : minCapacity.toNat ≤ 2 ^ (w - 1)) :
    ∃ c < w, (new minCapacity : LockFreeQueue w P).capacity.toNat = 2 ^ c ∧
      minCapacity.toNat ≤ 2 ^ c :=
  grow_run hmin w 0 (BitVec.toNat_one hw) hw (by omega)

/-! ## The invariant -/

/-- The orders that have been written to their slots. -/
def written (s : LockFreeQueue w P) : List (Order P) :=
  match s.push with
  | .storing o _ => s.pushed ++ [o]
  | _ => s.pushed

/-- The orders that have been read from their slots. -/
def taken (s : LockFreeQueue w P) : List (Order P) :=
  match s.pop with
  | .advancing _ o => s.returned ++ [o]
  | _ => s.returned

/-- What the producer may rely on where it is. -/
def PushKnows (c : ℕ) (s : LockFreeQueue w P) : Prop :=
  match s.push with
  | .idle => True
  | .loaded _ head => head = s.head
  | .writing _ head => head = s.head ∧ s.pushed.length < s.returned.length + 2 ^ c
  | .storing _ head => head = s.head
  | .stopped => True

/-- What the consumer may rely on where it is. -/
def PopKnows (s : LockFreeQueue w P) : Prop :=
  match s.pop with
  | .idle => True
  | .polling tail => tail = s.tail
  | .checking tail => tail = s.tail
  | .rechecking tail => tail = s.tail ∧ s.done = true
  | .reading tail => tail = s.tail ∧ s.returned.length < s.pushed.length
  | .advancing tail _ => tail = s.tail
  | .refused => s.done = true ∧ ¬ s.tail < s.head

/-- A ring of `2 ^ c` slots in a reachable state. It bounds no counter: all of
it survives the wrap. -/
structure Inv (c : ℕ) (s : LockFreeQueue w P) : Prop where
  lt_width : c < w
  capacity : s.capacity.toNat = 2 ^ c
  mask : s.mask.toNat = 2 ^ c - 1
  head : s.head = BitVec.ofNat w s.pushed.length
  tail : s.tail = BitVec.ofNat w s.returned.length
  taken_prefix : s.taken <+: s.pushed
  room : s.written.length ≤ s.returned.length + 2 ^ c
  window : Circular.Window (2 ^ c) s.buffer s.unread s.written s.taken.length
  closed : s.done = true ↔ s.push = .stopped
  push : s.PushKnows c
  pop : s.PopKnows

variable {c : ℕ} {s : LockFreeQueue w P}

theorem inv_new [Zero P] (hw : 0 < w) {minCapacity : BitVec w}
    (hmin : minCapacity.toNat ≤ 2 ^ (w - 1)) :
    ∃ c, Inv c (new minCapacity : LockFreeQueue w P) := by
  obtain ⟨c, hc, hcap, -⟩ := new_capacity (P := P) hw hmin
  have hone : 1#w ≤ (new minCapacity : LockFreeQueue w P).capacity := by
    rw [BitVec.le_def, BitVec.toNat_one hw, hcap]
    exact Nat.one_le_two_pow
  have hmask : (new minCapacity : LockFreeQueue w P).mask.toNat = 2 ^ c - 1 := by
    rw [← hcap, ← BitVec.toNat_one hw]
    exact BitVec.toNat_sub_of_le hone
  exact ⟨c, hc, hcap, hmask, rfl, rfl, List.prefix_rfl, Nat.zero_le _, .empty _ _,
    by simp [new], trivial, trivial⟩

theorem returned_prefix_taken (s : LockFreeQueue w P) : s.returned <+: s.taken := by
  unfold taken
  split
  · exact List.prefix_append _ _
  · exact List.prefix_rfl

theorem pushed_prefix_written (s : LockFreeQueue w P) : s.pushed <+: s.written := by
  unfold written
  split
  · exact List.prefix_append _ _
  · exact List.prefix_rfl

theorem Inv.returned_le (h : Inv c s) : s.returned.length ≤ s.pushed.length :=
  (s.returned_prefix_taken.trans h.taken_prefix).length_le

theorem Inv.pushed_le (h : Inv c s) : s.pushed.length ≤ s.returned.length + 2 ^ c :=
  s.pushed_prefix_written.length_le.trans h.room

theorem Inv.slot_eq (h : Inv c s) (x : BitVec w) : s.slot x = x.toNat % 2 ^ c := by
  unfold LockFreeQueue.slot
  rw [BitVec.toNat_and, h.mask, Nat.and_two_pow_sub_one_eq_mod]

/-- A counter is masked to the slot of the entry it counts, wrapped or not. -/
theorem Inv.slot_ofNat (h : Inv c s) (k : ℕ) : s.slot (BitVec.ofNat w k) = k % 2 ^ c := by
  rw [h.slot_eq, BitVec.toNat_ofNat, Nat.mod_mod_of_dvd _ (Nat.pow_dvd_pow 2 h.lt_width.le)]

theorem Inv.head_toNat (h : Inv c s) (hlt : s.pushed.length < 2 ^ w) :
    s.head.toNat = s.pushed.length := by
  rw [h.head, BitVec.toNat_ofNat, Nat.mod_eq_of_lt hlt]

theorem Inv.tail_toNat (h : Inv c s) (hlt : s.returned.length < 2 ^ w) :
    s.tail.toNat = s.returned.length := by
  rw [h.tail, BitVec.toNat_ofNat, Nat.mod_eq_of_lt hlt]

/-- The difference `push` tests is the number of orders in the ring. -/
theorem Inv.occupancy (h : Inv c s) :
    (s.head - s.tail).toNat = s.pushed.length - s.returned.length := by
  have hle : s.returned.length ≤ s.pushed.length := h.returned_le
  have hroom : s.pushed.length ≤ s.returned.length + 2 ^ c := h.pushed_le
  have hcap : 2 ^ c < 2 ^ w := Nat.pow_lt_pow_right (by decide) h.lt_width
  have hsplit : s.head = s.tail + BitVec.ofNat w (s.pushed.length - s.returned.length) := by
    rw [h.head, h.tail, ← BitVec.ofNat_add, Nat.add_sub_cancel' hle]
  rw [hsplit, BitVec.add_comm, BitVec.add_sub_cancel, BitVec.toNat_ofNat]
  exact Nat.mod_eq_of_lt (by omega)

/-- Where `pop` finds its counter below `head_` there is an order. -/
theorem Inv.available (h : Inv c s) (hlt : s.tail < s.head) :
    s.returned.length < s.pushed.length := by
  refine Nat.lt_of_le_of_ne h.returned_le fun he => ?_
  rw [h.head, h.tail, he] at hlt
  exact absurd hlt (BitVec.lt_irrefl _)

/-! ## One step -/

/-- The producer moves on without touching the ring. -/
theorem Inv.producer_moves (h : Inv c s) {pc : RingPush w P} (hsame : s.written = s.pushed)
    (hpc : ({ s with push := pc }).written = s.pushed)
    (hclosed : s.done = true ↔ pc = .stopped) (hknows : ({ s with push := pc }).PushKnows c) :
    Inv c { s with push := pc } :=
  { h with
    room := by rw [hpc, ← hsame]; exact h.room
    window := by rw [hpc, ← hsame]; exact h.window
    closed := hclosed
    push := hknows }

/-- The consumer moves on without touching the ring. -/
theorem Inv.consumer_moves (h : Inv c s) {pc : RingPop w P} (hsame : s.taken = s.returned)
    (hpc : ({ s with pop := pc }).taken = s.returned)
    (hknows : ({ s with pop := pc }).PopKnows) : Inv c { s with pop := pc } :=
  { h with
    taken_prefix := by rw [hpc, ← hsame]; exact h.taken_prefix
    window := by rw [hpc, ← hsame]; exact h.window
    pop := hknows }

theorem Inv.writeSlot (h : Inv c s) {o : Order P} {head : BitVec w}
    (hpush : s.push = .writing o head) :
    Inv c { s with
      push := .storing o head
      buffer := Function.update s.buffer (s.slot head) o
      unread := Function.update s.unread (s.slot head) true } := by
  obtain ⟨hhead, hroom⟩ : head = s.head ∧ s.pushed.length < s.returned.length + 2 ^ c := by
    simpa [PushKnows, hpush] using h.push
  have hwritten : s.written = s.pushed := by simp [written, hpush]
  have hslot : s.slot head = s.written.length % 2 ^ c := by
    rw [hhead, h.head, h.slot_ofNat, hwritten]
  have htaken : s.returned.length ≤ s.taken.length := s.returned_prefix_taken.length_le
  have hwindow := h.window.write (by rw [hwritten]; omega) o
  rw [← hslot, hwritten] at hwindow
  have hlast : (s.pushed ++ [o]).length ≤ s.returned.length + 2 ^ c := by
    rw [List.length_append]
    exact hroom
  exact { h with
    room := hlast
    window := hwindow
    closed := by simpa [hpush] using h.closed
    push := hhead }

/-- While the flag is down the consumer relies only on its own counter and on
orders being there, so more of them do no harm. -/
theorem PopKnows.mono {t : LockFreeQueue w P} (h : s.PopKnows) (hopen : s.done = false)
    (hpop : t.pop = s.pop) (htail : t.tail = s.tail) (hreturned : t.returned = s.returned)
    (hpushed : s.pushed <+: t.pushed) : t.PopKnows := by
  unfold PopKnows at h ⊢
  rw [hpop, htail, hreturned]
  cases hpc : s.pop with
  | reading tail =>
    simp only [hpc] at h
    exact ⟨h.1, Nat.lt_of_lt_of_le h.2 hpushed.length_le⟩
  | rechecking tail | refused => simp [hpc, hopen] at h
  | _ =>
    rw [hpc] at h
    exact h

theorem Inv.storeHead (h : Inv c s) {o : Order P} {head : BitVec w}
    (hpush : s.push = .storing o head) :
    Inv c { s with push := .idle, head := head + 1#w, pushed := s.pushed ++ [o] } := by
  have hhead : head = s.head := by simpa [PushKnows, hpush] using h.push
  have hwritten : s.written = s.pushed ++ [o] := by simp [written, hpush]
  have hopen : s.done = false := by simpa [hpush] using h.closed
  exact { h with
    head := by rw [hhead, h.head, List.length_append, BitVec.ofNat_add]; rfl
    taken_prefix := h.taken_prefix.trans (List.prefix_append _ _)
    room := hwritten ▸ h.room
    window := hwritten ▸ h.window
    closed := by simp [hopen]
    push := trivial
    pop := h.pop.mono hopen rfl rfl rfl (List.prefix_append _ _) }

theorem Inv.shutdown (h : Inv c s) (hpush : s.push = .idle) :
    Inv c { s with push := .stopped, done := true } := by
  have hwritten : s.written = s.pushed := by simp [written, hpush]
  have hopen : s.done = false := by simpa [hpush] using h.closed
  exact { h with
    room := hwritten ▸ h.room
    window := hwritten ▸ h.window
    closed := by simp
    push := trivial
    pop := h.pop.mono hopen rfl rfl rfl List.prefix_rfl }

theorem Inv.readSlot (h : Inv c s) {tail : BitVec w} (hpop : s.pop = .reading tail) :
    Inv c { s with
      pop := .advancing tail (s.buffer (s.slot tail))
      unread := Function.update s.unread (s.slot tail) false } := by
  obtain ⟨htail, hlt⟩ : tail = s.tail ∧ s.returned.length < s.pushed.length := by
    simpa [PopKnows, hpop] using h.pop
  have htaken : s.taken = s.returned := by simp [taken, hpop]
  have hslot : s.slot tail = s.returned.length % 2 ^ c := by rw [htail, h.tail, h.slot_ofNat]
  have hwindow := h.window
  have hreturned := h.taken_prefix
  rw [htaken] at hwindow hreturned
  have hlt' : s.returned.length < s.written.length :=
    Nat.lt_of_lt_of_le hlt s.pushed_prefix_written.length_le
  -- the slot holds the order that is next in the pushed sequence
  have hnext : s.pushed[s.returned.length]? = some (s.buffer (s.slot tail)) := by
    obtain ⟨rest, hrest⟩ := s.pushed_prefix_written
    rw [hslot, ← hwindow.stored _ (Nat.le_refl _) hlt', ← hrest,
      List.getElem?_append_left hlt]
  have hread := hwindow.read hlt' h.room
  rw [← hslot] at hread
  have hlength : (s.returned ++ [s.buffer (s.slot tail)]).length = s.returned.length + 1 :=
    List.length_append
  exact { h with
    taken_prefix := ListLemmas.prefix_snoc hreturned hnext
    window := hlength ▸ hread
    pop := htail }

theorem Inv.storeTail (h : Inv c s) {tail : BitVec w} {o : Order P}
    (hpop : s.pop = .advancing tail o) :
    Inv c { s with pop := .idle, tail := tail + 1#w, returned := s.returned ++ [o] } := by
  have htail : tail = s.tail := by simpa [PopKnows, hpop] using h.pop
  have htaken : s.taken = s.returned ++ [o] := by simp [taken, hpop]
  have hpush := h.push
  exact { h with
    tail := by rw [htail, h.tail, List.length_append, BitVec.ofNat_add]; rfl
    taken_prefix := htaken ▸ h.taken_prefix
    room := by
      have := h.room
      rw [List.length_append]
      exact Nat.le_trans this (by omega)
    window := htaken ▸ h.window
    push := by
      unfold PushKnows at hpush ⊢
      cases hpc : s.push with
      | writing _ head =>
        simp only [hpc] at hpush
        refine ⟨hpush.1, Nat.lt_of_lt_of_le hpush.2 ?_⟩
        rw [List.length_append]
        omega
      | _ =>
        rw [hpc] at hpush
        exact hpush
    pop := trivial }

theorem Inv.reading (h : Inv c s) {tail : BitVec w} (hsame : s.taken = s.returned)
    (htail : tail = s.tail) (hlt : tail < s.head) : Inv c { s with pop := .reading tail } :=
  h.consumer_moves hsame rfl ⟨htail, h.available (htail ▸ hlt)⟩

theorem Inv.step {t : LockFreeQueue w P} {e : RingEvent P} (h : Inv c s)
    (hstep : s.step e = some t) : Inv c t := by
  have hpushes := h.push
  have hpops := h.pop
  unfold PushKnows at hpushes
  unfold PopKnows at hpops
  cases step_does hstep with
  | beginPush hpush =>
    have hopen : s.done = false := by simpa [hpush] using h.closed
    exact h.producer_moves (by simp [written, hpush]) rfl (by simp [hopen]) rfl
  | room hpush hroom =>
    have hopen : s.done = false := by simpa [hpush] using h.closed
    simp only [hpush] at hpushes
    rw [hpushes, BitVec.lt_def, h.occupancy, h.capacity] at hroom
    exact h.producer_moves (by simp [written, hpush]) rfl (by simp [hopen])
      ⟨hpushes, show s.pushed.length < s.returned.length + 2 ^ c by omega⟩
  | spin => exact h
  | writeSlot hpush => exact h.writeSlot hpush
  | storeHead hpush => exact h.storeHead hpush
  | shutdown hpush => exact h.shutdown hpush
  | beginPop hpop =>
    have hsame : s.taken = s.returned := by
      rcases hpop with hpop | hpop <;> simp [taken, hpop]
    exact h.consumer_moves hsame rfl rfl
  | available hpop hlt =>
    simp only [hpop] at hpops
    exact h.reading (by simp [taken, hpop]) hpops hlt
  | nothing hpop | again hpop =>
    simp only [hpop] at hpops
    exact h.consumer_moves (by simp [taken, hpop]) rfl hpops
  | sawDone hpop hdone =>
    simp only [hpop] at hpops
    exact h.consumer_moves (by simp [taken, hpop]) rfl ⟨hpops, hdone⟩
  | late hpop hlt =>
    simp only [hpop] at hpops
    exact h.reading (by simp [taken, hpop]) hpops.1 hlt
  | refuse hpop hlt =>
    simp only [hpop] at hpops
    exact h.consumer_moves (by simp [taken, hpop]) rfl ⟨hpops.2, hpops.1 ▸ hlt⟩
  | readSlot hpop => exact h.readSlot hpop
  | storeTail hpop => exact h.storeTail hpop

theorem reachable_inv [Zero P] (hw : 0 < w) {minCapacity : BitVec w}
    (hmin : minCapacity.toNat ≤ 2 ^ (w - 1)) (h : Reachable step (new minCapacity) s) :
    ∃ c, Inv c s := by
  obtain ⟨c, hinit⟩ := inv_new (P := P) hw hmin
  exact ⟨c, h.invariant hinit fun _ _ _ hs he => hs.step he⟩

/-! ## A FIFO queue -/

/-- The ring behaves as a FIFO queue: the counters are in range of each other
and of the copies the two threads hold, a slot that is about to be written
holds nothing unread, a slot that is about to be read holds something unread,
and what was returned is what was pushed, in order and without gaps. -/
structure Fifo (s : LockFreeQueue w P) : Prop where
  tail_le : s.tail ≤ s.head
  head_le : s.head.toNat ≤ s.tail.toNat + s.capacity.toNat
  push_copy : ∀ head, s.push.head? = some head → head = s.head
  pop_copy : ∀ tail, s.pop.tail? = some tail → tail = s.tail
  slot_lt : ∀ x, s.slot x < s.capacity.toNat
  not_overwritten : ∀ o head, s.push = .writing o head → s.unread (s.slot head) = false
  read_written : ∀ tail, s.pop = .reading tail → s.unread (s.slot tail) = true
  returned_prefix : s.returned <+: s.pushed
  refused : s.pop = .refused → s.done = true ∧ s.returned = s.pushed

theorem Inv.fifo (h : Inv c s) (hbound : s.pushed.length < 2 ^ w) : s.Fifo := by
  have hhead : s.head.toNat = s.pushed.length := h.head_toNat hbound
  have htail : s.tail.toNat = s.returned.length :=
    h.tail_toNat (Nat.lt_of_le_of_lt h.returned_le hbound)
  have hpushes := h.push
  have hpops := h.pop
  have hprefix : s.returned <+: s.pushed := s.returned_prefix_taken.trans h.taken_prefix
  unfold PushKnows at hpushes
  unfold PopKnows at hpops
  constructor
  case tail_le => rw [BitVec.le_def, hhead, htail]; exact h.returned_le
  case head_le => rw [hhead, htail, h.capacity]; exact h.pushed_le
  case push_copy =>
    intro head he
    cases hpc : s.push <;> simp_all [RingPush.head?]
  case pop_copy =>
    intro tail he
    cases hpc : s.pop <;> simp_all [RingPop.tail?]
  case slot_lt =>
    intro x
    rw [h.slot_eq, h.capacity]
    exact Nat.mod_lt _ (Nat.two_pow_pos c)
  case not_overwritten =>
    intro o head hpush
    simp only [hpush] at hpushes
    have hwritten : s.written = s.pushed := by simp [written, hpush]
    have htaken : s.returned.length ≤ s.taken.length := s.returned_prefix_taken.length_le
    rw [hpushes.1, h.head, h.slot_ofNat, ← hwritten]
    exact h.window.free (by rw [hwritten]; omega)
  case read_written =>
    intro tail hpop
    simp only [hpop] at hpops
    have htaken : s.taken = s.returned := by simp [taken, hpop]
    rw [hpops.1, h.tail, h.slot_ofNat, ← htaken]
    exact h.window.ready (htaken ▸ Nat.lt_of_lt_of_le hpops.2 s.pushed_prefix_written.length_le)
  case returned_prefix => exact hprefix
  case refused =>
    intro hpop
    simp only [hpop, BitVec.lt_def, hhead, htail] at hpops
    exact ⟨hpops.1, hprefix.eq_of_length_le (Nat.le_of_not_lt hpops.2)⟩

/-- **The ring refines a FIFO queue.** Built with any capacity the constructor
can round up, and with fewer pushes than the counters can count, it behaves as
a FIFO queue in every state of every interleaving. -/
theorem ring_refines_fifo [Zero P] (hw : 0 < w) (minCapacity : BitVec w)
    (hmin : minCapacity.toNat ≤ 2 ^ (w - 1)) (s : LockFreeQueue w P)
    (h : Reachable step (new minCapacity) s) (hpushes : s.pushed.length < 2 ^ w) : s.Fifo := by
  obtain ⟨c, hinv⟩ := reachable_inv hw hmin h
  exact hinv.fifo hpushes

/-- In a ring of one slot the second push waits for the first pop, and the
consumer sees the flag before the second order but takes it on the recheck. -/
def oneSlot : List (RingEvent ℚ) :=
  let o (id : UInt64) : Order ℚ := Order.make id .buy .limit 100 5
  [.beginPush (o 1), .loadTail, .writeSlot, .storeHead, .beginPush (o 2), .loadTail,
    .beginPop, .loadHead, .readSlot, .loadTail, .storeTail, .loadTail, .writeSlot,
    .beginPop, .loadHead, .storeHead, .shutdown, .loadDone, .recheck, .readSlot, .storeTail,
    .beginPop, .loadHead, .loadDone, .recheck]

theorem ring_refines_fifo_one_slot :
    ∃ s : LockFreeQueue 64 ℚ, exec step (new 1#64) oneSlot = some s ∧ s.Fifo ∧
      s.pop = .refused ∧ s.returned.map Order.orderId = [1, 2] := by
  have hrun : (exec step (new 1#64 : LockFreeQueue 64 ℚ) oneSlot).any (fun s =>
      s.pop = .refused ∧ s.returned.map Order.orderId = [1, 2] ∧ s.pushed.length = 2) = true := by
    decide +kernel
  obtain ⟨s, hs, hq⟩ := exec_any hrun
  obtain ⟨hpop, hreturned, hpushed⟩ := of_decide_eq_true hq
  exact ⟨s, hs, ring_refines_fifo (by decide) 1#64 (by decide) s (Reachable.start.exec hs)
    (by rw [hpushed]; decide), hpop, hreturned⟩

end LockFreeQueue

end TradingSystem
