import TradingSystem.Lib.ListLemmas
import TradingSystem.Lib.Transition

/-!
# The order pool

`include/order_pool.hpp`: preallocated slots, and a stack of pointers to the
free ones. A pointer into `storage_` is the index of its slot.

Slots come back in any order, so the stack turns into an arbitrary
arrangement of the free slots, with stale pointers above its top. What stays
is that the free slots and the ones handed out make up the storage.
-/

namespace TradingSystem

open Transition

/-- `slots` is the size of `storage_`; no function of the pool looks into it.
The pointers in use are the first `top` of `freeList`. -/
structure OrderPool where
  slots : ℕ
  freeList : List ℕ
  top : ℕ
  top_le : top ≤ freeList.length

namespace OrderPool

/-- The constructor points `free_list_[i]` to `storage_[i]`. -/
def new (capacity : ℕ) : OrderPool where
  slots := capacity
  freeList := List.range capacity
  top := capacity
  top_le := by simp

/-- The popped pointer, `none` for `nullptr`. -/
def acquire (pool : OrderPool) : OrderPool × Option ℕ :=
  if h : pool.top = 0 then (pool, none)
  else
    have hlt : pool.top - 1 < pool.freeList.length := by
      have := pool.top_le
      omega
    ({ pool with top := pool.top - 1, top_le := Nat.le_of_lt hlt },
      some (pool.freeList.get ⟨pool.top - 1, hlt⟩))

/-- `none` where the assertion fails. -/
def release (pool : OrderPool) (o : ℕ) : Option OrderPool :=
  if h : pool.top < pool.freeList.length then
    some { pool with
      freeList := pool.freeList.set pool.top o
      top := pool.top + 1
      top_le := by rw [List.length_set]; exact h }
  else none

def available (pool : OrderPool) : ℕ := pool.top

def capacity (pool : OrderPool) : ℕ := pool.slots

/-- The free slots, the next one to be handed out last. -/
def free (pool : OrderPool) : List ℕ := pool.freeList.take pool.top

variable {pool : OrderPool}

theorem free_length (pool : OrderPool) : pool.free.length = pool.available := by
  rw [free, List.length_take]
  exact Nat.min_eq_left pool.top_le

theorem acquire_none (h : pool.top = 0) : pool.acquire = (pool, none) := dif_pos h

/-- A slot that is handed out was the last free one. -/
theorem acquire_some (h : pool.top ≠ 0) :
    ∃ o, pool.acquire.2 = some o ∧ pool.free = pool.acquire.1.free ++ [o] ∧
      pool.acquire.1.slots = pool.slots ∧ pool.acquire.1.freeList = pool.freeList := by
  have hlt : pool.top - 1 < pool.freeList.length := by
    have := pool.top_le
    omega
  refine ⟨pool.freeList.get ⟨pool.top - 1, hlt⟩, ?_, ?_, ?_, ?_⟩
  · simp [acquire, h]
  · have hsnoc := ListLemmas.take_snoc (List.getElem?_eq_getElem hlt)
    rw [Nat.sub_add_cancel (Nat.pos_of_ne_zero h)] at hsnoc
    simpa [free, acquire, h] using hsnoc
  · simp [acquire, h]
  · simp [acquire, h]

/-- Below the full stack a slot is taken back, as the next one to hand out. -/
theorem release_some (h : pool.top < pool.freeList.length) (o : ℕ) :
    ∃ pool', pool.release o = some pool' ∧ pool'.free = pool.free ++ [o] ∧
      pool'.slots = pool.slots ∧ pool'.freeList.length = pool.freeList.length := by
  refine ⟨_, dif_pos h, ?_, rfl, List.length_set⟩
  have hget : (pool.freeList.set pool.top o)[pool.top]? = some o := by
    simp [h]
  rw [free, ListLemmas.take_snoc hget, List.take_set_of_le (Nat.le_refl _)]
  rfl

end OrderPool

/-! ## The pool and its client -/

/-- The pool with the slots its client has acquired and not released. -/
structure PoolUse where
  pool : OrderPool
  outstanding : List ℕ

inductive PoolEvent where
  | acquire
  | release (o : ℕ)
  deriving DecidableEq, Repr

namespace PoolUse

def init (capacity : ℕ) : PoolUse := ⟨.new capacity, []⟩

/-- A client releases nothing but slots it has. -/
def step (s : PoolUse) : PoolEvent → Option PoolUse
  | .acquire => some ⟨s.pool.acquire.1, s.pool.acquire.2.toList ++ s.outstanding⟩
  | .release o =>
    if o ∈ s.outstanding then
      (s.pool.release o).map fun pool => ⟨pool, s.outstanding.erase o⟩
    else none

/-- Every slot is free or outstanding, and in one place only. -/
structure Inv (capacity : ℕ) (s : PoolUse) : Prop where
  slots : s.pool.slots = capacity
  size : s.pool.freeList.length = capacity
  partition : (s.pool.free ++ s.outstanding).Perm (List.range capacity)

variable {capacity : ℕ} {s t : PoolUse}

theorem inv_init (capacity : ℕ) : Inv capacity (init capacity) where
  slots := rfl
  size := List.length_range
  partition := by
    have hall : (OrderPool.new capacity).free = List.range capacity := by
      simp [OrderPool.free, OrderPool.new]
    rw [init, hall, List.append_nil]

namespace Inv

theorem count (h : Inv capacity s) : s.pool.available + s.outstanding.length = capacity := by
  have hlength := h.partition.length_eq
  rw [List.length_append, List.length_range, s.pool.free_length] at hlength
  exact hlength

/-- A slot in the client's hands leaves room on the stack. -/
theorem room (h : Inv capacity s) {o : ℕ} (ho : o ∈ s.outstanding) :
    s.pool.top < s.pool.freeList.length := by
  have hcount := h.count
  have hpos := List.length_pos_of_mem ho
  rw [h.size]
  simp only [OrderPool.available] at hcount
  omega

theorem acquire (h : Inv capacity s) (hstep : s.step .acquire = some t) : Inv capacity t := by
  obtain rfl := Option.some.inj hstep
  by_cases hzero : s.pool.top = 0
  · rw [OrderPool.acquire_none hzero]
    exact h
  · obtain ⟨o, hslot, hfree, hslots, hlist⟩ := OrderPool.acquire_some hzero
    refine ⟨hslots.trans h.slots, ?_, ?_⟩
    · rw [← h.size]
      exact congrArg List.length hlist
    · have hpart := h.partition
      rw [hfree, List.append_assoc] at hpart
      rw [hslot]
      exact hpart

theorem release (h : Inv capacity s) {o : ℕ} (hstep : s.step (.release o) = some t) :
    Inv capacity t := by
  simp only [step] at hstep
  split at hstep
  · rename_i ho
    obtain ⟨pool, hpool, hfree, hslots, hsize⟩ := OrderPool.release_some (h.room ho) o
    rw [hpool] at hstep
    obtain rfl := Option.some.inj hstep
    refine ⟨hslots.trans h.slots, hsize.trans h.size, ?_⟩
    have hpart := (List.perm_cons_erase ho).symm.append_left s.pool.free
    rw [hfree, List.append_assoc]
    exact hpart.trans h.partition
  · cases hstep

theorem step {e : PoolEvent} (h : Inv capacity s) (hstep : s.step e = some t) :
    Inv capacity t := by
  cases e with
  | acquire => exact h.acquire hstep
  | release o => exact h.release hstep

end Inv

theorem reachable_inv (h : Reachable step (init capacity) s) : Inv capacity s :=
  h.invariant (inv_init capacity) fun _ _ _ hs he => hs.step he

/-- No slot is handed out twice. -/
structure Exclusive (capacity : ℕ) (s : PoolUse) : Prop where
  distinct : s.pool.free.Nodup
  in_storage : ∀ o ∈ s.pool.free, o < capacity
  partition : (s.pool.free ++ s.outstanding).Perm (List.range capacity)
  count : s.pool.available + s.outstanding.length = s.pool.capacity
  no_assert : ∀ o ∈ s.outstanding, (s.pool.release o).isSome
  exhausted : s.pool.acquire.2 = none ↔ ∀ o < capacity, o ∈ s.outstanding
  fresh : ∀ o, s.pool.acquire.2 = some o → o < capacity ∧ o ∉ s.outstanding

theorem Inv.nodup (h : Inv capacity s) : (s.pool.free ++ s.outstanding).Nodup :=
  h.partition.nodup_iff.mpr List.nodup_range

theorem Inv.mem_iff (h : Inv capacity s) {o : ℕ} :
    o ∈ s.pool.free ∨ o ∈ s.outstanding ↔ o < capacity := by
  rw [← List.mem_append, h.partition.mem_iff, List.mem_range]

/-- `acquire` fails only when the client has every slot. -/
theorem Inv.exhausted (h : Inv capacity s) :
    s.pool.acquire.2 = none ↔ ∀ o < capacity, o ∈ s.outstanding := by
  by_cases hzero : s.pool.top = 0
  · have hnone : s.pool.free = [] := by simp [OrderPool.free, hzero]
    refine ⟨fun _ o ho => ?_, fun _ => by rw [OrderPool.acquire_none hzero]⟩
    simpa [hnone] using h.mem_iff.mpr ho
  · obtain ⟨o, hslot, hfree, -⟩ := OrderPool.acquire_some hzero
    have ho : o ∈ s.pool.free := by simp [hfree]
    constructor
    · intro hnone
      rw [hslot] at hnone
      cases hnone
    · intro hall
      have hout := hall o (h.mem_iff.mp (Or.inl ho))
      exact absurd hout (List.disjoint_of_nodup_append h.nodup ho)

/-- What `acquire` hands out was free. -/
theorem Inv.fresh (h : Inv capacity s) {o : ℕ} (ho : s.pool.acquire.2 = some o) :
    o < capacity ∧ o ∉ s.outstanding := by
  by_cases hzero : s.pool.top = 0
  · rw [OrderPool.acquire_none hzero] at ho
    cases ho
  · obtain ⟨o', hslot, hfree, -⟩ := OrderPool.acquire_some hzero
    obtain rfl := Option.some.inj (hslot.symm.trans ho)
    have hmem : o' ∈ s.pool.free := by simp [hfree]
    exact ⟨h.mem_iff.mp (Or.inl hmem), List.disjoint_of_nodup_append h.nodup hmem⟩

/-- **The pool never hands out a slot twice.** For every capacity, after any
acquires and releases in any order in which the client releases only slots it
has, the free slots are distinct and make up the storage together with the
outstanding ones, no release trips the assertion, and `acquire` returns a slot
nobody has, or none when all of them are outstanding. -/
theorem pool_exclusive (capacity : ℕ) (s : PoolUse) (h : Reachable step (init capacity) s) :
    Exclusive capacity s := by
  have hinv := reachable_inv h
  constructor
  case distinct => exact (List.nodup_append.mp hinv.nodup).1
  case in_storage => exact fun o ho => hinv.mem_iff.mp (Or.inl ho)
  case partition => exact hinv.partition
  case count => exact hinv.count.trans hinv.slots.symm
  case no_assert =>
    intro o ho
    obtain ⟨pool, hpool, -⟩ := OrderPool.release_some (hinv.room ho) o
    rw [hpool]
    rfl
  case exhausted => exact hinv.exhausted
  case fresh => exact fun o => hinv.fresh

/-- Three slots, released in the order in which they were acquired. -/
theorem pool_exclusive_reordered :
    ∃ s, exec step (init 3) [.acquire, .acquire, .acquire, .release 2, .release 1, .acquire] =
      some s ∧ s.pool.freeList = [2, 1, 2] ∧ s.outstanding = [1, 0] ∧ Exclusive 3 s := by
  have hrun : (exec step (init 3) [.acquire, .acquire, .acquire, .release 2, .release 1,
      .acquire]).any (fun s => s.pool.freeList == [2, 1, 2] && s.outstanding == [1, 0]) = true := by
    decide +kernel
  obtain ⟨s, hs, hq⟩ := exec_any hrun
  simp only [Bool.and_eq_true, beq_iff_eq] at hq
  exact ⟨s, hs, hq.1, hq.2, pool_exclusive 3 s (Reachable.start.exec hs)⟩

end PoolUse

end TradingSystem
