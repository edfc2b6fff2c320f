import Mathlib.Algebra.BigOperators.Group.List.Basic
import Mathlib.Algebra.GroupWithZero.Nat
import Mathlib.Data.List.Induction
import TradingSystem.Lib.Framing
import TradingSystem.Lib.ListLemmas

/-!
# The log as bytes, with appends that are cut short

`LogBackedOrderQueue::push` writes the bytes of an `Order` at the end of the
file and ignores the result of `fwrite`; `pop` finds record `n` at byte
`n * sizeof(Order)`. A writer that is killed, or a full disk, leaves the front
part of a record, and every later record starts that many bytes too late.
-/

namespace TradingSystem

open Framing

/-- `sizeof(Order)`. -/
def kOrderSize : ℕ := 64

/-- The bytes of an `Order` in memory. -/
structure RawOrder where
  bytes : List UInt8
  size : bytes.length = kOrderSize
  deriving DecidableEq

/-- A `push` that got the first `written` bytes of its order into the file. -/
structure RawPush where
  order : RawOrder
  written : Fin (kOrderSize + 1)

inductive TornEvent where
  | push (p : RawPush)
  | pop

/-- The file, a reader that began at offset 0, the records it has returned and,
as a ghost, the orders that were written completely. -/
structure TornLog where
  file : List UInt8
  offset : ℕ
  returned : List (List UInt8)
  completed : List RawOrder

namespace TornLog

def init : TornLog := ⟨[], 0, [], []⟩

/-- `current_file_record_count`. -/
def recordCount (s : TornLog) : ℕ := s.file.length / kOrderSize

/-- `pop` polls as long as there is no further record. -/
def step (s : TornLog) : TornEvent → TornLog
  | .push p =>
    { s with
      file := s.file ++ p.order.bytes.take p.written
      completed := if p.written = Fin.last kOrderSize then s.completed ++ [p.order]
        else s.completed }
  | .pop =>
    if s.offset < s.recordCount then
      { s with
        offset := s.offset + 1
        returned := s.returned ++ [(s.file.drop (kOrderSize * s.offset)).take kOrderSize] }
    else s

def run (evs : List TornEvent) : TornLog := evs.foldl step init

/-- The log has been read to the end. -/
def drained (s : TornLog) : Prop := s.offset = s.recordCount

instance (s : TornLog) : Decidable s.drained := inferInstanceAs (Decidable (_ = _))

/-- All completely written orders have been returned, intact and in order. -/
def Intact (s : TornLog) : Prop := (s.completed.map RawOrder.bytes).Sublist s.returned

end TornLog

/-- How many bytes each push of a history wrote. -/
def writtenBytes (evs : List TornEvent) : List (Fin (kOrderSize + 1)) :=
  evs.filterMap fun e =>
    match e with
    | .push p => some p.written
    | .pop => none

def byteCount (ws : List (Fin (kOrderSize + 1))) : ℕ := (ws.map Fin.val).sum

/-- Every complete record begins at a multiple of the record size. -/
def RecordsAligned (ws : List (Fin (kOrderSize + 1))) : Prop :=
  ∀ pre suf, ws = pre ++ Fin.last kOrderSize :: suf → kOrderSize ∣ byteCount pre

/-! ## What the reader returns -/

namespace TornLog

theorem kOrderSize_pos : 0 < kOrderSize := by decide

/-- The reader has returned the first blocks of the file. -/
structure Reads (s : TornLog) : Prop where
  bounded : s.offset ≤ s.recordCount
  blocks : s.returned = (frames kOrderSize s.file).take s.offset

theorem Reads.step {s : TornLog} (h : s.Reads) (e : TornEvent) : (s.step e).Reads := by
  cases e with
  | push p =>
    obtain ⟨hframes, -⟩ := frames_append kOrderSize_pos s.file (p.order.bytes.take p.written)
    have hlen : s.offset ≤ (frames kOrderSize s.file).length := by
      rw [length_frames]
      exact h.bounded
    constructor
    · refine Nat.le_trans h.bounded (Nat.div_le_div_right ?_)
      simp [TornLog.step]
    · simp only [TornLog.step, hframes, List.take_append_of_le_length hlen]
      exact h.blocks
  | pop =>
    simp only [TornLog.step]
    split
    · rename_i hlt
      refine ⟨hlt, ?_⟩
      simp only [ListLemmas.take_snoc (getElem?_frames hlt), h.blocks]
    · exact h

theorem run_snoc (evs : List TornEvent) (e : TornEvent) : run (evs ++ [e]) = (run evs).step e := by
  simp [run]

theorem run_reads (evs : List TornEvent) : (run evs).Reads := by
  induction evs using List.reverseRecOn with
  | nil => exact ⟨Nat.le_refl _, rfl⟩
  | append_singleton evs e ih =>
    rw [run_snoc]
    exact ih.step e

theorem Reads.drained {s : TornLog} (h : s.Reads) (hd : s.drained) :
    s.returned = frames kOrderSize s.file := by
  rw [h.blocks, hd, recordCount, ← length_frames, List.take_length]

@[simp] theorem step_pop_file (s : TornLog) : (s.step .pop).file = s.file := by
  simp only [TornLog.step]
  split <;> rfl

@[simp] theorem step_pop_completed (s : TornLog) : (s.step .pop).completed = s.completed := by
  simp only [TornLog.step]
  split <;> rfl

/-! ## Aligned records come back -/

theorem run_file_length (evs : List TornEvent) :
    (run evs).file.length = byteCount (writtenBytes evs) := by
  induction evs using List.reverseRecOn with
  | nil => rfl
  | append_singleton evs e ih =>
    rw [run_snoc]
    cases e with
    | push p =>
      have hle : p.written.val ≤ p.order.bytes.length := by
        rw [p.order.size]
        exact Nat.le_of_lt_succ p.written.isLt
      simp [TornLog.step, ih, writtenBytes, byteCount, Nat.min_eq_left hle]
    | pop =>
      rw [step_pop_file, ih]
      simp [writtenBytes]

theorem run_completed (evs : List TornEvent) (h : RecordsAligned (writtenBytes evs)) :
    ((run evs).completed.map RawOrder.bytes).Sublist (frames kOrderSize (run evs).file) := by
  induction evs using List.reverseRecOn with
  | nil => exact List.Sublist.refl _
  | append_singleton evs e ih =>
    rw [run_snoc]
    cases e with
    | push p =>
      have hws : writtenBytes (evs ++ [.push p]) = writtenBytes evs ++ [p.written] := by
        simp [writtenBytes]
      have hbefore := ih fun pre suf heq => h pre (suf ++ [p.written]) (by simp [hws, heq])
      by_cases hfull : p.written = Fin.last kOrderSize
      · -- the file ends at a multiple of the record size
        have haligned : kOrderSize ∣ (run evs).file.length := by
          rw [run_file_length]
          exact h (writtenBytes evs) [] (by rw [hws, hfull])
        have hbytes : p.order.bytes.take p.written = p.order.bytes := by
          rw [hfull]
          exact List.take_of_length_le (Nat.le_of_eq p.order.size)
        simp only [TornLog.step, if_pos hfull, hbytes, List.map_append, List.map_singleton]
        rw [frames_append_block kOrderSize_pos haligned p.order.size]
        exact hbefore.append (List.Sublist.refl _)
      · simp only [TornLog.step, if_neg hfull]
        rw [(frames_append kOrderSize_pos _ _).1]
        exact hbefore.trans (List.sublist_append_left _ _)
    | pop =>
      have hws : writtenBytes (evs ++ [.pop]) = writtenBytes evs := by
        simp [writtenBytes]
      rw [step_pop_file, step_pop_completed]
      exact ih (hws ▸ h)

/-! ## A record that is not aligned does not come back -/

/-- An order of zero bytes only. -/
def blank : RawOrder := ⟨List.replicate kOrderSize 0, List.length_replicate⟩

/-- An order whose first byte only is not zero. -/
def marked : RawOrder := ⟨1 :: List.replicate (kOrderSize - 1) 0, by decide⟩

def blanks (ws : List (Fin (kOrderSize + 1))) : List TornEvent :=
  ws.map fun w => .push ⟨blank, w⟩

theorem blanks_file (s : TornLog) (ws : List (Fin (kOrderSize + 1))) :
    ((blanks ws).foldl step s).file = s.file ++ List.replicate (byteCount ws) 0 := by
  induction ws generalizing s with
  | nil => simp [blanks, byteCount]
  | cons w ws ih =>
    have hle : w.val ≤ kOrderSize := Nat.le_of_lt_succ w.isLt
    have hcons : (blanks (w :: ws)).foldl step s =
        (blanks ws).foldl step (s.step (.push ⟨blank, w⟩)) := rfl
    rw [hcons, ih]
    simp [TornLog.step, blank, byteCount, List.take_replicate, Nat.min_eq_left hle]

theorem step_completed (s : TornLog) (e : TornEvent) : s.completed.Sublist (s.step e).completed := by
  cases e with
  | push p =>
    simp only [TornLog.step]
    split
    · exact List.sublist_append_left _ _
    · exact List.Sublist.refl _
  | pop =>
    rw [step_pop_completed]

theorem foldl_completed (s : TornLog) (evs : List TornEvent) :
    s.completed.Sublist (evs.foldl step s).completed := by
  induction evs generalizing s with
  | nil => exact List.Sublist.refl _
  | cons e evs ih => exact (step_completed s e).trans (ih (s.step e))

/-- Enough calls of `pop` read the log to the end. -/
theorem pops_drain {s : TornLog} (h : s.offset ≤ s.recordCount) {n : ℕ}
    (hn : s.recordCount ≤ s.offset + n) :
    let t := (List.replicate n TornEvent.pop).foldl step s
    t.drained ∧ t.file = s.file := by
  induction n generalizing s with
  | zero => exact ⟨Nat.le_antisymm h hn, rfl⟩
  | succ n ih =>
    have hcount : (s.step .pop).recordCount = s.recordCount := by
      rw [recordCount, step_pop_file, recordCount]
    have hoffset : (s.step .pop).offset =
        if s.offset < s.recordCount then s.offset + 1 else s.offset := by
      simp only [TornLog.step]
      split <;> rfl
    have hrest := @ih (s.step .pop) (by rw [hcount, hoffset]; split <;> omega)
      (by rw [hcount, hoffset]; split <;> omega)
    rw [step_pop_file] at hrest
    exact hrest

/-- The only non-zero byte is where the marked order begins. -/
theorem marked_position {p q j : ℕ}
    (h : (List.replicate p (0 : UInt8) ++ 1 :: List.replicate q 0)[j]? = some 1) : j = p := by
  rcases Nat.lt_trichotomy j p with hlt | heq | hgt
  · rw [List.getElem?_append_left (by simpa using hlt)] at h
    simp [hlt] at h
  · exact heq
  · rw [List.getElem?_append_right (by simpa using Nat.le_of_lt hgt), List.length_replicate,
      List.getElem?_cons] at h
    have hne : j - p ≠ 0 := by omega
    simp [hne, List.getElem?_replicate] at h

theorem first_byte_of_mem_frames {file block : List UInt8} {b : UInt8}
    (h : block ∈ frames kOrderSize file) (hb : block[0]? = some b) :
    ∃ i, file[kOrderSize * i]? = some b := by
  obtain ⟨i, -, rfl⟩ := List.mem_map.mp h
  refine ⟨i, ?_⟩
  rw [List.getElem?_take_of_lt kOrderSize_pos, List.getElem?_drop] at hb
  exact hb

/-- Blank pushes around one complete push of the marked order. -/
def markedHistory (pre suf : List (Fin (kOrderSize + 1))) : List TornEvent :=
  blanks pre ++ .push ⟨marked, Fin.last kOrderSize⟩ :: blanks suf

theorem markedHistory_written (pre suf : List (Fin (kOrderSize + 1))) :
    writtenBytes (markedHistory pre suf) = pre ++ Fin.last kOrderSize :: suf := by
  have hblanks : ∀ ws, writtenBytes (blanks ws) = ws := by
    intro ws
    induction ws with
    | nil => rfl
    | cons w ws ih => exact congrArg (w :: ·) ih
  rw [markedHistory, writtenBytes, List.filterMap_append, List.filterMap_cons]
  exact congrArg₂ _ (hblanks pre) (congrArg _ (hblanks suf))

theorem markedHistory_file (pre suf : List (Fin (kOrderSize + 1))) :
    (run (markedHistory pre suf)).file =
      List.replicate (byteCount pre) 0 ++ 1 :: List.replicate (kOrderSize - 1 + byteCount suf) 0 := by
  rw [run, markedHistory, List.foldl_append, List.foldl_cons, blanks_file]
  have hbytes : marked.bytes.take (Fin.last kOrderSize).val = marked.bytes :=
    List.take_of_length_le (Nat.le_of_eq marked.size)
  simp only [TornLog.step, hbytes, blanks_file]
  simp [init, marked]

theorem markedHistory_completed (pre suf : List (Fin (kOrderSize + 1))) :
    marked ∈ (run (markedHistory pre suf)).completed := by
  rw [run, markedHistory, List.foldl_append, List.foldl_cons]
  refine (foldl_completed _ (blanks suf)).subset ?_
  simp [TornLog.step]

end TornLog

open TornLog in
/-- **When torn appends do no harm.** Whatever the orders and however pushes
and pops interleave, the completely written orders come back intact and in
order once the log is read to the end, exactly if the pushes before each
complete one have written a multiple of the record size. -/
theorem torn_append_iff (ws : List (Fin (kOrderSize + 1))) :
    (∀ evs, writtenBytes evs = ws → (run evs).drained → (run evs).Intact) ↔
      RecordsAligned ws := by
  constructor
  · intro hall pre suf hws
    -- push the marked order and blank ones, then read the log to the end
    let pushed := run (markedHistory pre suf)
    let pops := List.replicate pushed.recordCount TornEvent.pop
    have hrun : run (markedHistory pre suf ++ pops) = pops.foldl step pushed := List.foldl_append
    have hwritten : writtenBytes (markedHistory pre suf ++ pops) = ws := by
      rw [hws, ← markedHistory_written pre suf, writtenBytes, List.filterMap_append]
      simp [pops, writtenBytes]
    obtain ⟨hdrained, hfile⟩ := pops_drain (run_reads (markedHistory pre suf)).bounded
      (Nat.le_add_left pushed.recordCount pushed.offset)
    have hintact := hall _ hwritten (hrun ▸ hdrained)
    rw [Intact, (run_reads _).drained (hrun ▸ hdrained), hrun, hfile] at hintact
    have hmem : marked.bytes ∈ frames kOrderSize pushed.file :=
      hintact.subset (List.mem_map_of_mem
        ((foldl_completed pushed pops).subset (markedHistory_completed pre suf)))
    obtain ⟨i, hi⟩ := first_byte_of_mem_frames hmem rfl
    rw [markedHistory_file] at hi
    exact ⟨i, (marked_position hi).symm⟩
  · intro haligned evs hws hdrained
    rw [Intact, (run_reads evs).drained hdrained]
    exact run_completed evs (hws ▸ haligned)

/-- One byte of an order is left by a killed writer, then an order is pushed completely. -/
def pushBehindTornByte : List TornEvent :=
  [.push ⟨TornLog.blank, 1⟩, .push ⟨TornLog.marked, Fin.last kOrderSize⟩, .pop]

/-- The log has been read to the end, and the order is not among what was returned. -/
theorem torn_append_loses_order :
    (TornLog.run pushBehindTornByte).drained ∧ ¬ (TornLog.run pushBehindTornByte).Intact := by
  unfold TornLog.Intact
  decide +kernel

end TradingSystem
