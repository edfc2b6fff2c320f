import Mathlib.Algebra.Order.Ring.Rat
import TradingSystem.Lib.ListLemmas
import TradingSystem.Lib.Transition
import TradingSystem.Order

/-!
# Readers of an append-only log

`include/log_backed_order_queue.hpp` and `TradeLog::Subscriber` of
`include/trade_log.hpp` are two copies of one mechanism: writers append
records to a shared file, and every reader keeps its position in memory and
in a checkpoint file of its own. A call is modelled as its separate file
steps, so that appends, other readers and a kill can fall between any two of
them. An append is atomic here. A file has fewer than 2^63 bytes, so that no
count or position overflows; they are natural numbers.
-/

namespace TradingSystem

open Transition

/-- Which of the two readers: `LogBackedOrderQueue::pop`, which waits for a
record or for `shutdown`, or `Subscriber::try_next`, which does not wait. -/
inductive LogApi where
  | orderQueue
  | tradeLog
  deriving DecidableEq, Repr

/-- `checkpoint_path_`, from the base path and the consumer or subscriber id. -/
def LogApi.checkpointPath : LogApi → String → String → String
  | .orderQueue, basePath, consumerId =>
    basePath ++ (if consumerId.isEmpty then "" else "." ++ consumerId) ++ ".offset"
  | .tradeLog, basePath, subscriberId => basePath ++ "_trades." ++ subscriberId ++ ".offset"

/-- A checkpoint file: opening it with `"wb"` leaves it without bytes until the
offset is written. -/
inductive CheckpointFile where
  | absent
  | truncated
  | holds (offset : ℕ)
  deriving DecidableEq, Repr

/-- `read_checkpoint`: a missing or short file counts as offset 0. -/
def CheckpointFile.readCheckpoint : CheckpointFile → ℕ
  | .absent => 0
  | .truncated => 0
  | .holds offset => offset

/-- Where a reader is. -/
inductive ReadPc (α : Type) where
  /-- no call yet -/
  | fresh
  /-- the last call has returned: `true` and the record, or `false` -/
  | returned (result : Option α)
  /-- before the file size is read -/
  | polling
  /-- `pop` found nothing new; `done_` is loaded next -/
  | checking
  /-- there is a record to be read -/
  | found
  /-- the record is in `out` and the offset in memory is incremented -/
  | fetched (x : α)
  /-- the checkpoint file has been opened and is empty -/
  | truncated (x : α)
  /-- the new offset is in the checkpoint file -/
  | written (x : α)
  /-- `pop` has thrown on a short read -/
  | threw
  deriving DecidableEq, Repr

namespace ReadPc

variable {α : Type}

/-- Between two calls. -/
def outside : ReadPc α → Bool
  | .fresh | .returned _ => true
  | _ => false

/-- The record a call has read and not returned yet. -/
def inHand : ReadPc α → Option α
  | .fetched x | .truncated x | .written x => some x
  | _ => none

/-- The record in hand while the checkpoint file is behind or ahead of what
has been returned. -/
def updating : ReadPc α → Option α
  | .truncated x | .written x => some x
  | _ => none

end ReadPc

/-- A reader object: `consumer_offset_`, `done_` and the point of execution. -/
structure Reader (α : Type) where
  offset : ℕ
  done : Bool
  pc : ReadPc α
  deriving DecidableEq, Repr

/-- How many records were behind the reader when its call began. -/
def Reader.entry {α : Type} (r : Reader α) : ℕ :=
  match r.pc with
  | .fetched _ | .truncated _ | .written _ => r.offset - 1
  | _ => r.offset

/-- The log, the checkpoint files by path and the live readers by id. Two
ghosts: `promised` is how many records were in the log when `shutdown` was
last called on the reader, `returned` the records all incarnations of an id
have returned, with their positions. -/
structure LogState (α : Type) where
  log : List α
  files : String → CheckpointFile
  readers : String → Option (Reader α)
  promised : String → ℕ
  returned : String → List (ℕ × α)

inductive LogEvent (α : Type) where
  | append (x : α)
  | attach (id : String)
  /-- the object is destroyed between two calls -/
  | detach (id : String)
  /-- the next step of the reader; between calls, the begin of one -/
  | advance (id : String)
  | shutdown (id : String)
  | kill (id : String)

/-- The reader an event is about. -/
def LogEvent.reader {α : Type} : LogEvent α → Option String
  | .append _ => none
  | .attach id | .detach id | .advance id | .shutdown id | .kill id => some id

namespace LogState

variable {α : Type}

def init : LogState α := ⟨[], fun _ => .absent, fun _ => none, fun _ => 0, fun _ => []⟩

/-- The records an id has received over all its incarnations. -/
def received (s : LogState α) (id : String) : List α := (s.returned id).map Prod.snd

def put (s : LogState α) (id : String) (r : Reader α) : LogState α :=
  { s with readers := Function.update s.readers id (some r) }

@[simp] theorem put_readers (s : LogState α) (id : String) (r : Reader α) :
    (s.put id r).readers id = some r :=
  Function.update_self _ _ _

def drop (s : LogState α) (id : String) : LogState α :=
  { s with readers := Function.update s.readers id none }

/-- The offset a reader with this id would begin at. -/
def checkpoint (s : LogState α) (api : LogApi) (base id : String) : ℕ :=
  (s.files (api.checkpointPath base id)).readCheckpoint

def setFile (s : LogState α) (api : LogApi) (base id : String) (f : CheckpointFile) :
    LogState α :=
  { s with files := Function.update s.files (api.checkpointPath base id) f }

/-- How many records are behind an id: those before its call in progress, or
those before its checkpoint. -/
def consumed (s : LogState α) (api : LogApi) (base id : String) : ℕ :=
  match s.readers id with
  | some r => r.entry
  | none => s.checkpoint api base id

/-- One step of `pop` or `try_next`. -/
def advance (api : LogApi) (base : String) (s : LogState α) (id : String) (r : Reader α) :
    Option (LogState α) :=
  match r.pc with
  | .fresh | .returned _ => some (s.put id { r with pc := .polling })
  | .polling =>
    if r.offset < s.log.length then some (s.put id { r with pc := .found })
    else
      match api with
      | .orderQueue => some (s.put id { r with pc := .checking })
      | .tradeLog => some (s.put id { r with pc := .returned none })
  | .checking =>
    if r.done then some (s.put id { r with pc := .returned none })
    else some (s.put id { r with pc := .polling })
  | .found =>
    match s.log[r.offset]? with
    | some x => some (s.put id { r with offset := r.offset + 1, pc := .fetched x })
    | none =>
      match api with
      | .orderQueue => some (s.put id { r with pc := .threw })
      | .tradeLog => some (s.put id { r with pc := .returned none })
  | .fetched x => some ((s.put id { r with pc := .truncated x }).setFile api base id .truncated)
  | .truncated x =>
    some ((s.put id { r with pc := .written x }).setFile api base id (.holds r.offset))
  | .written x => some
      { s.put id { r with pc := .returned (some x) } with
        returned := Function.update s.returned id (s.returned id ++ [(r.offset - 1, x)]) }
  | .threw => none

def step (api : LogApi) (base : String) (s : LogState α) : LogEvent α → Option (LogState α)
  | .append x => some { s with log := s.log ++ [x] }
  | .attach id =>
    match s.readers id with
    | none => some
        { s.put id ⟨s.checkpoint api base id, false, .fresh⟩ with
          promised := Function.update s.promised id 0 }
    | some _ => none
  | .detach id =>
    match s.readers id with
    | some r => if r.pc.outside then some (s.drop id) else none
    | none => none
  | .advance id =>
    match s.readers id with
    | some r => s.advance api base id r
    | none => none
  | .shutdown id =>
    match s.readers id, api with
    | some r, .orderQueue => some
        { s.put id { r with done := true } with
          promised := Function.update s.promised id s.log.length }
    | _, _ => none
  | .kill id =>
    match s.readers id with
    | some _ => some (s.drop id)
    | none => none

/-- Nobody is killed. -/
def noKill (_ : LogState α) : LogEvent α → Bool
  | .kill _ => false
  | _ => true

end LogState

/-! ## Every id has a checkpoint file of its own -/

theorem LogApi.checkpointPath_injective (api : LogApi) (base : String) :
    Function.Injective (api.checkpointPath base) := by
  intro id id' h
  have hlist := congrArg String.toList h
  apply String.toList_inj.mp
  cases api with
  | tradeLog =>
    simpa only [LogApi.checkpointPath, String.toList_append, List.append_assoc,
      List.append_cancel_left_eq, List.append_cancel_right_eq] using hlist
  | orderQueue =>
    simp only [LogApi.checkpointPath, String.toList_append, List.append_cancel_left_eq,
      List.append_cancel_right_eq, apply_ite String.toList, String.isEmpty_iff] at hlist
    -- an empty id has no dot of its own
    by_cases hid : id = ""
    · by_cases hid' : id' = ""
      · rw [hid, hid']
      · simp [hid, hid'] at hlist
    · by_cases hid' : id' = ""
      · simp [hid, hid'] at hlist
      · simpa [hid, hid'] using hlist

/-! ## What a step of a reader can do -/

variable {α : Type}

inductive ReadStep (api : LogApi) (base : String) (s : LogState α) (id : String) (r : Reader α) :
    LogState α → Prop where
  | call (hout : r.pc.outside = true) : ReadStep api base s id r (s.put id { r with pc := .polling })
  | available (hpc : r.pc = .polling) (hlt : r.offset < s.log.length) :
      ReadStep api base s id r (s.put id { r with pc := .found })
  | nothing (hapi : api = .orderQueue) (hpc : r.pc = .polling) (hge : s.log.length ≤ r.offset) :
      ReadStep api base s id r (s.put id { r with pc := .checking })
  | refused (hapi : api = .tradeLog) (hpc : r.pc = .polling) (hge : s.log.length ≤ r.offset) :
      ReadStep api base s id r (s.put id { r with pc := .returned none })
  | drained (hpc : r.pc = .checking) (hdone : r.done = true) :
      ReadStep api base s id r (s.put id { r with pc := .returned none })
  | again (hpc : r.pc = .checking) (hdone : r.done = false) :
      ReadStep api base s id r (s.put id { r with pc := .polling })
  | fetch {x : α} (hpc : r.pc = .found) (hrec : s.log[r.offset]? = some x) :
      ReadStep api base s id r (s.put id { r with offset := r.offset + 1, pc := .fetched x })
  | short {t : LogState α} (hpc : r.pc = .found) (hnone : s.log[r.offset]? = none) :
      ReadStep api base s id r t
  | truncate {x : α} (hpc : r.pc = .fetched x) :
      ReadStep api base s id r
        ((s.put id { r with pc := .truncated x }).setFile api base id .truncated)
  | write {x : α} (hpc : r.pc = .truncated x) :
      ReadStep api base s id r
        ((s.put id { r with pc := .written x }).setFile api base id (.holds r.offset))
  | ret {x : α} (hpc : r.pc = .written x) :
      ReadStep api base s id r
        { s.put id { r with pc := .returned (some x) } with
          returned := Function.update s.returned id (s.returned id ++ [(r.offset - 1, x)]) }

variable {api : LogApi} {base id : String} {s t : LogState α} {r r' : Reader α}

theorem advance_readStep (h : s.advance api base id r = some t) : ReadStep api base s id r t := by
  unfold LogState.advance at h
  cases hpc : r.pc with
  | fresh | returned res =>
    simp only [hpc, Option.some.injEq] at h
    exact h ▸ .call (by simp [hpc, ReadPc.outside])
  | polling =>
    simp only [hpc] at h
    split at h
    · rename_i hlt
      exact Option.some.inj h ▸ .available hpc hlt
    · rename_i hge
      cases api with
      | orderQueue => exact Option.some.inj h ▸ .nothing rfl hpc (Nat.not_lt.mp hge)
      | tradeLog => exact Option.some.inj h ▸ .refused rfl hpc (Nat.not_lt.mp hge)
  | checking =>
    simp only [hpc] at h
    split at h
    · rename_i hdone
      exact Option.some.inj h ▸ .drained hpc hdone
    · rename_i hdone
      exact Option.some.inj h ▸ .again hpc (Bool.eq_false_iff.mpr hdone)
  | found =>
    simp only [hpc] at h
    split at h
    · rename_i x hrec
      exact Option.some.inj h ▸ .fetch hpc hrec
    · rename_i hnone
      exact .short hpc hnone
  | fetched x =>
    simp only [hpc, Option.some.injEq] at h
    exact h ▸ .truncate hpc
  | truncated x =>
    simp only [hpc, Option.some.injEq] at h
    exact h ▸ .write hpc
  | written x =>
    simp only [hpc, Option.some.injEq] at h
    exact h ▸ .ret hpc
  | threw =>
    simp only [hpc] at h
    cases h

/-! ## Memory, checkpoint file and log fit together -/

/-- What `read_checkpoint` would find while the reader is at this point. -/
def Reader.durable (r : Reader α) : ℕ :=
  match r.pc with
  | .fetched _ => r.offset - 1
  | .truncated _ => 0
  | _ => r.offset

structure Reader.Sound (api : LogApi) (log : List α) (file : CheckpointFile) (r : Reader α) :
    Prop where
  bounded : r.offset ≤ log.length
  available : r.pc = .found → r.offset < log.length
  inHand : ∀ x, r.pc.inHand = some x → 0 < r.offset ∧ log[r.offset - 1]? = some x
  durable : file.readCheckpoint = r.durable
  running : r.pc ≠ .threw
  /-- `try_next` never waits. -/
  waits : r.pc = .checking → api = .orderQueue

theorem Reader.Sound.append {file : CheckpointFile} {log : List α} (h : r.Sound api log file)
    (x : α) : r.Sound api (log ++ [x]) file := by
  have hlen := h.bounded
  refine ⟨?_, ?_, ?_, h.durable, h.running, h.waits⟩
  · simp only [List.length_append, List.length_singleton]
    omega
  · intro hpc
    have := h.available hpc
    simp only [List.length_append, List.length_singleton]
    omega
  · intro y hy
    obtain ⟨hpos, hrec⟩ := h.inHand y hy
    exact ⟨hpos, by rw [List.getElem?_append_left (by omega)]; exact hrec⟩

/-- A step of the reader as the rest of the system sees it. It returns at most
one record, the one at its position. -/
structure Stepped (api : LogApi) (base : String) (s : LogState α) (id : String) (r : Reader α)
    (t : LogState α) (r' : Reader α) : Prop where
  readers : t.readers = Function.update s.readers id (some r')
  log : t.log = s.log
  others : ∀ id' ≠ id, t.files (api.checkpointPath base id') = s.files (api.checkpointPath base id')
  sound : r'.Sound api s.log (t.files (api.checkpointPath base id))
  done : r'.done = r.done
  promised : t.promised = s.promised
  returned : t.returned = s.returned ∧ r'.entry = r.entry ∧ (∀ x, r'.pc ≠ .returned (some x)) ∨
    ∃ x, s.log[r.entry]? = some x ∧ r'.pc = .returned (some x) ∧ r'.entry = r.entry + 1 ∧
      t.returned = Function.update s.returned id (s.returned id ++ [(r.entry, x)])

theorem ReadPc.inHand_of_outside {pc : ReadPc α} (h : pc.outside = true) : pc.inHand = none := by
  cases pc with
  | fresh | returned res => rfl
  | polling | checking | found | fetched x | truncated x | written x | threw => cases h

/-- With no record in hand, memory and file agree. -/
theorem Reader.entry_durable (h : r.pc.inHand = none) :
    r.entry = r.offset ∧ r.durable = r.offset := by
  unfold Reader.entry Reader.durable
  cases hpc : r.pc with
  | fetched x | truncated x | written x => simp [hpc, ReadPc.inHand] at h
  | fresh | returned res | polling | checking | found | threw => exact ⟨rfl, rfl⟩

theorem Reader.entry_inHand {x : α} (h : r.pc.inHand = some x) : r.entry = r.offset - 1 := by
  unfold Reader.entry
  cases hpc : r.pc with
  | fetched x | truncated x | written x => rfl
  | fresh | returned res | polling | checking | found | threw => simp [hpc, ReadPc.inHand] at h

/-- A step that touches no file and has no record in hand before or after. -/
theorem Stepped.quiet (h : r.Sound api s.log (s.files (api.checkpointPath base id)))
    (hpc : r.pc.inHand = none) {pc : ReadPc α} (hpc' : pc.inHand = none)
    (hfound : pc = .found → r.offset < s.log.length) (hthrew : pc ≠ .threw)
    (hwaits : pc = .checking → api = .orderQueue) (hret : ∀ x, pc ≠ .returned (some x)) :
    Stepped api base s id r (s.put id { r with pc := pc }) { r with pc := pc } := by
  obtain ⟨hentry, hdurable⟩ := Reader.entry_durable hpc
  have hafter : ({ r with pc := pc } : Reader α).entry = r.offset ∧
      ({ r with pc := pc } : Reader α).durable = r.offset := Reader.entry_durable hpc'
  refine ⟨rfl, rfl, fun _ _ => rfl, ⟨h.bounded, hfound, ?_, ?_, hthrew, hwaits⟩, rfl, rfl,
    Or.inl ⟨rfl, hafter.1.trans hentry.symm, hret⟩⟩
  · intro x hx
    rw [hpc'] at hx
    cases hx
  · exact (h.durable.trans hdurable).trans hafter.2.symm

theorem ReadStep.stepped (hstep : ReadStep api base s id r t)
    (h : r.Sound api s.log (s.files (api.checkpointPath base id))) :
    ∃ r', Stepped api base s id r t r' := by
  have hpath : ∀ id' ≠ id, api.checkpointPath base id' ≠ api.checkpointPath base id :=
    fun id' hne heq => hne (api.checkpointPath_injective base heq)
  cases hstep with
  | call hout =>
    exact ⟨_, Stepped.quiet h (ReadPc.inHand_of_outside hout) rfl (by simp) (by simp) (by simp)
      (by simp)⟩
  | available hpc hlt =>
    exact ⟨_, Stepped.quiet h (by rw [hpc]; rfl) rfl (fun _ => hlt) (by simp) (by simp) (by simp)⟩
  | nothing hapi hpc =>
    exact ⟨_, Stepped.quiet h (by rw [hpc]; rfl) rfl (by simp) (by simp) (fun _ => hapi) (by simp)⟩
  | refused _ hpc | drained hpc | again hpc =>
    exact ⟨_, Stepped.quiet h (by rw [hpc]; rfl) rfl (by simp) (by simp) (by simp) (by simp)⟩
  | fetch hpc hrec =>
    obtain ⟨hentry, hdurable⟩ := Reader.entry_durable (show r.pc.inHand = none by rw [hpc]; rfl)
    refine ⟨_, rfl, rfl, fun _ _ => rfl, ⟨h.available hpc, by simp, ?_, ?_, by simp, by simp⟩, rfl, rfl,
      Or.inl ⟨rfl, ?_, by simp⟩⟩
    · intro y hy
      obtain rfl := Option.some.inj hy
      exact ⟨Nat.succ_pos _, hrec⟩
    · exact h.durable.trans hdurable
    · exact hentry.symm
  | short hpc hnone =>
    exact absurd (h.available hpc) (Nat.not_lt.mpr (List.getElem?_eq_none_iff.mp hnone))
  | @truncate x hpc =>
    have hhand : r.pc.inHand = some x := by rw [hpc]; rfl
    refine ⟨_, rfl, rfl, fun id' hne => Function.update_of_ne (hpath id' hne) _ _,
      ⟨h.bounded, by simp, ?_, ?_, by simp, by simp⟩, rfl, rfl, Or.inl ⟨rfl, ?_, by simp⟩⟩
    · intro y hy
      exact h.inHand y (hhand.trans hy)
    · simp [LogState.setFile, CheckpointFile.readCheckpoint, Reader.durable]
    · exact (Reader.entry_inHand hhand).symm
  | @write x hpc =>
    have hhand : r.pc.inHand = some x := by rw [hpc]; rfl
    refine ⟨_, rfl, rfl, fun id' hne => Function.update_of_ne (hpath id' hne) _ _,
      ⟨h.bounded, by simp, ?_, ?_, by simp, by simp⟩, rfl, rfl, Or.inl ⟨rfl, ?_, by simp⟩⟩
    · intro y hy
      exact h.inHand y (hhand.trans hy)
    · simp [LogState.setFile, CheckpointFile.readCheckpoint, Reader.durable]
    · exact (Reader.entry_inHand hhand).symm
  | @ret x hpc =>
    have hhand : r.pc.inHand = some x := by rw [hpc]; rfl
    have hentry := Reader.entry_inHand hhand
    obtain ⟨hpos, hrec⟩ := h.inHand x hhand
    have hdurable := h.durable
    simp only [Reader.durable, hpc] at hdurable
    refine ⟨_, rfl, rfl, fun _ _ => rfl, ⟨h.bounded, by simp, by simp [ReadPc.inHand], hdurable,
      by simp, by simp⟩, rfl, rfl, Or.inr ⟨x, ?_, rfl, ?_, ?_⟩⟩
    · rw [hentry, hrec]
    · rw [hentry]
      exact (Nat.succ_pred_eq_of_pos hpos).symm
    · rw [hentry]

/-! ## Whole runs, kills included -/

/-- Every live reader fits to its checkpoint file and the log. -/
structure Aligned (api : LogApi) (base : String) (s : LogState α) : Prop where
  readers : ∀ id r, s.readers id = some r →
    r.Sound api s.log (s.files (api.checkpointPath base id))
  files : ∀ id, s.checkpoint api base id ≤ s.log.length

theorem Reader.Sound.durable_le {log : List α} {file : CheckpointFile} (h : r.Sound api log file) :
    file.readCheckpoint ≤ log.length := by
  have hle : r.durable ≤ r.offset := by
    unfold Reader.durable
    split <;> omega
  rw [h.durable]
  exact Nat.le_trans hle h.bounded

theorem sound_fresh {log : List α} {file : CheckpointFile} (h : file.readCheckpoint ≤ log.length) :
    Reader.Sound api log file ⟨file.readCheckpoint, false, .fresh⟩ :=
  ⟨h, by simp, by simp [ReadPc.inHand], rfl, by simp, by simp⟩

namespace Aligned

theorem init : Aligned api base (LogState.init : LogState α) :=
  ⟨by simp [LogState.init], fun _ => Nat.le_refl _⟩

theorem append (h : Aligned api base s) (x : α) :
    Aligned api base { s with log := s.log ++ [x] } := by
  refine ⟨fun id r hr => (h.readers id r hr).append x, fun id => ?_⟩
  have := h.files id
  simp only [LogState.checkpoint, List.length_append] at this ⊢
  omega

/-- One reader changes, and with it at most its own checkpoint file. -/
theorem set (h : Aligned api base s) (hreaders : t.readers = Function.update s.readers id (some r'))
    (hlog : t.log = s.log) (hothers : ∀ id' ≠ id,
      t.files (api.checkpointPath base id') = s.files (api.checkpointPath base id'))
    (hsound : r'.Sound api s.log (t.files (api.checkpointPath base id))) : Aligned api base t := by
  constructor
  · intro id' q hq
    by_cases hne : id' = id
    · subst hne
      rw [hreaders, Function.update_self] at hq
      obtain rfl := Option.some.inj hq
      rw [hlog]
      exact hsound
    · rw [hreaders, Function.update_of_ne hne] at hq
      rw [hlog, hothers id' hne]
      exact h.readers id' q hq
  · intro id'
    rw [hlog]
    by_cases hne : id' = id
    · subst hne
      exact hsound.durable_le
    · simp only [LogState.checkpoint, hothers id' hne]
      exact h.files id'

theorem stepped (h : Aligned api base s) (hm : Stepped api base s id r t r') :
    Aligned api base t :=
  h.set hm.readers hm.log hm.others hm.sound

theorem drop (h : Aligned api base s) (id : String) : Aligned api base (s.drop id) := by
  refine ⟨fun id' q hq => ?_, h.files⟩
  by_cases hne : id' = id
  · subst hne
    simp [LogState.drop] at hq
  · exact h.readers id' q ((Function.update_of_ne hne _ _).symm.trans hq)

end Aligned

/-- What one event does to an aligned system. -/
inductive Happens (api : LogApi) (base : String) (s : LogState α) :
    LogEvent α → LogState α → Prop where
  | append (x : α) : Happens api base s (.append x) { s with log := s.log ++ [x] }
  | attach {id : String} (hnone : s.readers id = none) :
      Happens api base s (.attach id)
        { s.put id ⟨s.checkpoint api base id, false, .fresh⟩ with
          promised := Function.update s.promised id 0 }
  | detach {id : String} {r : Reader α} (hr : s.readers id = some r) (hout : r.pc.outside = true) :
      Happens api base s (.detach id) (s.drop id)
  | advance {id : String} {r r' : Reader α} {t : LogState α} (hr : s.readers id = some r)
      (hstep : ReadStep api base s id r t) (hm : Stepped api base s id r t r') :
      Happens api base s (.advance id) t
  | shutdown {id : String} {r : Reader α} (hapi : api = .orderQueue) (hr : s.readers id = some r) :
      Happens api base s (.shutdown id)
        { s.put id { r with done := true } with
          promised := Function.update s.promised id s.log.length }
  | kill {id : String} {r : Reader α} (hr : s.readers id = some r) :
      Happens api base s (.kill id) (s.drop id)

theorem Aligned.happens {e : LogEvent α} (h : Aligned api base s)
    (hstep : s.step api base e = some t) : Happens api base s e t := by
  cases e with
  | append x => exact Option.some.inj hstep ▸ .append x
  | attach id =>
    simp only [LogState.step] at hstep
    split at hstep
    · rename_i hnone
      exact Option.some.inj hstep ▸ .attach hnone
    · cases hstep
  | detach id =>
    simp only [LogState.step] at hstep
    split at hstep
    · rename_i r hr
      split at hstep
      · rename_i hout
        exact Option.some.inj hstep ▸ .detach hr hout
      · cases hstep
    · cases hstep
  | advance id =>
    simp only [LogState.step] at hstep
    split at hstep
    · rename_i r hr
      have hread := advance_readStep hstep
      obtain ⟨r', hm⟩ := hread.stepped (h.readers id r hr)
      exact .advance hr hread hm
    · cases hstep
  | shutdown id =>
    simp only [LogState.step] at hstep
    split at hstep
    · rename_i r hr
      exact Option.some.inj hstep ▸ .shutdown rfl hr
    · cases hstep
  | kill id =>
    simp only [LogState.step] at hstep
    split at hstep
    · rename_i r hr
      exact Option.some.inj hstep ▸ .kill hr
    · cases hstep

theorem Happens.aligned {e : LogEvent α} (hh : Happens api base s e t) (h : Aligned api base s) :
    Aligned api base t := by
  cases hh with
  | append x => exact h.append x
  | attach hnone => exact h.set rfl rfl (fun _ _ => rfl) (sound_fresh (h.files _))
  | detach | kill => exact h.drop _
  | advance hr _ hm => exact h.stepped hm
  | shutdown hapi hr =>
    obtain ⟨hbounded, havail, hhand, hdurable, hrunning, hwaits⟩ := h.readers _ _ hr
    exact h.set rfl rfl (fun _ _ => rfl) ⟨hbounded, havail, hhand, hdurable, hrunning, hwaits⟩

/-- What id `id` can tell after an event that is not about it: the log may have grown. -/
structure Unseen (api : LogApi) (base id : String) (s t : LogState α) : Prop where
  log : s.log <+: t.log
  reader : t.readers id = s.readers id
  file : t.files (api.checkpointPath base id) = s.files (api.checkpointPath base id)
  returned : t.returned id = s.returned id
  promised : t.promised id = s.promised id

theorem Happens.unseen {e : LogEvent α} (hh : Happens api base s e t) (hid : e.reader ≠ some id) :
    Unseen api base id s t := by
  have hne : ∀ id', LogEvent.reader e = some id' → id ≠ id' := by
    rintro id' he rfl
    exact hid he
  cases hh with
  | append x => exact ⟨List.prefix_append _ _, rfl, rfl, rfl, rfl⟩
  | attach | shutdown =>
    have hother := hne _ rfl
    exact ⟨List.prefix_refl _, Function.update_of_ne hother _ _, rfl, rfl,
      Function.update_of_ne hother _ _⟩
  | detach | kill =>
    exact ⟨List.prefix_refl _, Function.update_of_ne (hne _ rfl) _ _, rfl, rfl, rfl⟩
  | @advance id' r r' _ hr hstep hm =>
    have hother := hne _ rfl
    refine ⟨hm.log ▸ List.prefix_refl _, ?_, hm.others id hother, ?_, by rw [hm.promised]⟩
    · rw [hm.readers, Function.update_of_ne hother]
    · rcases hm.returned with ⟨heq, -⟩ | ⟨x, -, -, -, heq⟩
      · rw [heq]
      · rw [heq, Function.update_of_ne hother]

theorem Unseen.consumed (h : Unseen api base id s t) :
    t.consumed api base id = s.consumed api base id := by
  unfold LogState.consumed LogState.checkpoint
  rw [h.reader, h.file]

theorem Reader.entry_le (r : Reader α) : r.entry ≤ r.offset := by
  unfold Reader.entry
  split <;> omega

theorem Aligned.consumed_le (h : Aligned api base s) (id : String) :
    s.consumed api base id ≤ s.log.length := by
  unfold LogState.consumed
  split
  · rename_i r hr
    exact Nat.le_trans r.entry_le (h.readers id r hr).bounded
  · exact h.files id

theorem consumed_of_reader (hr : s.readers id = some r) : s.consumed api base id = r.entry := by
  simp only [LogState.consumed, hr]

/-- Between two calls the records behind a reader are those its checkpoint tells. -/
theorem Aligned.consumed_outside (h : Aligned api base s) (hr : s.readers id = some r)
    (hhand : r.pc.inHand = none) : s.consumed api base id = s.checkpoint api base id := by
  obtain ⟨hentry, hdurable⟩ := Reader.entry_durable hhand
  rw [consumed_of_reader hr, hentry, ← hdurable]
  exact (h.readers id r hr).durable.symm

/-! ## Runs without kills: every id receives the log -/

/-- An id has received exactly the records behind it. -/
structure Exact (api : LogApi) (base : String) (s : LogState α) : Prop
    extends Aligned api base s where
  received : ∀ id, s.received id = s.log.take (s.consumed api base id)

theorem Exact.init : Exact api base (LogState.init : LogState α) :=
  ⟨Aligned.init, fun _ => rfl⟩

/-- The part of `Exact` about an id that the event is about. -/
theorem Exact.own {e : LogEvent α} (h : Exact api base s) (hh : Happens api base s e t)
    (hok : s.noKill e = true) (hid : e.reader = some id) :
    t.received id = t.log.take (t.consumed api base id) := by
  have hbefore := h.received id
  cases hh with
  | append x => cases hid
  | kill => cases hok
  | attach hnone =>
    obtain rfl := Option.some.inj hid
    rw [LogState.consumed, hnone] at hbefore
    simp only [LogState.consumed, LogState.put_readers]
    exact hbefore
  | detach hr hout =>
    obtain rfl := Option.some.inj hid
    rw [h.consumed_outside hr (ReadPc.inHand_of_outside hout)] at hbefore
    simp only [LogState.consumed, LogState.drop, Function.update_self]
    exact hbefore
  | @advance id' r r' _ hr hstep hm =>
    obtain rfl : id = id' := (Option.some.inj hid).symm
    have hself : t.readers id = some r' := by rw [hm.readers, Function.update_self]
    rw [consumed_of_reader hr] at hbefore
    rw [consumed_of_reader hself, hm.log]
    rcases hm.returned with ⟨hret, hentry, -⟩ | ⟨x, hrec, -, hentry, hret⟩
    · rw [LogState.received, hret, hentry]
      exact hbefore
    · rw [LogState.received, hret, hentry, Function.update_self, List.map_append,
        ListLemmas.take_snoc hrec, ← hbefore]
      rfl
  | shutdown hapi hr =>
    obtain rfl := Option.some.inj hid
    rw [consumed_of_reader hr] at hbefore
    simp only [LogState.consumed, LogState.put_readers]
    exact hbefore

theorem Exact.step {e : LogEvent α} (h : Exact api base s) (hok : s.noKill e = true)
    (hstep : s.step api base e = some t) : Exact api base t := by
  have hh := h.happens hstep
  refine ⟨hh.aligned h.toAligned, fun id => ?_⟩
  by_cases hid : e.reader = some id
  · exact h.own hh hok hid
  · have hun := hh.unseen hid
    obtain ⟨more, hmore⟩ := hun.log
    rw [LogState.received, hun.returned, hun.consumed, ← hmore,
      List.take_append_of_le_length (h.consumed_le id)]
    exact h.received id

/-- What a step inside a call of `id` leaves alone and what it can return. -/
structure CallStep (api : LogApi) (base : String) (s : LogState α) (id : String)
    (t : LogState α) : Prop where
  log : t.log = s.log
  others : ∀ id' ≠ id, t.checkpoint api base id' = s.checkpoint api base id'
  runs : ∃ r, t.readers id = some r ∧ r.pc ≠ .threw
  /-- `try_next` returns false only at the end of the log. -/
  refused : api = .tradeLog → ∀ r, t.readers id = some r → r.pc = .returned none →
    t.checkpoint api base id = t.log.length
  /-- A returned record is the one after those received before. -/
  served : ∀ r x, t.readers id = some r → r.pc = .returned (some x) →
    s.log[(s.received id).length]? = some x

/-- The records of id `id` and its checkpoint. The file is behind or ahead
only while the call that returns the next record writes it. -/
structure Received (api : LogApi) (base : String) (s : LogState α) (id : String) : Prop where
  bounded : s.checkpoint api base id ≤ s.log.length
  exact : (∀ r, s.readers id = some r → r.pc.updating = none) →
    s.received id = s.log.take (s.checkpoint api base id)
  updating : ∀ r x, s.readers id = some r → r.pc.updating = some x →
    s.received id ++ [x] = s.log.take r.offset
  appended : s.received id <+: s.log

theorem Reader.entry_eq_durable (h : r.pc.updating = none) : r.entry = r.durable := by
  unfold Reader.entry Reader.durable
  cases hpc : r.pc with
  | truncated x | written x => simp [hpc, ReadPc.updating] at h
  | fresh | returned res | polling | checking | found | fetched x | threw => rfl

theorem ReadPc.inHand_of_updating {pc : ReadPc α} {x : α} (h : pc.updating = some x) :
    pc.inHand = some x := by
  cases pc with
  | truncated y | written y => exact h
  | fresh | returned res | polling | checking | found | fetched y | threw => cases h

theorem Exact.receivedBy (h : Exact api base s) (id : String) : Received api base s id := by
  have hreceived := h.received id
  refine ⟨h.files id, fun hquiet => ?_, fun r x hr hx => ?_, hreceived ▸ List.take_prefix _ _⟩
  · rw [hreceived]
    congr 1
    cases hr : s.readers id with
    | none => simp only [LogState.consumed, hr]
    | some r =>
      rw [consumed_of_reader hr, Reader.entry_eq_durable (hquiet r hr)]
      exact (h.readers id r hr).durable.symm
  · have hhand := ReadPc.inHand_of_updating hx
    obtain ⟨hpos, hrec⟩ := (h.readers id r hr).inHand x hhand
    rw [hreceived, consumed_of_reader hr, Reader.entry_inHand hhand, ← ListLemmas.take_snoc hrec,
      Nat.sub_add_cancel hpos]

/-- A call returns false when `try_next` finds no further record, or when
`pop` finds `done_` set. -/
theorem ReadStep.returns_false (hstep : ReadStep api base s id r t)
    (h : r.Sound api s.log (s.files (api.checkpointPath base id))) (hr' : t.readers id = some r')
    (hpc : r'.pc = .returned none) :
    api = .tradeLog ∧ s.log.length = s.checkpoint api base id ∧ t = s.put id r' ∨
      r.pc = .checking ∧ r.done = true ∧ t = s.put id r' := by
  cases hstep with
  | refused hapi hpc' hge =>
    obtain rfl := Option.some.inj ((s.put_readers id _).symm.trans hr')
    refine Or.inl ⟨hapi, ?_, rfl⟩
    rw [LogState.checkpoint, h.durable, Reader.durable, hpc']
    exact Nat.le_antisymm hge h.bounded
  | drained hpc' hdone =>
    obtain rfl := Option.some.inj ((s.put_readers id _).symm.trans hr')
    exact Or.inr ⟨hpc', hdone, rfl⟩
  | short hpc' hnone =>
    exact absurd (h.available hpc') (Nat.not_lt.mpr (List.getElem?_eq_none_iff.mp hnone))
  | call | available | nothing | again | fetch | truncate | write | ret =>
    obtain rfl := Option.some.inj ((s.put_readers id _).symm.trans hr')
    cases hpc

theorem Exact.callStep (h : Exact api base s) (hstep : s.step api base (.advance id) = some t) :
    CallStep api base s id t := by
  cases h.happens hstep with
  | @advance _ r r' _ hr hread hm =>
    have hself : t.readers id = some r' := by rw [hm.readers, Function.update_self]
    refine ⟨hm.log, ?_, ⟨r', hself, hm.sound.running⟩, ?_, ?_⟩
    · intro id' hne
      rw [LogState.checkpoint, hm.others id' hne, LogState.checkpoint]
    · intro hapi q hq hpc
      rcases hread.returns_false (h.readers id r hr) hq hpc with ⟨-, hend, rfl⟩ | ⟨hchk, -⟩
      · exact hend.symm
      · have := (h.readers id r hr).waits hchk
        rw [hapi] at this
        cases this
    · intro q x hq hpc
      rw [hself] at hq
      obtain rfl := Option.some.inj hq
      rcases hm.returned with ⟨-, -, hno⟩ | ⟨y, hrec, hy, -⟩
      · exact absurd hpc (hno x)
      · rw [hpc] at hy
        obtain rfl := Option.some.inj (ReadPc.returned.inj hy)
        rw [h.received id, consumed_of_reader hr, List.length_take_of_le]
        · exact hrec
        · exact Nat.le_trans r.entry_le (h.readers id r hr).bounded

/-- **Readers see the log.** However writers, readers and later incarnations
of readers interleave, every id receives the records of the log once and in
order, as many as its checkpoint says. -/
theorem log_received_in_order (api : LogApi) (base : String) {s : LogState α}
    (h : Reachable (restrict (LogState.step api base) LogState.noKill) .init s) :
    (∀ id, Received api base s id) ∧
      ∀ id t, s.step api base (.advance id) = some t → CallStep api base s id t := by
  have hinv : Exact api base s := h.invariant Exact.init fun s e t hs he =>
    hs.step (restrict_some.mp he).1 (restrict_some.mp he).2
  exact ⟨hinv.receivedBy, fun id t => hinv.callStep⟩

/-- Two subscribers, one of them destroyed and created again between its calls. -/
def twoSubscribers : List (LogEvent (Trade ℚ)) :=
  [.append ⟨2, 1, 100, 10, 3⟩, .attach "ui"] ++ List.replicate 6 (.advance "ui") ++
  [.detach "ui", .append ⟨4, 3, 101, 5, 6⟩, .attach "audit", .attach "ui"] ++
  List.replicate 6 (.advance "audit") ++ List.replicate 8 (.advance "ui")

theorem log_received_two_subscribers :
    ∃ s : LogState (Trade ℚ), exec (restrict (LogState.step .tradeLog "shard_0") LogState.noKill)
        .init twoSubscribers = some s ∧ (∀ id, Received .tradeLog "shard_0" s id) ∧
      (s.received "ui").map Trade.buyOrderId = [2, 4] ∧
      (s.received "audit").map Trade.buyOrderId = [2] := by
  have hrun : (exec (restrict (LogState.step .tradeLog "shard_0") LogState.noKill) .init
      twoSubscribers).any (fun s => (s.received "ui").map Trade.buyOrderId == [2, 4] &&
        (s.received "audit").map Trade.buyOrderId == [2]) = true := by
    decide +kernel
  obtain ⟨s, hs, hq⟩ := exec_any hrun
  simp only [Bool.and_eq_true, beq_iff_eq] at hq
  exact ⟨s, hs, (log_received_in_order .tradeLog "shard_0" (Reachable.start.exec hs)).1, hq⟩

end TradingSystem
