import TradingSystem.FeedHandler

/-!
# From byte streams to orders

For an open connection the orders pushed so far are the complete blocks of
the bytes received so far, and the buffer holds the rest. A call that ends
with `EAGAIN` keeps this. A call that ends with end-of-stream closes the
connection first: the blocks completed in that call are never pushed.
-/

namespace TradingSystem

open Framing FeedHandler

variable {P : Type}

theorem pushedFor_append {h h' : FeedHandler P} {serial : ℕ} {orders : List (Order P)}
    (hq : h'.queue = h.queue ++ orders.map (Prod.mk serial)) :
    h'.pushedFor serial = h.pushedFor serial ++ orders ∧
      ∀ k, k ≠ serial → h'.pushedFor k = h.pushedFor k := by
  unfold pushedFor
  rw [hq]
  constructor
  · simp [List.filter_map, Function.comp_def]
  · intro k hk
    have hne : (serial == k) = false := beq_false_of_ne hk.symm
    simp [List.filter_map, Function.comp_def, hne]

/-- What one call of `handle_client_data` does on an open connection. -/
structure Handled (price : UInt64 → P) (h h' : FeedHandler P) (fd : ℕ) (conn : ConnState)
    (bytes : List UInt8) (last : RecvEnd) : Prop where
  accepted : h'.accepted = h.accepted
  received : h'.received conn.serial = h.received conn.serial ++ bytes
  otherReceived : ∀ k, k ≠ conn.serial → h'.received k = h.received k
  otherPushed : ∀ k, k ≠ conn.serial → h'.pushedFor k = h.pushedFor k
  otherConnections : ∀ fd', fd' ≠ fd → h'.connections fd' = h.connections fd'
  again : last = .again →
    h'.connections fd =
        some { conn with buf := leftover kWireOrderSize (conn.buf ++ bytes) } ∧
      h'.pushedFor conn.serial = h.pushedFor conn.serial ++
        (frames kWireOrderSize (conn.buf ++ bytes)).map (orderOf price)
  closed : last ≠ .again →
    h'.connections fd = none ∧ h'.pushedFor conn.serial = h.pushedFor conn.serial

theorem handleClientData_handled (price : UInt64 → P) {h : FeedHandler P} {fd : ℕ}
    {conn : ConnState} (hconn : h.connections fd = some conn) (chunks : List (List UInt8))
    (last : RecvEnd) :
    Handled price h (handleClientData price h fd chunks last) fd conn chunks.flatten last := by
  have hall := receive_all hconn chunks
  by_cases hlast : last = .again
  · subst hlast
    have heq : handleClientData price h fd chunks .again =
        processBuffer price (chunks.foldl (receive fd) h) fd := by
      simp only [handleClientData, hconn]
    have hopen : (chunks.foldl (receive fd) h).connections fd =
        some { conn with buf := conn.buf ++ chunks.flatten } := by
      rw [hall]
      exact Function.update_self _ _ _
    have hqueue : (handleClientData price h fd chunks .again).queue = h.queue ++
        ((frames kWireOrderSize (conn.buf ++ chunks.flatten)).map (orderOf price)).map
          (Prod.mk conn.serial) := by
      rw [heq, processBuffer_eq price hopen, hall, List.map_map]
      rfl
    obtain ⟨hself, hothers⟩ := pushedFor_append hqueue
    refine ⟨?_, ?_, ?_, hothers, ?_, fun _ => ⟨?_, hself⟩, fun hne => absurd rfl hne⟩
    all_goals rw [heq, processBuffer_eq price hopen, hall]
    · exact Function.update_self _ _ _
    · exact fun k hk => Function.update_of_ne hk _ _
    · intro fd' hne
      simp only [Function.update_idem]
      exact Function.update_of_ne hne _ _
    · exact Function.update_self _ _ _
  · have heq : handleClientData price h fd chunks last =
        (chunks.foldl (receive fd) h).closeConnection fd := by
      cases last with
      | again => exact absurd rfl hlast
      | eof | error => simp only [handleClientData, hconn]
    rw [heq, hall]
    refine ⟨rfl, Function.update_self _ _ _, fun k hk => Function.update_of_ne hk _ _,
      fun _ _ => rfl, ?_, fun h => absurd h hlast, fun _ => ⟨Function.update_self _ _ _, rfl⟩⟩
    intro fd' hne
    simp only [closeConnection, Function.update_idem]
    exact Function.update_of_ne hne _ _

/-- A connection that is still open after its data was handled. -/
theorem Handled.self {price : UInt64 → P} {h h' : FeedHandler P} {fd : ℕ} {conn c : ConnState}
    {bytes : List UInt8} {last : RecvEnd} (hh : Handled price h h' fd conn bytes last)
    (hc : h'.connections fd = some c) :
    last = .again ∧ c = ⟨leftover kWireOrderSize (conn.buf ++ bytes), conn.serial⟩ := by
  by_cases hlast : last = .again
  · rw [(hh.again hlast).1] at hc
    exact ⟨hlast, (Option.some.inj hc).symm⟩
  · rw [(hh.closed hlast).1] at hc
    cases hc

theorem acceptConnection_cases {h : FeedHandler P} {fd fd' : ℕ} {conn : ConnState}
    (hconn : (h.acceptConnection fd).connections fd' = some conn) :
    fd' = fd ∧ conn = ⟨[], h.accepted⟩ ∨ h.connections fd' = some conn := by
  by_cases hne : fd' = fd
  · subst hne
    simp only [acceptConnection, Function.update_self] at hconn
    exact Or.inl ⟨rfl, (Option.some.inj hconn).symm⟩
  · simp only [acceptConnection, Function.update_of_ne hne] at hconn
    exact Or.inr hconn

theorem closeConnection_open {h : FeedHandler P} {fd fd' : ℕ} {conn : ConnState}
    (hconn : (h.closeConnection fd).connections fd' = some conn) :
    h.connections fd' = some conn := by
  by_cases hne : fd' = fd
  · subst hne
    simp only [closeConnection, Function.update_self] at hconn
    cases hconn
  · simpa only [closeConnection, Function.update_of_ne hne] using hconn

/-- Open connections are cut into orders as their bytes arrive; no two of them
share a serial number, and no number is used before it is given out. -/
structure Framed (price : UInt64 → P) (h : FeedHandler P) : Prop where
  cut : ∀ fd conn, h.connections fd = some conn →
    conn.buf = leftover kWireOrderSize (h.received conn.serial) ∧
      h.pushedFor conn.serial =
        (frames kWireOrderSize (h.received conn.serial)).map (orderOf price)
  given : ∀ fd conn, h.connections fd = some conn → conn.serial < h.accepted
  single : ∀ fd fd' conn conn', h.connections fd = some conn → h.connections fd' = some conn' →
    conn.serial = conn'.serial → fd = fd'
  unseen : ∀ k, h.accepted ≤ k → h.received k = [] ∧ h.pushedFor k = []

namespace Framed

variable {price : UInt64 → P} {h : FeedHandler P}

theorem init : Framed price (FeedHandler.init : FeedHandler P) :=
  ⟨by simp [FeedHandler.init], by simp [FeedHandler.init], by simp [FeedHandler.init],
    fun _ _ => ⟨rfl, rfl⟩⟩

theorem accept (hf : Framed price h) (fd : ℕ) : Framed price (h.acceptConnection fd) := by
  obtain ⟨hreceived, hpushed⟩ := hf.unseen h.accepted (Nat.le_refl _)
  refine ⟨?_, ?_, ?_, ?_⟩
  · intro fd' conn hconn
    obtain ⟨-, rfl⟩ | hold := acceptConnection_cases hconn
    · change [] = leftover _ (h.received h.accepted) ∧
        h.pushedFor h.accepted = (frames _ (h.received h.accepted)).map _
      rw [hreceived, hpushed]
      exact ⟨rfl, rfl⟩
    · exact hf.cut fd' conn hold
  · intro fd' conn hconn
    simp only [acceptConnection]
    obtain ⟨-, rfl⟩ | hold := acceptConnection_cases hconn
    · exact Nat.lt_succ_self _
    · exact Nat.lt_succ_of_lt (hf.given fd' conn hold)
  · intro fd₁ fd₂ c₁ c₂ h₁ h₂ heq
    obtain ⟨hfd₁, rfl⟩ | hold₁ := acceptConnection_cases h₁
    · obtain ⟨hfd₂, rfl⟩ | hold₂ := acceptConnection_cases h₂
      · rw [hfd₁, hfd₂]
      · have := hf.given fd₂ c₂ hold₂
        simp only at heq
        omega
    · obtain ⟨-, rfl⟩ | hold₂ := acceptConnection_cases h₂
      · have := hf.given fd₁ c₁ hold₁
        simp only at heq
        omega
      · exact hf.single fd₁ fd₂ c₁ c₂ hold₁ hold₂ heq
  · intro k hk
    simp only [acceptConnection] at hk
    exact hf.unseen k (by omega)

theorem close (hf : Framed price h) (fd : ℕ) : Framed price (h.closeConnection fd) :=
  ⟨fun fd' conn hconn => hf.cut fd' conn (closeConnection_open hconn),
    fun fd' conn hconn => hf.given fd' conn (closeConnection_open hconn),
    fun fd₁ fd₂ c₁ c₂ h₁ h₂ =>
      hf.single fd₁ fd₂ c₁ c₂ (closeConnection_open h₁) (closeConnection_open h₂),
    hf.unseen⟩

theorem handle (hf : Framed price h) {h' : FeedHandler P} {fd : ℕ} {conn : ConnState}
    (hconn : h.connections fd = some conn) {bytes : List UInt8} {last : RecvEnd}
    (hh : Handled price h h' fd conn bytes last) : Framed price h' := by
  have hsize : 0 < kWireOrderSize := by decide
  -- any connection of the new state, other than the one that was read
  have hother : ∀ fd' c, fd' ≠ fd → h'.connections fd' = some c →
      h.connections fd' = some c ∧ c.serial ≠ conn.serial := by
    intro fd' c hne hc
    rw [hh.otherConnections fd' hne] at hc
    exact ⟨hc, fun heq => hne (hf.single fd' fd c conn hc hconn heq)⟩
  refine ⟨?_, ?_, ?_, ?_⟩
  · intro fd' c hc
    by_cases hne : fd' = fd
    · subst hne
      obtain ⟨hlast, rfl⟩ := hh.self hc
      obtain ⟨hcut, hpushed⟩ := hf.cut fd' conn hconn
      obtain ⟨hframes, hleft⟩ := frames_append hsize (h.received conn.serial) bytes
      rw [hh.received, hleft, hframes, (hh.again hlast).2, hpushed, hcut, List.map_append]
      exact ⟨rfl, rfl⟩
    · obtain ⟨hold, hserial⟩ := hother fd' c hne hc
      rw [hh.otherReceived _ hserial, hh.otherPushed _ hserial]
      exact hf.cut fd' c hold
  · intro fd' c hc
    rw [hh.accepted]
    by_cases hne : fd' = fd
    · subst hne
      rw [(hh.self hc).2]
      exact hf.given fd' conn hconn
    · exact hf.given fd' c (hother fd' c hne hc).1
  · intro fd₁ fd₂ c₁ c₂ h₁ h₂ heq
    by_cases hne₁ : fd₁ = fd
    · by_cases hne₂ : fd₂ = fd
      · rw [hne₁, hne₂]
      · subst hne₁
        rw [(hh.self h₁).2] at heq
        exact absurd heq.symm (hother fd₂ c₂ hne₂ h₂).2
    · by_cases hne₂ : fd₂ = fd
      · subst hne₂
        rw [(hh.self h₂).2] at heq
        exact absurd heq (hother fd₁ c₁ hne₁ h₁).2
      · exact hf.single fd₁ fd₂ c₁ c₂ (hother fd₁ c₁ hne₁ h₁).1 (hother fd₂ c₂ hne₂ h₂).1 heq
  · intro k hk
    rw [hh.accepted] at hk
    have hserial : k ≠ conn.serial := by
      have := hf.given fd conn hconn
      omega
    rw [hh.otherReceived k hserial, hh.otherPushed k hserial]
    exact hf.unseen k hk

theorem step (hf : Framed price h) (e : FeedEvent) : Framed price (FeedHandler.step price h e) := by
  cases e with
  | accept fd => exact hf.accept fd
  | hangup fd => exact hf.close fd
  | readable fd chunks last =>
    simp only [FeedHandler.step]
    cases hconn : h.connections fd with
    | none =>
      simp only [handleClientData, hconn]
      exact hf
    | some conn => exact hf.handle hconn (handleClientData_handled price hconn chunks last)

theorem run (hf : Framed price h) (evs : List FeedEvent) :
    Framed price (FeedHandler.run price h evs) := by
  induction evs generalizing h with
  | nil => exact hf
  | cons e evs ih => exact ih (hf.step e)

end Framed

/-! ## Reads that end with `EAGAIN` -/

/-- The event is no read, or a read until `recv` has no more bytes. -/
def FeedEvent.endsAgain : FeedEvent → Bool
  | .readable _ _ last => last == .again
  | _ => true

/-- The orders pushed depend on the bytes of their own connection only, and
not on how these were cut into chunks. This includes closed connections. -/
structure FramedAll (price : UInt64 → P) (h : FeedHandler P) : Prop extends Framed price h where
  pushed : ∀ serial, h.pushedFor serial =
    (frames kWireOrderSize (h.received serial)).map (orderOf price)

theorem FramedAll.step {price : UInt64 → P} {h : FeedHandler P} (hf : FramedAll price h)
    {e : FeedEvent} (he : e.endsAgain = true) : FramedAll price (FeedHandler.step price h e) := by
  refine ⟨hf.toFramed.step e, ?_⟩
  cases e with
  | accept fd | hangup fd => exact hf.pushed
  | readable fd chunks last =>
    have hnext := hf.toFramed.step (.readable fd chunks last)
    simp only [FeedHandler.step] at hnext ⊢
    cases hconn : h.connections fd with
    | none =>
      simp only [handleClientData, hconn]
      exact hf.pushed
    | some conn =>
      have hh := handleClientData_handled price hconn chunks last
      obtain ⟨hopen, -⟩ := hh.again (beq_iff_eq.mp he)
      intro serial
      by_cases hne : serial = conn.serial
      · subst hne
        exact (hnext.cut fd _ hopen).2
      · rw [hh.otherPushed serial hne, hh.otherReceived serial hne]
        exact hf.pushed serial

theorem FramedAll.run {price : UInt64 → P} {h : FeedHandler P} (hf : FramedAll price h)
    {evs : List FeedEvent} (hevs : ∀ e ∈ evs, e.endsAgain = true) :
    FramedAll price (FeedHandler.run price h evs) := by
  induction evs generalizing h with
  | nil => exact hf
  | cons e evs ih =>
    obtain ⟨he, hrest⟩ := List.forall_mem_cons.mp hevs
    exact ih (hf.step he) hrest

theorem FramedAll.init {price : UInt64 → P} :
    FramedAll price (FeedHandler.init : FeedHandler P) :=
  ⟨Framed.init, fun _ => by simp [FeedHandler.init, pushedFor, frames]⟩

/-- Every queued order was pushed for a connection that has been accepted. -/
theorem Framed.tag_lt {price : UInt64 → P} {h : FeedHandler P} (hf : Framed price h)
    {p : ℕ × Order P} (hp : p ∈ h.queue) : p.1 < h.accepted := by
  by_contra hge
  have hnil := (hf.unseen p.1 (Nat.not_lt.mp hge)).2
  have hmem : p.2 ∈ h.pushedFor p.1 :=
    List.mem_map_of_mem (List.mem_filter.mpr ⟨hp, beq_self_eq_true _⟩)
  rw [hnil] at hmem
  cases hmem

/-- The state of all streams: the orders of a connection are its complete
blocks, the buffer of an open one holds the rest, and the queue is made of
the orders of accepted connections, each in order. -/
structure ByBlocks (price : UInt64 → P) (h : FeedHandler P) : Prop where
  pushed : ∀ serial, h.pushedFor serial =
    (frames kWireOrderSize (h.received serial)).map (orderOf price)
  buffer : ∀ fd conn, h.connections fd = some conn →
    conn.buf = leftover kWireOrderSize (h.received conn.serial) ∧
      conn.buf.length < kWireOrderSize
  queue : ∀ p ∈ h.queue, p.1 < h.accepted
  own : ∀ fd fd' conn conn', h.connections fd = some conn → h.connections fd' = some conn' →
    conn.serial = conn'.serial → fd = fd'

/-- **Framing does not depend on chunks or on other connections.** In every
schedule whose reads end with `EAGAIN`, the orders of a connection are those
of the complete blocks of its own bytes; however the same bytes arrive, on
whatever connection, they give the same orders. -/
theorem framing_chunk_independent (price : UInt64 → P) {evs : List FeedEvent}
    (hevs : ∀ e ∈ evs, e.endsAgain = true) :
    ByBlocks price (FeedHandler.run price .init evs) ∧
      ∀ evs' : List FeedEvent, (∀ e ∈ evs', e.endsAgain = true) → ∀ serial serial',
        (FeedHandler.run price .init evs').received serial' =
          (FeedHandler.run price .init evs).received serial →
        (FeedHandler.run price .init evs').pushedFor serial' =
          (FeedHandler.run price .init evs).pushedFor serial := by
  have hf : FramedAll price (FeedHandler.run price .init evs) := FramedAll.init.run hevs
  refine ⟨⟨hf.pushed, ?_, fun p => hf.tag_lt, hf.single⟩, ?_⟩
  · intro fd conn hconn
    have hcut := (hf.cut fd conn hconn).1
    exact ⟨hcut, hcut ▸ length_leftover_lt (by decide)⟩
  · intro evs' hevs' serial serial' heq
    have hf' : FramedAll price (FeedHandler.run price .init evs') := FramedAll.init.run hevs'
    rw [hf.pushed, hf'.pushed, heq]

/-- A partial message, a full one on another connection, and a new connection
that gets the descriptor of the first. -/
def reusedDescriptor : List FeedEvent :=
  [.accept 5, .readable 5 [List.replicate 20 7] .again, .accept 6,
    .readable 6 [List.replicate 48 1] .again, .hangup 5, .accept 5,
    .readable 5 [List.replicate 30 2, List.replicate 30 2] .again]

theorem framing_reused_descriptor :
    ByBlocks id (FeedHandler.run id .init reusedDescriptor) ∧
      (FeedHandler.run id .init reusedDescriptor).queue.map Prod.fst = [1, 2] :=
  ⟨(framing_chunk_independent id (by decide)).1, by decide⟩

/-! ## Closed connections -/

/-- The connection has been accepted and is not open any more. -/
structure Gone (h : FeedHandler P) (serial : ℕ) : Prop where
  given : serial < h.accepted
  closed : ∀ fd conn, h.connections fd = some conn → conn.serial ≠ serial

/-- Nothing happens on behalf of a connection after it is closed. -/
theorem Gone.step {h : FeedHandler P} {k : ℕ} (hg : Gone h k) (price : UInt64 → P)
    (e : FeedEvent) :
    Gone (FeedHandler.step price h e) k ∧
      (FeedHandler.step price h e).received k = h.received k ∧
      (FeedHandler.step price h e).pushedFor k = h.pushedFor k := by
  have hgiven := hg.given
  cases e with
  | accept fd =>
    refine ⟨⟨Nat.lt_succ_of_lt hgiven, ?_⟩, rfl, rfl⟩
    intro fd' c hc
    obtain ⟨-, rfl⟩ | hold := acceptConnection_cases hc
    · simp only
      omega
    · exact hg.closed fd' c hold
  | hangup fd =>
    exact ⟨⟨hgiven, fun fd' c hc => hg.closed fd' c (closeConnection_open hc)⟩, rfl, rfl⟩
  | readable fd chunks last =>
    simp only [FeedHandler.step]
    cases hconn : h.connections fd with
    | none =>
      have hsame : handleClientData price h fd chunks last = h := by
        simp only [handleClientData, hconn]
      rw [hsame]
      exact ⟨hg, rfl, rfl⟩
    | some conn =>
      have hh := handleClientData_handled price hconn chunks last
      have hne := (hg.closed fd conn hconn).symm
      refine ⟨⟨?_, ?_⟩, hh.otherReceived k hne, hh.otherPushed k hne⟩
      · rw [hh.accepted]
        exact hgiven
      · intro fd' c hc
        by_cases hfd : fd' = fd
        · subst hfd
          rw [(hh.self hc).2]
          exact hne.symm
        · rw [hh.otherConnections fd' hfd] at hc
          exact hg.closed fd' c hc

theorem Gone.run {h : FeedHandler P} {k : ℕ} (hg : Gone h k) (price : UInt64 → P)
    (evs : List FeedEvent) :
    (FeedHandler.run price h evs).received k = h.received k ∧
      (FeedHandler.run price h evs).pushedFor k = h.pushedFor k := by
  induction evs generalizing h with
  | nil => exact ⟨rfl, rfl⟩
  | cons e evs ih =>
    obtain ⟨hg', hreceived, hpushed⟩ := hg.step price e
    obtain ⟨hr, hp⟩ := ih hg'
    exact ⟨hr.trans hreceived, hp.trans hpushed⟩

/-- A connection that was read to its end is gone. -/
theorem Handled.gone {price : UInt64 → P} {h h' : FeedHandler P} {fd : ℕ} {conn : ConnState}
    {bytes : List UInt8} {last : RecvEnd} (hh : Handled price h h' fd conn bytes last)
    (hf : Framed price h) (hconn : h.connections fd = some conn) (hlast : last ≠ .again) :
    Gone h' conn.serial := by
  constructor
  · rw [hh.accepted]
    exact hf.given fd conn hconn
  · intro fd' c hc heq
    by_cases hne : fd' = fd
    · subst hne
      rw [(hh.closed hlast).1] at hc
      cases hc
    · rw [hh.otherConnections fd' hne] at hc
      exact hne (hf.single fd' fd c conn hc hconn heq)

/-- Adding bytes adds no block if and only if it does not raise their number. -/
theorem map_frames_eq_iff {β : Type} (f : List UInt8 → β) (r x : List UInt8) :
    (frames kWireOrderSize r).map f = (frames kWireOrderSize (r ++ x)).map f ↔
      r.length / kWireOrderSize = (r.length + x.length) / kWireOrderSize := by
  constructor
  · intro heq
    have hlen := congrArg List.length heq
    simpa using hlen
  · intro hlen
    have hsplit := (frames_append (by decide : 0 < kWireOrderSize) r x).1
    have hnil : frames kWireOrderSize (leftover kWireOrderSize r ++ x) = [] := by
      have hlen' := congrArg List.length hsplit
      simp only [List.length_append, length_frames] at hlen'
      apply List.eq_nil_of_length_eq_zero
      simp only [length_frames, List.length_append]
      omega
    rw [hsplit, hnil, List.append_nil]

/-- **When a disconnect loses nothing.** A connection is open after `evs` and
then closed by `handle_client_data` on end-of-stream. At any later time the
orders pushed for it are exactly those of the complete blocks received on it
if and only if the closing call completed no further block. -/
theorem closed_complete_iff (price : UInt64 → P) (evs later : List FeedEvent) (fd : ℕ)
    (chunks : List (List UInt8)) (conn : ConnState)
    (hconn : (FeedHandler.run price .init evs).connections fd = some conn) :
    (FeedHandler.run price .init (evs ++ .readable fd chunks .eof :: later)).pushedFor conn.serial =
        (frames kWireOrderSize
          ((FeedHandler.run price .init (evs ++ .readable fd chunks .eof :: later)).received
            conn.serial)).map (orderOf price) ↔
      ((FeedHandler.run price .init evs).received conn.serial).length / kWireOrderSize =
        (((FeedHandler.run price .init evs).received conn.serial).length +
          chunks.flatten.length) / kWireOrderSize := by
  have hf : Framed price (FeedHandler.run price .init evs) := Framed.init.run evs
  have hh := handleClientData_handled price hconn chunks .eof
  have hrun : FeedHandler.run price .init (evs ++ .readable fd chunks .eof :: later) =
      FeedHandler.run price
        (handleClientData price (FeedHandler.run price .init evs) fd chunks .eof) later := by
    simp only [FeedHandler.run, List.foldl_append, List.foldl_cons, FeedHandler.step]
  obtain ⟨hreceived, hpushed⟩ := (hh.gone hf hconn (by decide)).run price later
  rw [hrun, hreceived, hpushed, hh.received, (hh.closed (by decide)).2, (hf.cut fd conn hconn).2]
  exact map_frames_eq_iff _ _ _

/-- One block, then `EAGAIN`; then end-of-stream: nothing is lost. -/
theorem closed_complete_after_again :
    (FeedHandler.run id .init
        [.accept 5, .readable 5 [List.replicate 48 0] .again, .readable 5 [] .eof]).pushedFor 0 =
      (frames kWireOrderSize (List.replicate 48 0)).map (orderOf id) :=
  (closed_complete_iff id [.accept 5, .readable 5 [List.replicate 48 0] .again] [] 5 [] ⟨[], 0⟩
    rfl).mpr rfl

/-- One block and end-of-stream in the same call: the block is received and
never pushed. -/
theorem block_lost_at_eof :
    (FeedHandler.run id .init [.accept 5, .readable 5 [List.replicate 48 0] .eof]).pushedFor 0 ≠
      (frames kWireOrderSize ((FeedHandler.run (P := UInt64) id .init
        [.accept 5, .readable 5 [List.replicate 48 0] .eof]).received 0)).map (orderOf id) := by
  decide

end TradingSystem
