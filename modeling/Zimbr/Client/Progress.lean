import Zimbr.Client.Batches

set_option autoImplicit false

/-!
# The cursor and what was applied

The cursor of a client is never ahead of an event that it did not apply, as long
as the relay skips none.
-/
namespace Zimbr.Client
open Library

/-- The events of each epoch; their cursors number them. -/
structure Log where
  events : Bytes → List Event
  unique : ∀ {epoch : Bytes} {e e' : Event} {n : Nat}, e ∈ events epoch → e' ∈ events epoch →
    parseCursor e.cursor epoch = .ok n → parseCursor e'.cursor epoch = .ok n → e = e'

/-- The frames carry events of the log, and skip none of those after `last`:
each of them comes before the frames of later events. -/
structure Log.Carries (log : Log) (dec : Decoder) (epoch : Bytes) (last : Nat)
    (frames : List Frame) : Prop where
  logged : ∀ frame ∈ frames, ∀ e, decodeEvent dec frame.data = .ok e → e ∈ log.events epoch
  unskipped : ∀ before frame after, frames = before ++ frame :: after → ∀ e seq,
    decodeEvent dec frame.data = .ok e → parseCursor e.cursor epoch = .ok seq →
    ∀ e' ∈ log.events epoch, ∀ n, parseCursor e'.cursor epoch = .ok n → last < n → n ≤ seq →
    ∃ frame' ∈ before ++ [frame], decodeEvent dec frame'.data = .ok e'

/-- The relay keeps its promise about what a step delivers. -/
def Log.Honest (log : Log) (dec : Decoder) (w : Worker) (a : Action) : Prop :=
  ∀ env bytes sse frames sse' last, a = .deliver env bytes → w.sse = some sse →
    sse.scan bytes = .ok (frames, sse') → parseCursor w.store.cursor w.store.epoch = .ok last →
    log.Carries dec w.store.epoch last frames

/-- The record of the event was applied, unless it was an uncached background
message. -/
def Kept (s : Store) (p : Passed) : Prop :=
  Landed s p.record ∨ p.cached = false ∧ p.origin ≠ text "live" ∧ ∃ v, p.record = .message v

def Passed.Of (dec : Decoder) (p : Passed) (e : Event) (n : Nat) : Prop :=
  p.sequence = n ∧ p.origin = e.origin ∧ ∃ kind extensions,
    eventKind e.type extensions = some kind ∧ dec.incoming kind e.record = .ok p.record

/-- Every event up to the cursor was passed, but for those before the
synchronization. -/
def Covered (dec : Decoder) (log : Log) (s : Store) : Prop :=
  ∀ last, parseCursor s.cursor s.epoch = .ok last → ∀ e ∈ log.events s.epoch, ∀ n,
    parseCursor e.cursor s.epoch = .ok n → s.synced < n → n ≤ last → ∃ p ∈ s.passed, p.Of dec e n

theorem checkEvent_ok {e : Event} {frame : Frame} {epoch : Bytes} {seq : Nat}
    (h : checkEvent e frame epoch = .ok seq) : parseCursor e.cursor epoch = .ok seq := by
  unfold checkEvent at h
  cases hparse : parseCursor e.cursor epoch with
  | error err =>
    rw [hparse] at h
    exact nomatch h
  | ok n =>
    rw [hparse] at h
    dsimp only at h
    split_ifs at h
    split at h
    · exact nomatch h
    · split_ifs at h
      rw [Except.ok.inj h]

section Batches

variable {dec : Decoder} {shown : Bytes} {log : Log} {last : Nat} {done : List Frame} {s s' : Store}

/-- In the middle of a batch whose frames up to here are `done`. -/
structure Midway (dec : Decoder) (log : Log) (last : Nat) (done : List Frame) (s : Store) :
    Prop where
  covered : Covered dec log s
  reached : ∃ cur, parseCursor s.cursor s.epoch = .ok cur ∧ last ≤ cur ∧ ∀ frame ∈ done, ∀ e n,
    decodeEvent dec frame.data = .ok e → parseCursor e.cursor s.epoch = .ok n → n ≤ cur

theorem Midway.accept (h : Midway dec log last done s) {frame : Frame} {n : Option Message}
    (haccepted : Accepted dec shown frame s n s')
    (hlogged : ∀ e, decodeEvent dec frame.data = .ok e → e ∈ log.events s.epoch)
    (hunskipped : ∀ e seq, decodeEvent dec frame.data = .ok e →
      parseCursor e.cursor s.epoch = .ok seq → ∀ e' ∈ log.events s.epoch, ∀ n,
      parseCursor e'.cursor s.epoch = .ok n → last < n → n ≤ seq →
      ∃ frame' ∈ done ++ [frame], decodeEvent dec frame'.data = .ok e') :
    Midway dec log last (done ++ [frame]) s' := by
  obtain ⟨cur, hcur, hlast, hdone⟩ := h.reached
  cases haccepted with
  | @replayed e seq last' hdecode hcheck hlast' hle =>
    refine ⟨h.covered, cur, hcur, hlast, fun frame' hframe' e' n hdecode' hn => ?_⟩
    rcases List.mem_append.mp hframe' with hmem | hmem
    · exact hdone frame' hmem e' n hdecode' hn
    · obtain rfl := List.mem_singleton.mp hmem
      obtain rfl := Except.ok.inj (hdecode.symm.trans hdecode')
      have hseq := Except.ok.inj ((checkEvent_ok hcheck).symm.trans hn)
      have hsame := Except.ok.inj (hlast'.symm.trans hcur)
      omega
  | @moved e seq last' kind p s' hdecode hcheck hlast' hlt hkind hmoved =>
    have hseq := checkEvent_ok hcheck
    have hsame := Except.ok.inj (hlast'.symm.trans hcur)
    have hcur' : parseCursor s'.cursor s'.epoch = .ok seq := by
      rw [hmoved.cursor, hmoved.epoch]
      exact hseq
    refine ⟨fun final hfinal e' he' n hn hsynced hle => ?_, seq, hcur', by omega,
      fun frame' hframe' e' n hdecode' hn => ?_⟩
    · have hfinal' := Except.ok.inj (hcur'.symm.trans hfinal)
      rw [hmoved.epoch] at he' hn
      rw [hmoved.synced] at hsynced
      rw [hmoved.passed]
      by_cases hold : n ≤ cur
      · obtain ⟨q, hq, hrecorded⟩ := h.covered cur hcur e' he' n hn hsynced hold
        exact ⟨q, List.mem_append_left [p] hq, hrecorded⟩
      · obtain ⟨frame', hframe', hdecode'⟩ :=
          hunskipped e seq hdecode hseq e' he' n hn (by omega) (by omega)
        rcases List.mem_append.mp hframe' with hmem | hmem
        · exact absurd (hdone frame' hmem e' n hdecode' hn) hold
        · obtain rfl := List.mem_singleton.mp hmem
          obtain rfl := Except.ok.inj (hdecode.symm.trans hdecode')
          obtain rfl := Except.ok.inj (hseq.symm.trans hn)
          exact ⟨p, List.mem_append_right _ List.mem_cons_self, hmoved.sequence, hmoved.origin, kind,
            _, hkind, hmoved.decoded⟩
    · rw [hmoved.epoch] at hn
      rcases List.mem_append.mp hframe' with hmem | hmem
      · have hle := hdone frame' hmem e' n hdecode' hn
        omega
      · obtain rfl := List.mem_singleton.mp hmem
        obtain rfl := Except.ok.inj (hdecode.symm.trans hdecode')
        exact (Except.ok.inj (hseq.symm.trans hn)).ge

theorem Accepted.epoch {frame : Frame} {n : Option Message} (h : Accepted dec shown frame s n s') :
    s'.epoch = s.epoch := by
  cases h with
  | replayed => rfl
  | moved _ _ _ _ _ hmoved => exact hmoved.epoch

theorem Batch.epoch {frames : List Frame} {messages : List Message}
    (h : Batch dec shown s frames messages s') : s'.epoch = s.epoch := by
  induction h with
  | nil s => rfl
  | cons hfirst _ ih => exact ih.trans hfirst.epoch

theorem Midway.batch {frames : List Frame} {messages : List Message}
    (hbatch : Batch dec shown s frames messages s') (h : Midway dec log last done s)
    (hcarries : log.Carries dec s.epoch last (done ++ frames)) :
    Midway dec log last (done ++ frames) s' := by
  induction hbatch generalizing done with
  | nil s =>
    rw [List.append_nil]
    exact h
  | @cons s s₁ s' frame rest n messages hfirst hrest ih =>
    have hsplit : done ++ frame :: rest = (done ++ [frame]) ++ rest := by simp
    have haccept := h.accept hfirst
      (hcarries.logged frame (List.mem_append_right done List.mem_cons_self))
      (hcarries.unskipped done frame rest rfl)
    rw [hsplit]
    rw [hsplit, ← hfirst.epoch] at hcarries
    exact ih haccept hcarries

theorem Batch.covered {frames : List Frame} {messages : List Message}
    (hbatch : Batch dec shown s frames messages s') (h : Covered dec log s)
    (hcarries : ∀ last, parseCursor s.cursor s.epoch = .ok last →
      log.Carries dec s.epoch last frames) : Covered dec log s' := by
  cases hparse : parseCursor s.cursor s.epoch with
  | ok last =>
    have hmidway : Midway dec log last [] s := ⟨h, last, hparse, le_rfl, fun _ hmem => nomatch hmem⟩
    exact (hmidway.batch hbatch (hcarries last hparse)).covered
  | error e =>
    cases hbatch with
    | nil => exact h
    | cons hfirst _ =>
      cases hfirst with
      | replayed _ _ hlast _ =>
        rw [hparse] at hlast
        exact nomatch hlast
      | moved _ _ hlast _ _ _ =>
        rw [hparse] at hlast
        exact nomatch hlast

def Held (s : Store) : Prop := ∀ p ∈ s.passed, Kept s p

theorem Held.grow (h : Held s) (hpassed : s'.passed = s.passed) (hgrows : Grows s s')
    (hepoch : s'.epoch = s.epoch) : Held s' := fun p hp => by
  rw [hpassed] at hp
  exact (h p hp).imp_left fun hlanded => hlanded.grow hgrows hepoch

theorem Accepted.held {frame : Frame} {n : Option Message} (haccepted : Accepted dec shown frame s n s')
    (h : Held s) : Held s' := by
  cases haccepted with
  | replayed => exact h
  | @moved e seq last kind p s' _ _ _ _ _ hmoved =>
    intro q hq
    rw [hmoved.passed] at hq
    rcases List.mem_append.mp hq with hq | hq
    · exact (h q hq).imp_left fun hlanded => hlanded.grow hmoved.grows hmoved.epoch
    · obtain rfl := List.mem_singleton.mp hq
      exact hmoved.landed.imp_right fun ⟨hcached, hlive, v, hv, _⟩ => ⟨hcached, hlive, v, hv⟩

theorem Batch.held {frames : List Frame} {messages : List Message}
    (hbatch : Batch dec shown s frames messages s') (h : Held s) : Held s' := by
  induction hbatch with
  | nil s => exact h
  | cons hfirst _ ih => exact ih (hfirst.held h)

end Batches

section Runs

variable {dec : Decoder} {log : Log}

/-- The cursor is behind no event that was not passed, and what was passed is
applied. -/
structure Current (dec : Decoder) (log : Log) (s : Store) : Prop where
  covered : Covered dec log s
  held : Held s

theorem Current.initial : Current dec log {} where
  covered _ hlast := nomatch hlast
  held _ hp := nomatch hp

theorem Current.step {w : Worker} {a : Action} (h : Current dec log w.store)
    (hhonest : log.Honest dec w a) : Current dec log (Worker.step dec w a).store := by
  cases step_effect dec w a with
  | quiet hquiet _ =>
    refine ⟨?_, h.held.grow hquiet.passed hquiet.grows hquiet.epoch⟩
    have hcovered := h.covered
    unfold Covered at hcovered ⊢
    rw [hquiet.epoch, hquiet.cursor, hquiet.synced, hquiet.passed]
    exact hcovered
  | resumed hresumed _ =>
    refine ⟨fun last hlast e _ n _ hsynced hle => ?_,
      h.held.grow hresumed.passed hresumed.grows hresumed.epoch⟩
    have hsame := Except.ok.inj (hresumed.cursor.symm.trans hlast)
    omega
  | fresh hfresh _ _ =>
    refine ⟨fun last hlast e _ n _ hsynced hle => ?_, fun p hp => ?_⟩
    · have hsame := hfresh.cursor last hlast
      omega
    · rw [hfresh.passed] at hp
      exact nomatch hp
  | @batch env bytes sse sse' frames messages haction hsse hscan hbatch _ =>
    exact ⟨hbatch.covered h.covered fun last hlast =>
      hhonest env bytes sse frames sse' last haction hsse hscan hlast, hbatch.held h.held⟩

end Runs

def Refused (w w' : Worker) : Prop :=
  w'.store = w.store ∧ w'.notifications = w.notifications

/-- The frames that a delivery completes were committed together, and the
notifications that could be created for them are queued. -/
def Committed (dec : Decoder) (env : Env) (bytes : Bytes) (w w' : Worker) : Prop :=
  ∃ sse sse' frames messages, w.sse = some sse ∧ sse.scan bytes = .ok (frames, sse') ∧
    Batch dec w.shown w.store frames messages w'.store ∧ w' = { w with
      store := w'.store
      sse := some sse'
      notifications := Worker.notified env messages w.notifications }

theorem deliver_atomic (dec : Decoder) (w : Worker) (env : Env) (bytes : Bytes) :
    Refused w (w.deliver dec env bytes) ∨ Committed dec env bytes w (w.deliver dec env bytes) := by
  unfold Worker.deliver
  split
  · exact Or.inl ⟨rfl, rfl⟩
  · next sse hsse =>
    split_ifs
    · exact Or.inl ⟨rfl, rfl⟩
    · split
      · next messages sse' c hrun =>
        obtain ⟨frames, hscan, hbatch⟩ := receiveBatch_ok hrun
        exact Or.inr ⟨sse, sse', frames, messages, hsse, hscan, hbatch, rfl⟩
      · next e c hrun => exact Or.inl ⟨Sql.transaction_error hrun, rfl⟩

/-- A delivery commits the frames it completes or nothing, wherever the stream
is cut; and the cursor is ahead of no event after the last synchronization that
was not applied. -/
theorem batches_atomic (dec : Decoder) :
    (∀ w env bytes, Refused w (w.deliver dec env bytes) ∨
      Committed dec env bytes w (w.deliver dec env bytes)) ∧
    (∀ (sse : Sse) (first second : Bytes), sse.scan (first ++ second) =
      match sse.scan first with
      | .error e => .error e
      | .ok (frames, sse') =>
        (sse'.scan second).map fun others => (frames ++ others.1, others.2)) ∧
    ∀ (log : Log) (actions : List Action), (∀ before a after, actions = before ++ a :: after →
      log.Honest dec ((client dec).run {} before) a) →
      ∀ s, s = ((client dec).run {} actions).store →
        ∀ last, parseCursor s.cursor s.epoch = .ok last → ∀ e ∈ log.events s.epoch, ∀ n,
          parseCursor e.cursor s.epoch = .ok n → s.synced < n → n ≤ last →
          ∃ p ∈ s.passed, p.Of dec e n ∧ Kept s p := by
  refine ⟨deliver_atomic dec, Sse.scan_append, ?_⟩
  rintro log actions hhonest s rfl last hlast e he n hn hsynced hle
  have hcurrent : Current dec log ((client dec).run {} actions).store :=
    (client dec).run_invariant_when
    (I := fun w => Current dec log w.store) (C := log.Honest dec)
    (fun w a h hhonest => h.step hhonest) {} actions Current.initial hhonest
  obtain ⟨p, hp, hof⟩ := hcurrent.covered last hlast e he n hn hsynced hle
  exact ⟨p, hp, hof, hcurrent.held p hp⟩

namespace Sample

def epoch : Bytes := text "AAAAAAAAAAAAAAAAAAAAAA"

def numbered (type raw : Bytes) : Event where
  cursor := epoch ++ 58 :: raw
  sequence := raw
  type := type
  origin := text "live"
  record := raw

def decoder (type : Bytes) : Decoder where
  event raw := .ok (numbered type raw)
  conversation _ := .error .invalidRecord
  message raw := .ok {
    id := raw, conversationId := [2], sender := [], direction := .incoming
    service := text "imessage", timestamp := [], kind := .text, text := some (text "hi")
    decoding := .plain, observedStatus := .received }
  request raw := .ok { requestId := raw, serverEpoch := [], target := {}, text := [] }
  identity _ := .error .invalidRecord

def frame (type raw : Bytes) : Bytes :=
  text "id: " ++ epoch ++ 58 :: raw ++ text "\nevent: " ++ type ++ text "\ndata: " ++ raw ++
    text "\n\n"

def connect (cursor : Bytes) : List Action :=
  [.sync {} epoch (epoch ++ 58 :: cursor), .attach, .verify {} [] []]

def messages : Bytes := text "message.upsert"
def requests : Bytes := text "send_request.updated"

def connected (type cursor : Bytes) : Worker := (client (decoder type)).run {} (connect cursor)

def received (type : Bytes) (env : Env) (waiting : List Notification) : Worker :=
  Worker.deliver (decoder type) { connected type (text "0") with notifications := waiting } env
    (frame type (text "1"))

def old : Notification where
  message := {
    sender := [], direction := .incoming, service := [], timestamp := [], kind := .text
    decoding := .plain, observedStatus := .received }

def log (type : Bytes) : Log where
  events _ := [numbered type (text "1")]
  unique h h' _ _ := (List.mem_singleton.mp h).trans (List.mem_singleton.mp h').symm

def greeted : List Action := connect (text "0") ++ [.deliver {} (frame messages (text "1"))]

theorem scan_greeting : Sse.scan {} (frame messages (text "1")) = .ok ([{
    id := epoch ++ text ":1", event := messages, data := text "1" }], {}) := by
  decide +kernel

theorem greeted_honest (before : List Action) (a : Action) (after : List Action)
    (h : greeted = before ++ a :: after) :
    (log messages).Honest (decoder messages) ((client (decoder messages)).run {} before) a := by
  have hquiet {w : Worker} {a : Action} (ha : ∀ env bytes, a ≠ .deliver env bytes) :
      (log messages).Honest (decoder messages) w a :=
    fun env bytes _ _ _ _ haction => absurd haction (ha env bytes)
  refine (client (decoder messages)).meets_cons (hquiet (by simp)) (Machine.meets_cons
    _ (hquiet (by simp)) (Machine.meets_cons _ (hquiet (by simp))
    (Machine.meets_cons _ ?_ (Machine.meets_nil _)))) before a after h
  intro env bytes sse frames sse' last haction hsse hscan _
  have hattached : ((client (decoder messages)).run {} (connect (text "0"))).sse = some {} := by
    decide +kernel
  obtain ⟨-, rfl⟩ := Action.deliver.inj haction
  obtain rfl := Option.some.inj (hattached.symm.trans hsse)
  obtain ⟨rfl, -⟩ := Prod.mk.inj (Except.ok.inj (scan_greeting.symm.trans hscan))
  have hdecode : decodeEvent (decoder messages) (text "1") = .ok (numbered messages (text "1")) := by
    decide +kernel
  refine ⟨fun frame' hframe' e he => ?_, fun first frame' last' hsplit e seq he _ e' he' n _ _ _ => ?_⟩
  · obtain rfl := List.mem_singleton.mp hframe'
    obtain rfl := Except.ok.inj (hdecode.symm.trans he)
    exact List.mem_cons_self
  · obtain rfl := List.mem_singleton.mp he'
    refine ⟨frame', List.mem_append_right first List.mem_cons_self, ?_⟩
    have hmem : frame' ∈ first ++ frame' :: last' := List.mem_append_right first List.mem_cons_self
    rw [← hsplit] at hmem
    obtain rfl := List.mem_singleton.mp hmem
    exact hdecode

end Sample

theorem batches_atomic_greeted :
    ∃ p ∈ ((client (Sample.decoder Sample.messages)).run {} Sample.greeted).store.passed,
      p.Of (Sample.decoder Sample.messages) (Sample.numbered Sample.messages (text "1")) 1 ∧
        Kept ((client (Sample.decoder Sample.messages)).run {} Sample.greeted).store p :=
  (batches_atomic (Sample.decoder Sample.messages)).2.2 (Sample.log Sample.messages) Sample.greeted
    Sample.greeted_honest _ rfl 1 (by decide +kernel) _ List.mem_cons_self 1 (by decide +kernel)
    (by decide +kernel) le_rfl

/-- A synchronization moves the cursor over earlier events; a request of another
epoch is passed over; a notification may fail, and only 64 of them wait. -/
theorem batches_passed_over :
    (parseCursor (Sample.connected Sample.messages (text "7")).store.cursor Sample.epoch = .ok 7 ∧
      (Sample.connected Sample.messages (text "7")).store.passed = [] ∧
      (Sample.connected Sample.messages (text "7")).store.records.rows = [] ∧
      parseCursor (Sample.numbered Sample.messages (text "3")).cursor Sample.epoch = .ok 3) ∧
    (parseCursor (Sample.received Sample.requests {} []).store.cursor Sample.epoch = .ok 1 ∧
      (Sample.received Sample.requests {} []).store.records.rows = [] ∧
      (Sample.received Sample.requests {} []).store.outbox.rows = []) ∧
    ((Sample.received Sample.messages { creates := fun _ => false } []).store.passed.map
        (·.raised) = [true] ∧
      (Sample.received Sample.messages { creates := fun _ => false } []).notifications = []) ∧
    ((Sample.received Sample.messages {} (List.replicate 64 Sample.old)).store.passed.map
        (·.raised) = [true] ∧
      (Sample.received Sample.messages {} (List.replicate 64 Sample.old)).notifications.length =
        64) := by
  decide +kernel

end Zimbr.Client
