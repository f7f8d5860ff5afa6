import Zimbr.Client.Effects

set_option autoImplicit false

/-!
# What every transaction of the worker preserves

A relation holds across the worker's transactions when the writing of a record
respects it and the tables besides do not matter to it.
-/
namespace Zimbr.Client
open Library

/-- The tables that records, metadata pages, sends and files are written to. -/
def core (s : Store) : Bytes × Table (Kind × Bytes) RecordRow × Table Bytes EnrichmentRow ×
    Table (Bytes × Bytes) EnrichmentPage × Table Bytes Bytes × Table Bytes OutboxRow ×
    Table Bytes OutgoingFile :=
  (s.epoch, s.records, s.enrichmentCache, s.enrichmentPages, s.drafts, s.outbox, s.outgoingFiles)

theorem checkHistory_reads {selected : Bytes} {frame : Frame} :
    Sql.Reads (checkHistory selected frame) := by
  unfold checkHistory
  split_ifs
  · exact .bind .query fun thread => .bind .query fun _ => .pure
  · exact .pure

section Aside

variable {R : Store → Store → Prop} [Std.Refl R] [IsTrans Store R]
  (aside : ∀ s s', core s' = core s → R s s')
include aside

theorem countUnread_related {m : Message} {origin viewed : Bytes} :
    Sql.Yields R (countUnread m origin viewed) := by
  refine .bind (.of_keeps (f := core) (.statement fun s first s' h => ?_) aside) fun first => ?_
  · unfold insertSeen at h
    split at h
    · rw [← (Prod.mk.inj (Option.some.inj h)).2]
      rfl
    · rw [← (Prod.mk.inj (Option.some.inj h)).2]
  · split_ifs
    · refine .bind .query fun thread => .bind .query fun shown => ?_
      split_ifs
      · exact .pure
      · exact .bind (.execute fun s => aside s _ rfl) fun _ => .pure
    · exact .pure

theorem previewMessage_related {m : Message} : Sql.Yields R (previewMessage m) := by
  unfold previewMessage
  split_ifs
  · exact .pure
  · exact .bind (.of_reads .require) fun _ => .execute fun s => aside s _ rfl

end Aside

def Response.records : Response → List Incoming
  | .chats conversations _ => conversations.map .conversation
  | .identities items _ => items.map .identity
  | .history _ messages _ => messages.map .message
  | .preview _ messages => messages.map .message
  | .hydrate _ message => [.message message]
  | .request value => [.request value]

def Frame.Carries (dec : Decoder) (frame : Frame) (record : Incoming) : Prop :=
  ∃ e kind, decodeEvent dec frame.data = .ok e ∧ dec.incoming kind e.record = .ok record

def Worker.Receives (dec : Decoder) (w : Worker) (record : Incoming) : Action → Prop
  | .deliver _ bytes => ∃ sse frames sse', w.sse = some sse ∧ sse.scan bytes = .ok (frames, sse') ∧
      ∃ frame ∈ frames, frame.Carries dec record
  | .respond _ response => record ∈ response.records
  | _ => False

section Written

variable {R : Store → Store → Prop} [Std.Refl R] [IsTrans Store R] {P : Incoming → Prop}
  (aside : ∀ s s', core s' = core s → R s s')
  (written : ∀ record, P record → Sql.Yields R (writeRecord false record))

include written in
theorem store_written {record : Incoming} (hrecord : P record) : Sql.Yields R (store record) :=
  .bind (.bind .lift fun _ => written record hrecord) fun _ => .pure

include aside written

theorem messageEvent_written {dec : Decoder} {seq : Nat} {e : Event} {viewed : Bytes}
    (hrecord : ∀ record, dec.incoming .message e.record = .ok record → P record) :
    Sql.Yields R (messageEvent dec seq e viewed) := by
  refine .bind .lift fun _ => .lift_bind fun m hm => .bind .lift fun _ => .bind ?_ fun cached =>
    .bind (previewMessage_related aside) fun _ => .bind ?_ fun raised =>
    .bind (.note fun s => aside s _ rfl) fun _ => .pure
  · have hmessage : P (.message { value := m, raw := e.record }) :=
      hrecord _ (by rw [Decoder.incoming, hm]; rfl)
    unfold cacheMessage
    split_ifs
    · exact .bind (written _ hmessage) fun _ => .pure
    · refine .bind .query fun cached => ?_
      split_ifs
      · exact .bind (written _ hmessage) fun _ => .pure
      · exact .pure
  · unfold countMessage
    split_ifs
    · exact countUnread_related aside
    · exact .pure

theorem applyEvent_written {dec : Decoder} {seq : Nat} {kind : Kind} {e : Event} {viewed : Bytes}
    (hrecord : ∀ record, dec.incoming kind e.record = .ok record → P record) :
    Sql.Yields R (applyEvent dec seq kind e viewed) := by
  refine .bind ?_ fun _ => .bind (.execute fun s => aside s _ rfl) fun _ => .pure
  have hother (kind : Kind) (hrecord : ∀ record, dec.incoming kind e.record = .ok record → P record) :
      Sql.Yields R (do
        let record ← upsert dec false kind e.record
        Sql.note (pass { sequence := seq, record := record, origin := e.origin })
        return none : Tx (Option Message)) :=
    .bind (.bind .lift fun _ => .lift_bind fun record hok =>
      .bind (written record (hrecord record hok)) fun _ => .pure) fun _ =>
      .bind (.note fun s => aside s _ rfl) fun _ => .pure
  cases kind with
  | message => exact messageEvent_written aside written hrecord
  | conversation => exact hother .conversation hrecord
  | request => exact hother .request hrecord
  | identity => exact hother .identity hrecord

theorem event_written {dec : Decoder} {selected : Bytes} {viewed : Bool} {frame : Frame}
    (hrecord : ∀ record, frame.Carries dec record → P record) :
    Sql.Yields R (event dec selected viewed frame) := by
  refine .bind (.lift_bind fun e he => .bind .query fun _ => .bind .lift fun _ => .bind .query fun _ =>
    .bind .lift fun _ => ?_) fun _ => .bind (.of_reads checkHistory_reads) fun _ => .pure
  split
  · exact .pure
  · refine .bind .query fun _ => .bind .orThrow fun kind => ?_
    rw [if_neg Bool.false_ne_true]
    exact applyEvent_written aside written fun record hok => hrecord record ⟨e, kind, he, hok⟩

omit aside written in
theorem gather_yields {α : Type} {accept : Frame → Tx (List α)} {frames : List Frame}
    (haccept : ∀ frame ∈ frames, Sql.Yields R (accept frame)) :
    Sql.Yields R (gather accept frames) := by
  induction frames with
  | nil => exact .pure
  | cons frame rest ih =>
    exact .bind (haccept frame List.mem_cons_self) fun _ =>
      .bind (ih fun other hother => haccept other (List.mem_cons_of_mem _ hother)) fun _ => .pure

theorem feed_written {dec : Decoder} {selected : Bytes} {viewed : Bool} {sse : Sse} {bytes : Bytes}
    (hrecord : ∀ frames sse', sse.scan bytes = .ok (frames, sse') → ∀ frame ∈ frames,
      ∀ record, frame.Carries dec record → P record) :
    Sql.Yields R (sse.feed (event dec selected viewed) bytes) := by
  intro c result c' hrun
  obtain ⟨frames, hscan, hgather⟩ := feed_ok hrun
  exact gather_yields (fun frame hframe => event_written aside written
    (hrecord frames _ hscan frame hframe)) c _ c' hgather

theorem handleResponse_written
    (own : ∀ v, P (.request v) → Sql.Advances R (writeRecord true (.request v))) {r : Response}
    (hrecord : ∀ record ∈ r.records, P record) : Sql.Advances R (handleResponse r) := by
  have hcover (chat : Bytes) : Sql.Yields R (coverPreview chat) := .execute fun s => aside s _ rfl
  have hstore {α : Type} (f : α → Incoming) (items : List α) (hitems : ∀ record ∈ items.map f, P record) :
      Sql.Yields R (Sql.each (fun v => store (f v)) items) :=
    .each fun v hv => store_written written (hitems _ (List.mem_map_of_mem hv))
  cases r with
  | chats conversations previews =>
    refine .bind .require fun _ => .transaction_of_yields (.bind (hstore _ _ hrecord) fun _ => ?_)
    cases previews with
    | none => exact .pure
    | some items =>
      exact .bind (.each fun _ _ => .bind (.of_reads .require) fun _ =>
        .execute fun s => aside s _ rfl) fun _ => .each fun _ _ => hcover _
  | identities identities last =>
    refine .bind .require fun _ => .transaction_of_yields (.bind (hstore _ _ hrecord) fun _ => ?_)
    split_ifs
    · exact .execute fun s => aside s _ rfl
    · exact .pure
  | history chat messages next =>
    exact .bind .require fun _ => .transaction_of_yields (.bind (hstore _ _ hrecord) fun _ =>
      .execute fun s => aside s _ rfl)
  | preview chat messages =>
    exact .bind .require fun _ => .transaction_of_yields (.bind (hstore _ _ hrecord) fun _ =>
      hcover _)
  | hydrate id message =>
    exact .bind .require fun _ => .transaction_of_yields
      (store_written written (hrecord _ (List.mem_singleton_self _)))
  | request value =>
    exact .bind (.bind .lift fun _ => own _ (hrecord _ (List.mem_singleton_self _))) fun _ => .pure

/-- Of the worker's steps only a new epoch, a cleared cache and the commands of
the user do more than write the records they receive. -/
theorem Worker.step_written {dec : Decoder} (w : Worker) (a : Action)
    (own : ∀ v, P (.request v) → Sql.Advances R (writeRecord true (.request v)))
    (hclear : a ≠ .clear) (hsync : ∀ env epoch cursor, a ≠ .sync env epoch cursor)
    (helsewhere : ∀ change, a ≠ .elsewhere change)
    (hrecord : ∀ record, w.Receives dec record a → P record) : R w.store (w.step dec a).store := by
  cases a with
  | restart => exact Std.Refl.refl _
  | clear => exact absurd rfl hclear
  | attach =>
    change R w.store (if w.sse.isNone then _ else w).store
    split_ifs <;> exact Std.Refl.refl _
  | verify env wanted accepted =>
    have hset : Sql.Advances R (Sql.execute fun s : Store =>
        { s with acceptedExtensions := accepted } : Tx Unit) :=
      .execute fun s => aside s _ rfl
    change R w.store (w.verify env wanted accepted).store
    unfold Worker.verify
    split_ifs
    · exact Std.Refl.refl _
    · split
      · next hrun => exact hset.run hrun
      · next hrun => exact hset.run hrun
  | deliver env bytes =>
    change R w.store (w.deliver dec env bytes).store
    unfold Worker.deliver
    split
    · exact Std.Refl.refl _
    · next sse hsse =>
      have hbatch : Sql.Advances R (receiveBatch dec w.selected w.viewed sse bytes) :=
        .transaction_of_yields (feed_written aside written fun frames sse' hscan frame hframe record
          hcarries => hrecord record ⟨sse, frames, sse', hsse, hscan, frame, hframe, hcarries⟩)
      split_ifs
      · exact Std.Refl.refl _
      · split
        · next hrun => exact hbatch.run hrun
        · next hrun => exact hbatch.run hrun
  | detach => exact Std.Refl.refl _
  | sync env epoch cursor => exact absurd rfl (hsync env epoch cursor)
  | respond env response =>
    exact handleResponse_written aside written own hrecord (w.conn env)
  | finishBootstrap env =>
    have hset : Sql.Advances R finishBootstrap := .execute fun s => aside s _ rfl
    exact hset (w.conn env)
  | view env selected viewed =>
    have hread : Sql.Advances R (read selected) := .execute fun s => aside s _ rfl
    change R w.store (if viewed then _ else _ : Worker).store
    split_ifs
    · exact hread (w.conn env)
    · exact Std.Refl.refl _
  | notify => exact Std.Refl.refl _
  | elsewhere change => exact absurd rfl (helsewhere change)

end Written

section Related

variable {R : Store → Store → Prop} [Std.Refl R] [IsTrans Store R]
  (aside : ∀ s s', core s' = core s → R s s')
  (stored : ∀ record, Sql.Yields R (writeStored record))
include aside stored

theorem writeRecord_related {autocommit : Bool} {record : Incoming} :
    Sql.Yields R (writeRecord autocommit record) := by
  by_cases hkind : record.kind = .identity
  · cases record with
    | identity v =>
      refine .bind (.of_reads .require) fun _ => .bind (.of_reads .require) fun _ =>
        .of_keeps (f := core) (.statement fun s changed s' h => ?_) aside
      rw [upsertIdentity_only h]
      rfl
    | _ => exact nomatch hkind
  · rw [writeRecord_eq hkind]
    refine .bind (.of_reads checkRecord_reads) fun current => ?_
    split_ifs
    · exact .pure
    · exact .bind (.of_reads .require) fun _ => .bind (.of_reads .require) fun _ =>
        (stored record).transaction
    · exact .bind (.of_reads .require) fun _ => .bind (.of_reads .require) fun _ => stored record

omit aside in
theorem writeRequest_related {v : Decoded SendRequest} :
    Sql.Advances R (writeRecord true (.request v)) := by
  have hkind : (Incoming.request v).kind ≠ .identity := fun h => nomatch h
  rw [writeRecord_eq hkind]
  refine .bind (.of_reads checkRecord_reads) fun current => ?_
  split_ifs
  · exact .pure
  · exact .bind .require fun _ => .bind .require fun _ => .transaction_of_yields (stored _)
  · next h => exact absurd rfl h

/-- Of the worker's steps only a new epoch, a cleared cache and the commands of
the user do more than write records. -/
theorem Worker.step_related {dec : Decoder} (w : Worker) (a : Action)
    (hclear : a ≠ .clear) (hsync : ∀ env epoch cursor, a ≠ .sync env epoch cursor)
    (helsewhere : ∀ change, a ≠ .elsewhere change) : R w.store (w.step dec a).store :=
  w.step_written (P := fun _ => True) aside (fun _ _ => writeRecord_related aside stored) a
    (fun _ _ => writeRequest_related stored) hclear hsync helsewhere fun _ _ => trivial

end Related

end Zimbr.Client
