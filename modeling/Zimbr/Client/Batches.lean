import Zimbr.Client.Effects

set_option autoImplicit false

/-!
# Batches of events

A delivery commits the complete frames it brings, or nothing. The cursor only
moves over events that were applied.
-/
namespace Zimbr.Client
open Library

/-- What a complete frame did: it repeats an event up to the cursor, or its
event was applied and moved the cursor. -/
inductive Accepted (dec : Decoder) (shown : Bytes) (frame : Frame) (s : Store) :
    Option Message → Store → Prop where
  | replayed {e : Event} {seq last : Nat} (hdecode : decodeEvent dec frame.data = .ok e)
      (hcheck : checkEvent e frame s.epoch = .ok seq)
      (hlast : parseCursor s.cursor s.epoch = .ok last) (hle : seq ≤ last) :
      Accepted dec shown frame s none s
  | moved {e : Event} {seq last : Nat} {kind : Kind} {p : Passed} {s' : Store}
      (hdecode : decodeEvent dec frame.data = .ok e)
      (hcheck : checkEvent e frame s.epoch = .ok seq)
      (hlast : parseCursor s.cursor s.epoch = .ok last) (hlt : last < seq)
      (hkind : eventKind e.type s.acceptedExtensions = some kind)
      (hmoved : Moved dec shown kind seq e s p s') : Accepted dec shown frame s p.notification s'

/-- The frames of a batch one after the other, with the messages they notify of. -/
inductive Batch (dec : Decoder) (shown : Bytes) :
    Store → List Frame → List Message → Store → Prop where
  | nil (s : Store) : Batch dec shown s [] [] s
  | cons {s s₁ s' : Store} {frame : Frame} {rest : List Frame} {n : Option Message}
      {messages : List Message} (hfirst : Accepted dec shown frame s n s₁)
      (hrest : Batch dec shown s₁ rest messages s') :
      Batch dec shown s (frame :: rest) (n.toList ++ messages) s'

section Deliveries

variable {dec : Decoder} {c c' : Conn Store Bytes}

theorem eventNotification_ok {frame : Frame} {viewed : Bytes} {n : Option Message}
    (h : (eventNotification dec false frame viewed).run c = (.ok n, c')) :
    Accepted dec viewed frame c.db n c'.db := by
  obtain ⟨e, c₁, hdecode, h⟩ := Sql.bind_ok h
  obtain ⟨epoch, c₂, hepoch, h⟩ := Sql.bind_ok h
  obtain ⟨seq, c₃, hcheck, h⟩ := Sql.bind_ok h
  obtain ⟨cursor, c₄, hcursor, h⟩ := Sql.bind_ok h
  obtain ⟨last, c₅, hlast, h⟩ := Sql.bind_ok h
  obtain ⟨hdecode, hc₁⟩ := Sql.lift_ok hdecode
  obtain ⟨hepoch, hdb₂⟩ := Sql.query_ok hepoch
  obtain ⟨hcheck, hc₃⟩ := Sql.lift_ok hcheck
  obtain ⟨hcursor, hdb₄⟩ := Sql.query_ok hcursor
  obtain ⟨hlast, hc₅⟩ := Sql.lift_mapError_ok hlast
  have hread : c₅.db = c.db := by rw [hc₅, hdb₄, hc₃, hdb₂, hc₁]
  rw [hepoch, hc₁] at hcheck hlast
  rw [hcursor, hc₃, hdb₂, hc₁] at hlast
  by_cases hle : seq ≤ last
  · rw [if_pos hle] at h
    obtain ⟨rfl, hc'⟩ := Sql.pure_ok h
    rw [hc', hread]
    exact .replayed hdecode hcheck hlast hle
  · rw [if_neg hle] at h
    obtain ⟨extensions, c₆, hextensions, h⟩ := Sql.bind_ok h
    obtain ⟨kind, c₇, hkind, h⟩ := Sql.bind_ok h
    rw [if_neg Bool.false_ne_true] at h
    obtain ⟨hextensions, hdb₆⟩ := Sql.query_ok hextensions
    obtain ⟨hkind, hc₇⟩ := Sql.orThrow_ok hkind
    rw [hextensions, hread] at hkind
    have hread₇ : c₇.db = c.db := by rw [hc₇, hdb₆, hread]
    obtain ⟨p, hmoved, rfl⟩ := applyEvent_ok h
    rw [hread₇] at hmoved
    exact .moved hdecode hcheck hlast (not_le.mp hle) hkind hmoved

theorem checkHistory_keeps {selected : Bytes} {frame : Frame} :
    Sql.Keeps id (checkHistory selected frame) := by
  unfold checkHistory
  split_ifs
  · exact .bind .query fun _ => .bind .query fun _ => .pure
  · exact .pure

theorem event_ok {selected : Bytes} {viewed : Bool} {frame : Frame} {messages : List Message}
    (h : (event dec selected viewed frame).run c = (.ok messages, c')) :
    ∃ n : Option Message, messages = n.toList ∧
      Accepted dec (if viewed then selected else []) frame c.db n c'.db := by
  obtain ⟨n, c₁, hevent, h⟩ := Sql.bind_ok h
  obtain ⟨_, c₂, hhistory, h⟩ := Sql.bind_ok h
  obtain ⟨hmessages, hc'⟩ := Sql.pure_ok h
  have hread : c₂.db = c₁.db := checkHistory_keeps.run hhistory
  rw [hc', hread]
  exact ⟨n, hmessages, eventNotification_ok hevent⟩

theorem gather_ok {selected : Bytes} {viewed : Bool} {frames : List Frame}
    {messages : List Message}
    (h : (gather (event dec selected viewed) frames).run c = (.ok messages, c')) :
    Batch dec (if viewed then selected else []) c.db frames messages c'.db := by
  induction frames generalizing c c' messages with
  | nil =>
    obtain ⟨rfl, hc'⟩ := Sql.pure_ok h
    rw [hc']
    exact .nil c.db
  | cons frame rest ih =>
    obtain ⟨first, c₁, hfirst, h⟩ := Sql.bind_ok h
    obtain ⟨others, c₂, hothers, h⟩ := Sql.bind_ok h
    obtain ⟨hmessages, hc'⟩ := Sql.pure_ok h
    obtain ⟨n, hn, haccepted⟩ := event_ok hfirst
    rw [hmessages, hn, hc']
    exact .cons haccepted (ih hothers)

theorem receiveBatch_ok {selected : Bytes} {viewed : Bool} {sse sse' : Sse} {bytes : Bytes}
    {messages : List Message}
    (h : (receiveBatch dec selected viewed sse bytes).run c = (.ok (messages, sse'), c')) :
    ∃ frames, sse.scan bytes = .ok (frames, sse') ∧
      Batch dec (if viewed then selected else []) c.db frames messages c'.db := by
  obtain ⟨c₁, c₂, hdb₁, -, hfeed, hdb⟩ := Sql.transaction_ok h
  obtain ⟨frames, hscan, hgather⟩ := feed_ok hfeed
  rw [hdb, ← hdb₁]
  exact ⟨frames, hscan, gather_ok hgather⟩

end Deliveries

/-- What anything but an event and a synchronization does: it may empty unread
counts and move records forward. -/
structure Quiet (s s' : Store) : Prop where
  epoch : s'.epoch = s.epoch
  cursor : s'.cursor = s.cursor
  synced : s'.synced = s.synced
  passed : s'.passed = s.passed
  liveSeen : s'.liveSeen = s.liveSeen
  unread : ∀ chat, s'.unread.get? chat = s.unread.get? chat ∨ s'.unread.get? chat = none
  grows : Grows s s'

instance : Std.Refl Quiet where
  refl s := ⟨rfl, rfl, rfl, rfl, rfl, fun _ => Or.inl rfl, Std.Refl.refl s⟩

instance : IsTrans Store Quiet where
  trans s₁ s₂ s₃ h h' := {
    epoch := h'.epoch.trans h.epoch
    cursor := h'.cursor.trans h.cursor
    synced := h'.synced.trans h.synced
    passed := h'.passed.trans h.passed
    liveSeen := h'.liveSeen.trans h.liveSeen
    unread := fun chat => by
      rcases h'.unread chat with hsame | hnone
      · rw [hsame]
        exact h.unread chat
      · exact Or.inr hnone
    grows := IsTrans.trans _ _ _ h.grows h'.grows }

/-- What the tables and settings that are written elsewhere do not hold. -/
theorem Quiet.of_outline {s s' : Store} (houtline : outline s' = outline s) (hgrows : Grows s s') :
    Quiet s s' := by
  simp only [outline, Prod.mk.injEq] at houtline
  obtain ⟨hepoch, hcursor, -, hunread, hliveSeen, -, hpassed, hsynced⟩ := houtline
  exact ⟨hepoch, hcursor, hsynced, hpassed, hliveSeen, fun chat => Or.inl (by rw [hunread]), hgrows⟩

section Responses

theorem writeRecord_quiet {autocommit : Bool} {r : Incoming} :
    Sql.Advances Quiet (writeRecord autocommit r) := fun c =>
  .of_outline (writeRecord_outline c) (writeRecord_grows c)

theorem store_quiet {r : Incoming} : Sql.Advances Quiet (store r) :=
  .bind (.bind .lift fun _ => writeRecord_quiet) fun _ => .pure

theorem page_quiet {chat : Bytes} {next : Option Bytes} : Sql.Advances Quiet (page chat next) :=
  .execute fun _ => .of_outline rfl (.of_tables rfl)

theorem writePreview_quiet {value : ConversationPreview} :
    Sql.Advances Quiet (writePreview value) :=
  .bind .require fun _ => .execute fun _ =>
    ⟨rfl, rfl, rfl, rfl, rfl, fun _ => Or.inl rfl, .of_tables rfl⟩

theorem coverPreview_quiet {chat : Bytes} : Sql.Advances Quiet (coverPreview chat) :=
  .execute fun _ => ⟨rfl, rfl, rfl, rfl, rfl, fun _ => Or.inl rfl, .of_tables rfl⟩

theorem handleResponse_quiet {r : Response} : Sql.Advances Quiet (handleResponse r) := by
  cases r with
  | chats conversations previews =>
    refine .bind .require fun _ => .transaction (.bind (.each fun _ _ => store_quiet) fun _ => ?_)
    cases previews with
    | none => exact .pure
    | some items =>
      exact .bind (.each fun _ _ => writePreview_quiet) fun _ =>
        .each fun _ _ => coverPreview_quiet
  | identities identities last =>
    refine .bind .require fun _ => .transaction (.bind (.each fun _ _ => store_quiet) fun _ => ?_)
    split_ifs
    · exact .execute fun _ => .of_outline rfl (.of_tables rfl)
    · exact .pure
  | history chat messages next =>
    exact .bind .require fun _ => .transaction (.bind (.each fun _ _ => store_quiet) fun _ =>
      page_quiet)
  | preview chat messages =>
    exact .bind .require fun _ => .transaction (.bind (.each fun _ _ => store_quiet) fun _ =>
      coverPreview_quiet)
  | hydrate id message => exact .bind .require fun _ => .transaction store_quiet
  | request value => exact .bind (.bind .lift fun _ => writeRecord_quiet) fun _ => .pure

theorem read_quiet {chat : Bytes} : Sql.Advances Quiet (read chat) := by
  refine .execute fun s => ⟨rfl, rfl, rfl, rfl, rfl, fun id => ?_, .of_tables rfl⟩
  dsimp only
  rw [Table.get?_deleteWhere]
  cases s.unread.get? id with
  | none => exact Or.inl rfl
  | some n =>
    rw [Option.filter_some]
    split_ifs
    · exact Or.inl rfl
    · exact Or.inr rfl

end Responses

/-- A synchronization of the same epoch keeps what was applied and counted. -/
structure Resumed (s s' : Store) : Prop where
  epoch : s'.epoch = s.epoch
  cursor : parseCursor s'.cursor s'.epoch = .ok s'.synced
  passed : s'.passed = s.passed
  liveSeen : s'.liveSeen = s.liveSeen
  unread : s'.unread = s.unread
  grows : Grows s s'

structure Fresh (s : Store) : Prop where
  cursor : ∀ last, parseCursor s.cursor s.epoch = .ok last → last = s.synced
  passed : s.passed = []
  liveSeen : s.liveSeen = .empty
  unread : s.unread = .empty

theorem enterEpoch_ok {epoch current : Bytes} {c c' : Conn Store Bytes} {u : Unit}
    (h : (enterEpoch epoch current).run c = (.ok u, c')) :
    c'.db = if current = epoch then c.db else forgetEpoch c.db := by
  unfold enterEpoch at h
  split_ifs at h with hsame
  · rw [(Sql.pure_ok h).2, if_pos hsame]
  · rw [Sql.execute_ok h, if_neg hsame]

/-- What an epoch has of its own, and is forgotten with it. -/
def progress (s : Store) : List Passed × Table Bytes Unit × Table Bytes Nat ×
    Table (Kind × Bytes) RecordRow × Table Bytes IdentityRow :=
  (s.passed, s.liveSeen, s.unread, tables s)

theorem writeSettings_ok {epoch cursor : Bytes} {seq : Nat} {c c' : Conn Store Bytes} {u : Unit}
    (h : (writeSettings epoch cursor seq).run c = (.ok u, c')) :
    c'.db.epoch = epoch ∧ c'.db.cursor = cursor ∧ c'.db.synced = seq ∧
      progress c'.db = progress c.db := by
  obtain ⟨_, c₁, hepoch, hset⟩ := Sql.bind_ok h
  obtain ⟨_, c₂, hcursor, hset'⟩ := Sql.bind_ok hset
  obtain ⟨_, c₃, -, hrest⟩ := Sql.bind_ok hset'
  obtain ⟨_, c₄, -, hrest⟩ := Sql.bind_ok hrest
  obtain ⟨_, c₅, -, hsynced⟩ := Sql.bind_ok hrest
  refine ⟨?_, ?_, ?_, ?_⟩
  · have hkept : c'.db.epoch = c₁.db.epoch := by
      refine Sql.Keeps.run ?_ hset
      exact .bind (.execute fun _ => rfl) fun _ => .bind (.execute fun _ => rfl) fun _ =>
        .bind (.execute fun _ => rfl) fun _ => .bind (.execute fun _ => rfl) fun _ =>
        .note fun _ => rfl
    rw [hkept, Sql.execute_ok hepoch]
  · have hkept : c'.db.cursor = c₂.db.cursor := by
      refine Sql.Keeps.run ?_ hset'
      exact .bind (.execute fun _ => rfl) fun _ => .bind (.execute fun _ => rfl) fun _ =>
        .bind (.execute fun _ => rfl) fun _ => .note fun _ => rfl
    rw [hkept, Sql.execute_ok hcursor]
  · rw [Sql.note_ok hsynced]
  · refine Sql.Keeps.run ?_ h
    exact .bind (.execute fun _ => rfl) fun _ => .bind (.execute fun _ => rfl) fun _ =>
      .bind (.execute fun _ => rfl) fun _ => .bind (.execute fun _ => rfl) fun _ =>
      .bind (.execute fun _ => rfl) fun _ => .note fun _ => rfl

theorem beginSync_entered {epoch cursor : Bytes} {c c' : Conn Store Bytes} {u : Unit}
    (h : (beginSync epoch cursor).run c = (.ok u, c')) :
    c'.db.epoch = epoch ∧ parseCursor c'.db.cursor c'.db.epoch = .ok c'.db.synced ∧
      progress c'.db = progress (if c.db.epoch = epoch then c.db else forgetEpoch c.db) := by
  obtain ⟨_, c₁, hvalid, h⟩ := Sql.bind_ok h
  obtain ⟨seq, c₂, hseq, h⟩ := Sql.bind_ok h
  obtain ⟨hseq, hc₂⟩ := Sql.lift_mapError_ok hseq
  obtain ⟨b₀, b₅, hdb₀, -, h, hdb⟩ := Sql.transaction_ok h
  obtain ⟨current, b₁, hcurrent, h⟩ := Sql.bind_ok h
  obtain ⟨_, b₂, henter, h⟩ := Sql.bind_ok h
  obtain ⟨_, b₃, hpages, h⟩ := Sql.bind_ok h
  obtain ⟨_, b₄, hsends, h⟩ := Sql.bind_ok h
  obtain ⟨hcurrent, hdb₁⟩ := Sql.query_ok hcurrent
  have hstart : b₀.db = c.db := by rw [hdb₀, hc₂, (Sql.require_ok hvalid).2]
  have hentered := enterEpoch_ok henter
  rw [hcurrent, hdb₁, hstart] at hentered
  obtain ⟨hepoch, hcursor, hsynced, hprogress⟩ := writeSettings_ok h
  rw [hdb, hepoch, hcursor, hsynced, hprogress, Sql.execute_ok hsends, Sql.execute_ok hpages,
    hentered]
  exact ⟨rfl, hseq, rfl⟩

theorem beginSync_ok {epoch cursor : Bytes} {c c' : Conn Store Bytes} {u : Unit}
    (h : (beginSync epoch cursor).run c = (.ok u, c')) :
    (c.db.epoch = epoch ∧ Resumed c.db c'.db) ∨
      (c.db.epoch ≠ epoch ∧ c'.db.epoch = epoch ∧ Fresh c'.db) := by
  obtain ⟨hepoch, hcursor, hprogress⟩ := beginSync_entered h
  by_cases hsame : c.db.epoch = epoch
  · rw [if_pos hsame] at hprogress
    simp only [progress, Prod.mk.injEq] at hprogress
    obtain ⟨hpassed, hliveSeen, hunread, htables⟩ := hprogress
    exact Or.inl ⟨hsame, hepoch.trans hsame.symm, hcursor, hpassed, hliveSeen, hunread,
      .of_tables htables⟩
  · rw [if_neg hsame] at hprogress
    simp only [progress, Prod.mk.injEq] at hprogress
    obtain ⟨hpassed, hliveSeen, hunread, -⟩ := hprogress
    refine Or.inr ⟨hsame, hepoch, fun last hlast => ?_, hpassed, hliveSeen, hunread⟩
    rw [hcursor] at hlast
    exact (Except.ok.inj hlast).symm

/-- What a step of the worker does to the store, to the waiting notifications
and to those it hands out. -/
inductive Effect (dec : Decoder) (w : Worker) (a : Action) (outs : List Notification)
    (w' : Worker) : Prop where
  | quiet (hquiet : Quiet w.store w'.store)
      (hqueue : (outs ++ w'.notifications).Sublist w.notifications)
  | resumed (hresumed : Resumed w.store w'.store)
      (hqueue : (outs ++ w'.notifications).Sublist w.notifications)
  | fresh (hfresh : Fresh w'.store) (hother : a = .clear ∨ w'.store.epoch ≠ w.store.epoch)
      (hqueue : (outs ++ w'.notifications).Sublist w.notifications)
  | batch {env : Env} {bytes : Bytes} {sse sse' : Sse} {frames : List Frame}
      {messages : List Message} (haction : a = .deliver env bytes) (hsse : w.sse = some sse)
      (hscan : sse.scan bytes = .ok (frames, sse')) (hbatch : Batch dec w.shown w.store frames messages w'.store)
      (hqueue : (outs ++ w'.notifications).Sublist
        (w.notifications ++ messages.map Notification.mk))

section Steps

variable {dec : Decoder} {w : Worker} {a : Action} {env : Env}

theorem pushNotification_sublist (queue : List Notification) (n : Notification) :
    (pushNotification queue n).Sublist (queue ++ [n]) := by
  unfold pushNotification
  split_ifs
  · exact (List.tail_sublist queue).append_right [n]
  · exact List.Sublist.refl _

/-- A queue drops notifications but neither doubles nor reorders them. -/
theorem foldl_pushNotification (queue items : List Notification) :
    (items.foldl pushNotification queue).Sublist (queue ++ items) := by
  induction items generalizing queue with
  | nil =>
    rw [List.foldl_nil, List.append_nil]
  | cons n rest ih =>
    have hpush := (pushNotification_sublist queue n).append_right rest
    rw [List.append_assoc] at hpush
    exact (ih (pushNotification queue n)).trans hpush

theorem notified_sublist (messages : List Message) (waiting : List Notification) :
    (Worker.notified env messages waiting).Sublist (waiting ++ messages.map Notification.mk) := by
  have hcreated : ((messages.filter env.creates).map Notification.mk).Sublist
      (messages.map Notification.mk) := List.filter_sublist.map _
  have hbatch := foldl_pushNotification [] ((messages.filter env.creates).map Notification.mk)
  rw [List.nil_append] at hbatch
  exact (foldl_pushNotification waiting _).trans
    ((List.Sublist.refl waiting).append (hbatch.trans hcreated))

theorem writing_effect {α : Type} {m : Tx α} (hm : Sql.Advances Quiet m) :
    Effect dec w a [] (w.writing env m) :=
  .quiet (hm (w.conn env)) (List.Sublist.refl _)

theorem verify_effect {wanted accepted : Bytes} :
    Effect dec w a [] (w.verify env wanted accepted) := by
  have hset : Sql.Advances Quiet (Sql.execute fun s : Store =>
      { s with acceptedExtensions := accepted } : Tx Unit) :=
    .execute fun _ => ⟨rfl, rfl, rfl, rfl, rfl, fun _ => Or.inl rfl, .of_tables rfl⟩
  unfold Worker.verify
  split_ifs
  · exact .quiet (Std.Refl.refl _) (List.Sublist.refl _)
  · split
    · next hrun => exact .quiet (hset.run hrun) (List.Sublist.refl _)
    · next hrun => exact .quiet (hset.run hrun) (List.Sublist.refl _)

theorem sync_effect {epoch cursor : Bytes} :
    Effect dec w a [] (w.writing env (beginSync epoch cursor)) := by
  rcases hrun : (beginSync epoch cursor).run (w.conn env) with ⟨_ | _, c⟩
  · have hsame : c.db = w.store := by
      have haborts : Sql.Aborts (beginSync epoch cursor) :=
        .bind .require fun _ => .bind .lift fun _ => .transaction
      exact haborts _ _ _ hrun
    refine .quiet ?_ (List.Sublist.refl _)
    rw [Worker.writing, hrun]
    dsimp only
    rw [hsame]
    exact Std.Refl.refl _
  · have hstore : (w.writing env (beginSync epoch cursor)).store = c.db := by
      rw [Worker.writing, hrun]
    rcases beginSync_ok hrun with ⟨-, hresumed⟩ | ⟨hother, hepoch, hfresh⟩
    · rw [← hstore] at hresumed
      exact .resumed hresumed (List.Sublist.refl _)
    · rw [← hstore] at hfresh hepoch
      refine .fresh hfresh (Or.inr ?_) (List.Sublist.refl _)
      rw [hepoch]
      exact Ne.symm hother

theorem deliver_effect {bytes : Bytes} :
    Effect dec w (.deliver env bytes) [] (w.deliver dec env bytes) := by
  have hsame : Effect dec w (.deliver env bytes) [] w := .quiet (Std.Refl.refl _) (List.Sublist.refl _)
  unfold Worker.deliver
  split
  · exact hsame
  · next sse hsse =>
    split_ifs
    · exact hsame
    · split
      · next hrun =>
        obtain ⟨frames, hscan, hbatch⟩ := receiveBatch_ok hrun
        exact .batch rfl hsse hscan hbatch (notified_sublist _ _)
      · next hrun =>
        refine .quiet ?_ (List.Sublist.refl _)
        rw [Sql.transaction_error hrun]
        exact Std.Refl.refl _

theorem step_effect (dec : Decoder) (w : Worker) (a : Action) :
    Effect dec w a ((client dec).out w a) (Worker.step dec w a) := by
  cases a with
  | restart => exact .quiet (Std.Refl.refl _) (List.nil_sublist _)
  | clear =>
    refine .fresh ⟨fun last hlast => ?_, rfl, rfl, rfl⟩ (Or.inl rfl) (List.nil_sublist _)
    exact nomatch hlast
  | attach =>
    change Effect dec w _ [] (if w.sse.isNone then _ else w)
    split_ifs
    · exact .quiet (Std.Refl.refl _) (List.Sublist.refl _)
    · exact .quiet (Std.Refl.refl _) (List.Sublist.refl _)
  | verify env wanted accepted => exact verify_effect
  | deliver env bytes => exact deliver_effect
  | detach => exact .quiet (Std.Refl.refl _) (List.Sublist.refl _)
  | sync env epoch cursor => exact sync_effect
  | respond env response => exact writing_effect handleResponse_quiet
  | finishBootstrap env =>
    exact writing_effect (.execute fun _ => .of_outline rfl (.of_tables rfl))
  | view env selected viewed =>
    change Effect dec w _ [] (if viewed then _ else _)
    split_ifs
    · exact .quiet (read_quiet (w.conn env)) (List.Sublist.refl _)
    · exact .quiet (Std.Refl.refl _) (List.Sublist.refl _)
  | notify =>
    refine .quiet (Std.Refl.refl _) ?_
    change (w.notifications.head?.toList ++ w.notifications.tail).Sublist w.notifications
    cases w.notifications with
    | nil => exact List.Sublist.refl _
    | cons n rest => exact List.Sublist.refl _
  | elsewhere change => exact .quiet (.of_outline rfl (.of_tables rfl)) (List.Sublist.refl _)

end Steps

end Zimbr.Client
