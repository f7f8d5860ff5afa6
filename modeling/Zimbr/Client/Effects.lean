import Zimbr.Client.Worker

set_option autoImplicit false

/-!
# What events and responses write

Writing a record only moves the stored revisions forward; an event writes its
record, its marks and its cursor.
-/
namespace Zimbr.Client
open Library

def outline (s : Store) : Bytes × Bytes × Bytes × Table Bytes Nat × Table Bytes Unit ×
    Table Bytes (Option ConversationPreview) × List Passed × Nat :=
  (s.epoch, s.cursor, s.acceptedExtensions, s.unread, s.liveSeen, s.previews, s.passed, s.synced)

def writeChecked (autocommit : Bool) (record : Incoming) : Tx Bool := do
  let current ← checkRecord record
  if !current then return false
  else do
    parseRevision record.revision
    Sql.require (record.id.length != 0) .invalidRecord
    if record.kind = .request && autocommit then Sql.transaction (writeStored record)
    else writeStored record

theorem writeRecord_eq {autocommit : Bool} {record : Incoming} (h : record.kind ≠ .identity) :
    writeRecord autocommit record = writeChecked autocommit record := by
  cases record with
  | identity v => exact absurd rfl h
  | _ => rfl

def settled (s : Store) : Store := { s with
  drafts := .empty
  outbox := .empty
  outgoingFiles := .empty
  pages := .empty }

section Settled

theorem mergeDrafts_settled {canonical combined : Bytes} {aliases : List (Bytes × Bytes)} :
    Sql.Keeps settled (mergeDrafts canonical combined aliases) := by
  unfold mergeDrafts
  split_ifs
  · exact .bind (.execute fun _ => rfl) fun _ => .each fun _ _ => .execute fun _ => rfl
  · exact .pure

theorem regroupMoved_settled {record : Incoming} {existing : Option RecordRow} :
    Sql.Keeps settled (regroupMoved record existing) := by
  unfold regroupMoved
  split_ifs
  · exact .bind (.execute fun _ => rfl) fun _ => .bind .query fun _ => .bind .query fun _ =>
      .bind .query fun _ => .bind mergeDrafts_settled fun _ =>
      .bind (.execute fun _ => rfl) fun _ => .execute fun _ => rfl
  · exact .pure

theorem followRequest_keeps {ω : Type} {f : Store → ω} {record : Incoming}
    (hf : ∀ s outbox files, f { s with outbox := outbox, outgoingFiles := files } = f s) :
    Sql.Keeps f (followRequest record) := by
  cases record with
  | request v =>
    refine .bind (.execute fun s => hf s _ s.outgoingFiles) fun _ => ?_
    split_ifs
    · exact .execute fun s => hf s s.outbox _
    · exact .pure
  | _ => exact .pure

theorem followRequest_settled {record : Incoming} : Sql.Keeps settled (followRequest record) :=
  followRequest_keeps fun _ _ _ => rfl

theorem forgetEnrichment_keeps {ω : Type} {f : Store → ω} {record : Incoming} {upgrade : Bool}
    (hf : ∀ s cache pages, f { s with enrichmentCache := cache, enrichmentPages := pages } = f s) :
    Sql.Keeps f (forgetEnrichment record upgrade) := by
  cases record with
  | message v =>
    refine .bind (.execute fun s => hf s _ s.enrichmentPages) fun _ =>
      .bind (.execute fun s => hf s s.enrichmentCache _) fun _ => ?_
    split_ifs
    · refine .execute? fun s s' h => ?_
      obtain ⟨cache, -, rfl⟩ := Option.map_eq_some_iff.mp h
      exact hf s cache s.enrichmentPages
    · exact .pure
  | _ => exact .pure

theorem checkRecord_reads {record : Incoming} : Sql.Reads (checkRecord record) := by
  cases record with
  | message v => exact .bind .lift fun _ => .pure
  | request v =>
    refine .bind .lift fun _ => .bind .query fun _ => ?_
    split_ifs
    · exact .pure
    · refine .bind (.bind .query fun row => ?_) fun _ => .pure
      split
      · exact .pure
      · split_ifs
        · exact .pure
        · exact .require
  | _ => exact .pure

end Settled

section Outline

theorem writeStored_outline {record : Incoming} : Sql.Keeps outline (writeStored record) := by
  refine .bind .query fun existing => ?_
  split
  · exact .bind (followRequest_settled.comp outline) fun _ => .pure
  · exact .bind (.execute fun _ => rfl) fun _ =>
      .bind (forgetEnrichment_keeps fun _ _ _ => rfl) fun _ =>
      .bind (followRequest_settled.comp outline) fun _ =>
      .bind (regroupMoved_settled.comp outline) fun _ => .pure

theorem upsertIdentity_only {v : Decoded Identity} {s s' : Store} {changed : Bool}
    (h : upsertIdentity v s = some (changed, s')) :
    s' = { s with identities := s'.identities } := by
  unfold upsertIdentity at h
  split at h
  · split_ifs at h
    · rw [Option.some.injEq, Prod.mk.injEq] at h
      rw [← h.2]
    · rw [Option.some.injEq, Prod.mk.injEq] at h
      rw [← h.2]
  · split_ifs at h
    obtain ⟨identities, -, hpair⟩ := Option.map_eq_some_iff.mp h
    rw [Prod.mk.injEq] at hpair
    rw [← hpair.2]

theorem writeRecord_outline {autocommit : Bool} {record : Incoming} :
    Sql.Keeps outline (writeRecord autocommit record) := by
  by_cases hkind : record.kind = .identity
  · cases record with
    | identity v =>
      refine .bind .require fun _ => .bind .require fun _ => .statement fun s changed s' h => ?_
      rw [upsertIdentity_only h]
      rfl
    | _ => exact nomatch hkind
  · rw [writeRecord_eq hkind]
    refine .bind (.of_reads checkRecord_reads) fun current => ?_
    split_ifs
    · exact .pure
    · exact .bind .require fun _ => .bind .require fun _ => .transaction writeStored_outline
    · exact .bind .require fun _ => .bind .require fun _ => writeStored_outline

end Outline

structure Grows (s s' : Store) : Prop where
  records : ∀ key row, s.records.get? key = some row →
    ∃ row', s'.records.get? key = some row' ∧ row.revision ≤ row'.revision
  identities : ∀ id row, s.identities.get? id = some row →
    ∃ row', s'.identities.get? id = some row' ∧ row.revision ≤ row'.revision ∧
      row'.service = row.service ∧ row'.address = row.address

instance : Std.Refl Grows where
  refl _ := ⟨fun _ row h => ⟨row, h, le_rfl⟩, fun _ row h => ⟨row, h, le_rfl, rfl, rfl⟩⟩

instance : IsTrans Store Grows where
  trans s₁ s₂ s₃ h h' := by
    refine ⟨fun key row hrow => ?_, fun id row hrow => ?_⟩
    · obtain ⟨row', hrow', hle⟩ := h.records key row hrow
      obtain ⟨row'', hrow'', hle'⟩ := h'.records key row' hrow'
      exact ⟨row'', hrow'', hle.trans hle'⟩
    · obtain ⟨row', hrow', hle, hservice, haddress⟩ := h.identities id row hrow
      obtain ⟨row'', hrow'', hle', hservice', haddress'⟩ := h'.identities id row' hrow'
      exact ⟨row'', hrow'', hle.trans hle', hservice'.trans hservice, haddress'.trans haddress⟩

def tables (s : Store) : Table (Kind × Bytes) RecordRow × Table Bytes IdentityRow :=
  (s.records, s.identities)

theorem Grows.of_tables {s s' : Store} (h : tables s' = tables s) : Grows s s' := by
  obtain ⟨hrecords, hidentities⟩ := Prod.mk.inj h
  refine ⟨fun key row hrow => ⟨row, ?_, le_rfl⟩, fun id row hrow => ⟨row, ?_, le_rfl, rfl, rfl⟩⟩
  · rw [hrecords]
    exact hrow
  · rw [hidentities]
    exact hrow

section Growth

theorem afterInsert_tables {record : Incoming} {existing : Option RecordRow} {upgrade fresh : Bool} :
    Sql.Keeps tables (do
      forgetEnrichment record upgrade
      followRequest record
      regroupMoved record existing
      return fresh : Tx Bool) :=
  .bind (forgetEnrichment_keeps fun _ _ _ => rfl) fun _ =>
    .bind (followRequest_settled.comp tables) fun _ =>
    .bind (regroupMoved_settled.comp tables) fun _ => .pure

theorem insertRecord_grows {record : Incoming} {c : Conn Store Bytes}
    (h : (c.db.records.get? record.key).filter (superseded record) = none) :
    Grows c.db ((insertRecord record).run c).2.db := by
  have hrow (row : RecordRow) (hrow : c.db.records.get? record.key = some row) :
      row.revision ≤ record.revision := by
    rw [hrow, Option.filter_some, ite_eq_right_iff] at h
    have hkept : superseded record row = false := by
      by_contra hne
      exact nomatch h (by simpa using hne)
    simp only [superseded, upgrades, Bool.and_eq_false_iff, Bool.not_eq_false', Bool.and_eq_true,
      decide_eq_false_iff_not, decide_eq_true_eq] at hkept
    omega
  rcases hrun : (insertRecord record).run c with ⟨e | _, c'⟩
  · rw [Sql.Aborts.execute c e c' hrun]
    exact Std.Refl.refl _
  · rw [Sql.execute_ok hrun]
    refine ⟨fun key row hkey => ?_, fun id row hid => ⟨row, hid, le_rfl, rfl, rfl⟩⟩
    dsimp only
    rw [Table.get?_upsert]
    split_ifs with hsame
    · rw [hsame] at hkey
      cases c.db.records.get? record.key with
      | none => exact ⟨_, rfl, hrow row hkey⟩
      | some old => exact ⟨_, rfl, hrow row hkey⟩
    · exact ⟨row, hkey, le_rfl⟩

theorem writeStored_grows {record : Incoming} : Sql.Advances Grows (writeStored record) := by
  refine .query_bind fun c => ?_
  split
  · exact Grows.of_tables (Sql.Keeps.bind (followRequest_settled.comp tables) (fun _ => .pure) c)
  · next hnone =>
    have hinsert := insertRecord_grows hnone
    rw [Sql.bind_run]
    rcases hrun : (insertRecord record).run c with ⟨_ | _, c'⟩
    · rw [hrun] at hinsert
      exact hinsert
    · rw [hrun] at hinsert
      exact IsTrans.trans _ _ _ hinsert (Grows.of_tables (afterInsert_tables c'))

theorem upsertIdentity_grows {v : Decoded Identity} {s s' : Store} {changed : Bool}
    (h : upsertIdentity v s = some (changed, s')) : Grows s s' := by
  unfold upsertIdentity at h
  split at h
  · next old hold =>
    split_ifs at h with hnewer
    · rw [Option.some.injEq, Prod.mk.injEq] at h
      rw [← h.2]
      simp only [Bool.and_eq_true, decide_eq_true_eq] at hnewer
      refine ⟨fun key row hrow => ⟨row, hrow, le_rfl⟩, fun id row hrow => ?_⟩
      dsimp only
      rw [Table.get?_modify]
      split_ifs with hid
      · rw [hid, hold, Option.some.injEq] at hrow
        rw [hid, hold, ← hrow]
        exact ⟨_, rfl, hnewer.1.1.le, rfl, rfl⟩
      · exact ⟨row, hrow, le_rfl, rfl, rfl⟩
    · rw [Option.some.injEq, Prod.mk.injEq] at h
      rw [← h.2]
      exact Std.Refl.refl s
  · split_ifs at h
    obtain ⟨identities, hinsert, hpair⟩ := Option.map_eq_some_iff.mp h
    rw [Prod.mk.injEq] at hpair
    rw [← hpair.2]
    refine ⟨fun key row hrow => ⟨row, hrow, le_rfl⟩, fun id row hrow => ⟨row, ?_, le_rfl, rfl, rfl⟩⟩
    dsimp only
    rw [Table.get?_insert hinsert, if_neg]
    · exact hrow
    · rintro rfl
      rw [Table.get?_of_insert hinsert] at hrow
      cases hrow

theorem writeRecord_grows {autocommit : Bool} {record : Incoming} :
    Sql.Advances Grows (writeRecord autocommit record) := by
  by_cases hkind : record.kind = .identity
  · cases record with
    | identity v =>
      exact .bind .require fun _ => .bind .require fun _ =>
        .statement fun s changed s' h => upsertIdentity_grows h
    | _ => exact nomatch hkind
  · rw [writeRecord_eq hkind]
    refine .bind (.of_reads checkRecord_reads) fun current => ?_
    split_ifs
    · exact .pure
    · exact .bind .require fun _ => .bind .require fun _ => .transaction writeStored_grows
    · exact .bind .require fun _ => .bind .require fun _ => writeStored_grows

end Growth

/-- The record or a newer one is stored. The client ignores a request of another
epoch, and an identity that has another address. -/
def Landed (s : Store) : Incoming → Prop
  | .identity v => ∃ row, s.identities.get? v.value.id = some row ∧
      (v.value.revision ≤ row.revision ∨ row.service ≠ v.value.service ∨
        row.address ≠ v.value.address)
  | .request v => v.value.serverEpoch ≠ s.epoch ∨ ∃ row,
      s.records.get? (.request, v.value.requestId) = some row ∧ v.value.revision ≤ row.revision
  | r => ∃ row, s.records.get? r.key = some row ∧ r.revision ≤ row.revision

section Landing

theorem Landed.of_row {s : Store} {r : Incoming} (hkind : r.kind ≠ .identity) {row : RecordRow}
    (hrow : s.records.get? r.key = some row) (hle : r.revision ≤ row.revision) : Landed s r := by
  cases r with
  | identity v => exact absurd rfl hkind
  | request v => exact Or.inr ⟨row, hrow, hle⟩
  | conversation v => exact ⟨row, hrow, hle⟩
  | message v => exact ⟨row, hrow, hle⟩

theorem Landed.grow {s s' : Store} {r : Incoming} (h : Landed s r) (hgrows : Grows s s')
    (hepoch : s'.epoch = s.epoch) : Landed s' r := by
  cases r with
  | identity v =>
    obtain ⟨row, hrow, hcase⟩ := h
    obtain ⟨row', hrow', hle, hservice, haddress⟩ := hgrows.identities v.value.id row hrow
    refine ⟨row', hrow', ?_⟩
    rw [hservice, haddress]
    exact hcase.imp_left fun h => h.trans hle
  | request v =>
    refine h.imp (fun h => ?_) fun ⟨row, hrow, hle⟩ => ?_
    · rw [hepoch]
      exact h
    · obtain ⟨row', hrow', hle'⟩ := hgrows.records _ row hrow
      exact ⟨row', hrow', hle.trans hle'⟩
  | conversation v =>
    obtain ⟨row, hrow, hle⟩ := h
    obtain ⟨row', hrow', hle'⟩ := hgrows.records _ row hrow
    exact ⟨row', hrow', hle.trans hle'⟩
  | message v =>
    obtain ⟨row, hrow, hle⟩ := h
    obtain ⟨row', hrow', hle'⟩ := hgrows.records _ row hrow
    exact ⟨row', hrow', hle.trans hle'⟩

variable {c c' : Conn Store Bytes} {stored : Bool}

theorem writeStored_landed {r : Incoming} (hkind : r.kind ≠ .identity)
    (h : (writeStored r).run c = (.ok stored, c')) : Landed c'.db r := by
  obtain ⟨existing, c₁, hexisting, h⟩ := Sql.bind_ok h
  obtain ⟨rfl, hdb₁⟩ := Sql.query_ok hexisting
  split at h
  · next old hold =>
    have htables : tables c'.db = tables c₁.db :=
      (Sql.Keeps.bind (followRequest_settled.comp tables) fun _ => .pure).run h
    rw [hdb₁] at htables
    obtain ⟨hrow, hsuperseded⟩ := Option.filter_eq_some_iff.mp hold
    simp only [superseded, Bool.and_eq_true, decide_eq_true_eq] at hsuperseded
    have hlanded : c'.db.records.get? r.key = some old := by
      rw [(Prod.mk.inj htables).1]
      exact hrow
    exact .of_row hkind hlanded hsuperseded.1
  · obtain ⟨_, c₂, hinsert, h⟩ := Sql.bind_ok h
    have htables : tables c'.db = tables c₂.db := afterInsert_tables.run h
    have hrow : c₂.db.records.get? r.key = some (.of r) := by
      rw [Sql.execute_ok hinsert]
      dsimp only
      rw [Table.get?_upsert, if_pos rfl]
      cases c₁.db.records.get? r.key <;> rfl
    have hlanded : c'.db.records.get? r.key = some (.of r) := by
      rw [(Prod.mk.inj htables).1]
      exact hrow
    exact .of_row hkind hlanded le_rfl

theorem checkRecord_ok {r : Incoming} {current : Bool}
    (h : (checkRecord r).run c = (.ok current, c')) :
    current = true ∨ ∃ v, r = .request v ∧ v.value.serverEpoch ≠ c'.db.epoch := by
  cases r with
  | conversation v => exact Or.inl (Sql.pure_ok h).1
  | identity v => exact Or.inl (Sql.pure_ok h).1
  | message v =>
    obtain ⟨_, c₁, -, h⟩ := Sql.bind_ok h
    exact Or.inl (Sql.pure_ok h).1
  | request v =>
    obtain ⟨_, c₁, -, h⟩ := Sql.bind_ok h
    obtain ⟨epoch, c₂, hepoch, h⟩ := Sql.bind_ok h
    obtain ⟨rfl, hdb₂⟩ := Sql.query_ok hepoch
    split_ifs at h with hne
    · rw [(Sql.pure_ok h).2, hdb₂]
      exact Or.inr ⟨v, rfl, fun heq => by simp [heq] at hne⟩
    · obtain ⟨_, c₃, -, h⟩ := Sql.bind_ok h
      exact Or.inl (Sql.pure_ok h).1

theorem writeRecord_landed {autocommit : Bool} {r : Incoming}
    (h : (writeRecord autocommit r).run c = (.ok stored, c')) : Landed c'.db r := by
  by_cases hkind : r.kind = .identity
  · cases r with
    | identity v =>
      obtain ⟨_, c₁, -, h⟩ := Sql.bind_ok h
      obtain ⟨_, c₂, -, h⟩ := Sql.bind_ok h
      have hupsert := (Sql.statement_ok h).1
      unfold upsertIdentity at hupsert
      split at hupsert
      · next old hold =>
        split_ifs at hupsert with hnewer
        · rw [Option.some.injEq, Prod.mk.injEq] at hupsert
          rw [← hupsert.2]
          refine ⟨{ old with revision := v.value.revision, record := v }, ?_, Or.inl le_rfl⟩
          rw [Table.get?_modify, if_pos rfl, hold]
          rfl
        · rw [Option.some.injEq, Prod.mk.injEq] at hupsert
          rw [← hupsert.2]
          refine ⟨old, hold, ?_⟩
          simp only [Bool.and_eq_true, decide_eq_true_eq] at hnewer
          by_cases hle : v.value.revision ≤ old.revision
          · exact Or.inl hle
          · right
            by_contra hsame
            rw [not_or, not_not, not_not] at hsame
            exact hnewer ⟨⟨not_le.mp hle, hsame.1.symm⟩, hsame.2.symm⟩
      · split_ifs at hupsert
        obtain ⟨identities, hinsert, hpair⟩ := Option.map_eq_some_iff.mp hupsert
        rw [Prod.mk.injEq] at hpair
        rw [← hpair.2]
        refine ⟨.of v, ?_, Or.inl le_rfl⟩
        rw [Table.get?_insert hinsert, if_pos rfl]
    | _ => exact nomatch hkind
  · have hwritten : outline c'.db = outline c.db := writeRecord_outline.run h
    rw [writeRecord_eq hkind] at h
    obtain ⟨current, c₁, hcheck, h⟩ := Sql.bind_ok h
    rcases checkRecord_ok hcheck with rfl | ⟨v, rfl, hepoch⟩
    · obtain ⟨_, c₂, -, h⟩ := Sql.bind_ok h
      obtain ⟨_, c₃, -, h⟩ := Sql.bind_ok h
      split_ifs at h
      · obtain ⟨c₄, c₅, -, -, hbody, hdb⟩ := Sql.transaction_ok h
        rw [hdb]
        exact writeStored_landed hkind hbody
      · exact writeStored_landed hkind h
    · have hafter : c'.db.epoch = c.db.epoch := congrArg Prod.fst hwritten
      have hchecked : c₁.db.epoch = c.db.epoch := congrArg Store.epoch (checkRecord_reads.ok hcheck)
      left
      rw [hafter, ← hchecked]
      exact hepoch

end Landing

namespace Passed

def counts (p : Passed) (id : Bytes) : Prop :=
  ∃ v, p.record = .message v ∧ v.value.id = id ∧ countable v.value = true

def notification (p : Passed) : Option Message :=
  match p.record with
  | .message v => if p.raised then some v.value else none
  | _ => none

def raise (p : Passed) (unread : Table Bytes Nat) : Table Bytes Nat :=
  match p.notification with
  | some m => unread.upsert m.conversationId 1 (· + 1)
  | none => unread

def preview (p : Passed) (previews : Table Bytes (Option ConversationPreview)) :
    Table Bytes (Option ConversationPreview) :=
  match p.record with
  | .message v =>
    if resolvedReaction v.value then previews
    else previews.upsert v.value.conversationId (some (previewOf v.value))
      (mergePreview (previewOf v.value))
  | _ => previews

theorem notification_other {p : Passed} (h : ∀ v, p.record ≠ .message v) : p.notification = none := by
  unfold notification
  split
  · next v hv => exact absurd hv (h v)
  · rfl

theorem preview_other {p : Passed} (h : ∀ v, p.record ≠ .message v)
    (previews : Table Bytes (Option ConversationPreview)) : p.preview previews = previews := by
  unfold preview
  split
  · next v hv => exact absurd hv (h v)
  · rfl

end Passed

/-- What applying the record of an event does while the thread of `shown` is
viewed. -/
structure Applied (dec : Decoder) (shown : Bytes) (kind : Kind) (seq : Nat) (e : Event) (s : Store)
    (p : Passed) (s' : Store) : Prop where
  sequence : p.sequence = seq
  decoded : dec.incoming kind e.record = .ok p.record
  origin : p.origin = e.origin
  passed : s'.passed = s.passed ++ [p]
  epoch : s'.epoch = s.epoch
  extensions : s'.acceptedExtensions = s.acceptedExtensions
  synced : s'.synced = s.synced
  seen : ∀ id, (s'.liveSeen.get? id).isSome = true ↔ (s.liveSeen.get? id).isSome = true ∨ p.counts id
  raised : p.raised = true ↔
    ∃ id, p.counts id ∧ s.liveSeen.get? id = none ∧ p.origin = text "live" ∧ p.viewed = false
  viewed : ∀ v, p.record = .message v → (p.viewed = true ↔
    s'.threadKey v.value.conversationId = s'.threadKey shown)
  unread : s'.unread = p.raise s.unread
  previews : s'.previews = p.preview s.previews
  grows : Grows s s'
  landed : Landed s' p.record ∨ p.cached = false ∧ p.origin ≠ text "live" ∧
    ∃ v, p.record = .message v ∧ cacheBackgroundMessage v.value s = false

/-- The record and its cursor are written together. -/
structure Moved (dec : Decoder) (shown : Bytes) (kind : Kind) (seq : Nat) (e : Event) (s : Store)
    (p : Passed) (s' : Store) : Prop extends Applied dec shown kind seq e s p s' where
  cursor : s'.cursor = e.cursor

section Events

variable {c c' : Conn Store Bytes}

theorem threadKey_congr {s s' : Store} (h : s'.records = s.records) (key : Bytes) :
    s'.threadKey key = s.threadKey key := by
  unfold Store.threadKey Store.conversation?
  rw [h]

theorem insertSeen_ok {id : Bytes} {s s' : Store} {first : Bool}
    (h : insertSeen id s = some (first, s')) :
    s' = { s with liveSeen := s'.liveSeen } ∧ (first = true ↔ s.liveSeen.get? id = none) ∧
      ∀ id', (s'.liveSeen.get? id').isSome = true ↔ (s.liveSeen.get? id').isSome = true ∨ id = id' := by
  unfold insertSeen at h
  split at h
  · next seen hinsert =>
    rw [Option.some.injEq, Prod.mk.injEq] at h
    rw [← h.1, ← h.2]
    refine ⟨rfl, ⟨fun _ => Table.get?_of_insert hinsert, fun _ => rfl⟩, fun id' => ?_⟩
    dsimp only
    rw [Table.get?_insert hinsert]
    split_ifs with hid
    · simp [hid]
    · simp [Ne.symm hid]
  · next hnone =>
    rw [Option.some.injEq, Prod.mk.injEq] at h
    have hsome := (Table.insert_eq_none_iff _ _ _).mp hnone
    rw [← h.1, ← h.2]
    refine ⟨rfl, ⟨fun habsurd => (by cases habsurd), fun habsent => ?_⟩, fun id' => ⟨Or.inl, ?_⟩⟩
    · rw [habsent] at hsome
      cases hsome
    · rintro (h | rfl)
      · exact h
      · exact hsome

/-- Counting marks the message, and raises the count of its chat the first time. -/
theorem countUnread_ok {m : Message} {origin viewed : Bytes} {raised : Bool}
    (h : (countUnread m origin viewed).run c = (.ok raised, c')) :
    c'.db = { c.db with
      liveSeen := c'.db.liveSeen
      unread := if raised then c.db.unread.upsert m.conversationId 1 (· + 1) else c.db.unread } ∧
    (raised = true ↔ c.db.liveSeen.get? m.id = none ∧ origin = text "live" ∧
      c.db.threadKey m.conversationId ≠ c.db.threadKey viewed) ∧
    ∀ id, (c'.db.liveSeen.get? id).isSome = true ↔
      (c.db.liveSeen.get? id).isSome = true ∨ m.id = id := by
  obtain ⟨first, c₁, hinsert, h⟩ := Sql.bind_ok h
  obtain ⟨honly, hfirst, hseen⟩ := insertSeen_ok (Sql.statement_ok hinsert).1
  split_ifs at h with hlive
  · simp only [Bool.and_eq_true, decide_eq_true_eq] at hlive
    obtain ⟨thread, c₂, hthread, h⟩ := Sql.bind_ok h
    obtain ⟨rfl, hdb₂⟩ := Sql.query_ok hthread
    obtain ⟨shown, c₃, hshown, h⟩ := Sql.bind_ok h
    obtain ⟨rfl, hdb₃⟩ := Sql.query_ok hshown
    have hkey (key : Bytes) : c₁.db.threadKey key = c.db.threadKey key :=
      threadKey_congr (by rw [honly]) key
    rw [hdb₂, hkey, hkey] at h
    split_ifs at h with hsame
    · obtain ⟨hraised, hc'⟩ := Sql.pure_ok h
      rw [hraised, hc', hdb₃, hdb₂]
      refine ⟨honly, ⟨nofun, fun hall => absurd hsame hall.2.2⟩, hseen⟩
    · obtain ⟨_, c₄, hexecute, h⟩ := Sql.bind_ok h
      obtain ⟨hraised, hc'⟩ := Sql.pure_ok h
      rw [hraised, hc', Sql.execute_ok hexecute, hdb₃, hdb₂]
      refine ⟨?_, ⟨fun _ => ⟨hfirst.mp hlive.1, hlive.2, hsame⟩, fun _ => rfl⟩, hseen⟩
      rw [honly]
      rfl
  · obtain ⟨hraised, hc'⟩ := Sql.pure_ok h
    rw [hraised, hc']
    refine ⟨honly, ⟨nofun, fun hall => ?_⟩, hseen⟩
    exact absurd (by simp [hfirst.mpr hall.1, hall.2.1]) hlive

theorem cacheMessage_ok {record : Decoded Message} {origin : Bytes} {cached : Bool}
    (h : (cacheMessage record origin).run c = (.ok cached, c')) :
    outline c'.db = outline c.db ∧ Grows c.db c'.db ∧
      (Landed c'.db (.message record) ∨ cached = false ∧ origin ≠ text "live" ∧
        cacheBackgroundMessage record.value c.db = false) := by
  have hwrite {c c' : Conn Store Bytes} {cached : Bool} (h : (do
      let _ ← writeRecord false (.message record)
      return true : Tx Bool).run c = (.ok cached, c')) :
      outline c'.db = outline c.db ∧ Grows c.db c'.db ∧ Landed c'.db (.message record) := by
    obtain ⟨_, c₁, hwritten, h⟩ := Sql.bind_ok h
    rw [(Sql.pure_ok h).2]
    exact ⟨writeRecord_outline.run hwritten, writeRecord_grows.run hwritten,
      writeRecord_landed hwritten⟩
  unfold cacheMessage at h
  split_ifs at h with hlive
  · have hwritten := hwrite h
    exact ⟨hwritten.1, hwritten.2.1, Or.inl hwritten.2.2⟩
  · obtain ⟨found, c₁, hfound, h⟩ := Sql.bind_ok h
    obtain ⟨hcached, hdb₁⟩ := Sql.query_ok hfound
    split_ifs at h with hyes
    · have hwritten := hwrite h
      rw [hdb₁] at hwritten
      exact ⟨hwritten.1, hwritten.2.1, Or.inl hwritten.2.2⟩
    · obtain ⟨hresult, hc'⟩ := Sql.pure_ok h
      rw [hc', hdb₁]
      refine ⟨rfl, Std.Refl.refl _, Or.inr ⟨hresult, hlive, ?_⟩⟩
      rw [← hcached]
      simpa using hyes

theorem previewMessage_ok {m : Message} {u : Unit}
    (h : (previewMessage m).run c = (.ok u, c')) :
    c'.db = { c.db with
      previews := if resolvedReaction m then c.db.previews
        else c.db.previews.upsert m.conversationId (some (previewOf m))
          (mergePreview (previewOf m)) } := by
  unfold previewMessage at h
  split_ifs at h with hresolved
  · rw [(Sql.pure_ok h).2, if_pos hresolved]
  · obtain ⟨_, c₁, hrequire, h⟩ := Sql.bind_ok h
    rw [if_neg hresolved, Sql.execute_ok h, (Sql.require_ok hrequire).2]
    rfl

theorem countMessage_ok {m : Message} {origin viewed : Bytes} {raised : Bool}
    (h : (countMessage m origin viewed).run c = (.ok raised, c')) :
    c'.db = { c.db with
      liveSeen := c'.db.liveSeen
      unread := if raised then c.db.unread.upsert m.conversationId 1 (· + 1) else c.db.unread } ∧
    (raised = true ↔ countable m = true ∧ c.db.liveSeen.get? m.id = none ∧ origin = text "live" ∧
      c.db.threadKey m.conversationId ≠ c.db.threadKey viewed) ∧
    ∀ id, (c'.db.liveSeen.get? id).isSome = true ↔
      (c.db.liveSeen.get? id).isSome = true ∨ countable m = true ∧ m.id = id := by
  unfold countMessage at h
  split_ifs at h with hcountable
  · obtain ⟨honly, hraised, hseen⟩ := countUnread_ok h
    simp only [hcountable, true_and]
    exact ⟨honly, hraised, hseen⟩
  · obtain ⟨hraised, hc'⟩ := Sql.pure_ok h
    rw [hraised, hc']
    exact ⟨rfl, by simp [hcountable], by simp [hcountable]⟩

theorem incoming_kind {dec : Decoder} {kind : Kind} {raw : Bytes} {r : Incoming}
    (h : dec.incoming kind raw = .ok r) : r.kind = kind := by
  have hmap {α : Type} {x : Except Error α} {f : α → Incoming} (hf : ∀ v, (f v).kind = kind)
      (h : x.map f = .ok r) : r.kind = kind := by
    cases x with
    | error e => exact nomatch h
    | ok v =>
      rw [← Except.ok.inj h]
      exact hf v
  cases kind <;> exact hmap (fun _ => rfl) h

theorem messageEvent_ok {dec : Decoder} {seq : Nat} {e : Event} {viewed : Bytes}
    {n : Option Message} (h : (messageEvent dec seq e viewed).run c = (.ok n, c')) :
    ∃ p, Applied dec viewed .message seq e c.db p c'.db ∧ n = p.notification := by
  obtain ⟨_, c₁, hcheck, h⟩ := Sql.bind_ok h
  obtain ⟨m, c₂, hm, h⟩ := Sql.bind_ok h
  obtain ⟨_, c₃, hvalid, h⟩ := Sql.bind_ok h
  obtain ⟨cached, c₄, hcache, h⟩ := Sql.bind_ok h
  obtain ⟨_, c₅, hpreview, h⟩ := Sql.bind_ok h
  obtain ⟨raised, c₆, hcount, h⟩ := Sql.bind_ok h
  obtain ⟨_, c₇, hnote, h⟩ := Sql.bind_ok h
  obtain ⟨hn, hc'⟩ := Sql.pure_ok h
  have hread : c₃ = c := by
    rw [(Sql.lift_ok hvalid).2, (Sql.lift_ok hm).2, (Sql.lift_ok hcheck).2]
  rw [hread] at hcache
  obtain ⟨houtline, hgrows, hlanded⟩ := cacheMessage_ok hcache
  have hshown := previewMessage_ok hpreview
  obtain ⟨hcounted, hraised, hseen⟩ := countMessage_ok hcount
  have hdb : c'.db = _ := congrArg Conn.db (hc'.trans (Sql.note_ok hnote))
  simp only [outline, Prod.mk.injEq] at houtline
  obtain ⟨hepoch, hcursor, hextensions, hunread, hliveSeen, hpreviews, hpassed, hsynced⟩ := houtline
  have hafter : c₆.db = { c₄.db with
      previews := c₅.db.previews, liveSeen := c₆.db.liveSeen, unread := c₆.db.unread } := by
    rw [hcounted, hshown]
  have hpassed₆ : c₆.db.passed = c.db.passed := by
    rw [hafter]
    exact hpassed
  have hkey (key : Bytes) : c₆.db.threadKey key = c₅.db.threadKey key :=
    threadKey_congr (by rw [hcounted]) key
  have hliveSeen₅ : c₅.db.liveSeen = c.db.liveSeen := by
    rw [hshown]
    exact hliveSeen
  have hunread₅ : c₅.db.unread = c.db.unread := by
    rw [hshown]
    exact hunread
  let p : Passed := {
    sequence := seq, record := .message { value := m, raw := e.record }, origin := e.origin
    cached := cached, viewed := c₆.db.threadKey m.conversationId = c₆.db.threadKey viewed
    raised := raised }
  have hcounts (id : Bytes) : p.counts id ↔ countable m = true ∧ m.id = id := by
    constructor
    · rintro ⟨v, hv, hid, hcountable⟩
      obtain rfl := Incoming.message.inj hv
      exact ⟨hcountable, hid⟩
    · rintro ⟨hcountable, hid⟩
      exact ⟨_, rfl, hid, hcountable⟩
  refine ⟨p, {
    sequence := rfl
    decoded := ?_
    origin := rfl
    passed := ?_
    epoch := ?_
    extensions := ?_
    synced := ?_
    seen := fun id => ?_
    raised := ?_
    viewed := ?_
    unread := ?_
    previews := ?_
    grows := ?_
    landed := ?_ }, ?_⟩
  · rw [Decoder.incoming, (Sql.lift_ok hm).1]
    rfl
  · rw [hdb, ← hpassed₆]
    rfl
  · rw [hdb, hafter]
    exact hepoch
  · rw [hdb, hafter]
    exact hextensions
  · rw [hdb, hafter]
    exact hsynced
  · rw [hdb, hcounts, ← hliveSeen₅]
    exact hseen id
  · rw [hraised, hliveSeen₅]
    constructor
    · rintro ⟨hcountable, hnew, hlive, hother⟩
      refine ⟨m.id, (hcounts m.id).mpr ⟨hcountable, rfl⟩, hnew, hlive, ?_⟩
      simp [p, hkey, hother]
    · rintro ⟨id, hid, hnew, hlive, hviewed⟩
      obtain ⟨hcountable, rfl⟩ := (hcounts id).mp hid
      refine ⟨hcountable, hnew, hlive, ?_⟩
      simpa [p, hkey] using hviewed
  · intro v hv
    rw [← Incoming.message.inj hv, hdb]
    exact decide_eq_true_iff
  · rw [hdb]
    change c₆.db.unread = _
    rw [hcounted, hunread₅]
    unfold Passed.raise Passed.notification
    cases raised <;> rfl
  · rw [hdb, hafter]
    change c₅.db.previews = _
    rw [hshown, hpreviews]
    rfl
  · rw [hdb, hafter]
    exact IsTrans.trans _ _ _ hgrows (Grows.of_tables rfl)
  · rw [hdb, hafter]
    refine hlanded.imp (fun h => h.grow (Grows.of_tables rfl) rfl) fun ⟨hnot, hlive, hold⟩ => ?_
    exact ⟨hnot, hlive, _, rfl, hold⟩
  · rw [hn]
    rfl

theorem upsertEvent_ok {dec : Decoder} {shown : Bytes} {seq : Nat} {kind : Kind} {e : Event}
    {n : Option Message}
    (hkind : kind ≠ .message)
    (h : (do
      let record ← upsert dec false kind e.record
      Sql.note (pass { sequence := seq, record := record, origin := e.origin })
      return none : Tx (Option Message)).run c = (.ok n, c')) :
    ∃ p, Applied dec shown kind seq e c.db p c'.db ∧ n = p.notification := by
  obtain ⟨record, c₁, hupsert, h⟩ := Sql.bind_ok h
  obtain ⟨_, c₂, hnote, h⟩ := Sql.bind_ok h
  obtain ⟨hn, hc'⟩ := Sql.pure_ok h
  obtain ⟨_, c₃, hcheck, hupsert⟩ := Sql.bind_ok hupsert
  obtain ⟨record', c₄, hdecode, hupsert⟩ := Sql.bind_ok hupsert
  obtain ⟨_, c₅, hwrite, hupsert⟩ := Sql.bind_ok hupsert
  obtain ⟨rfl, hc₅⟩ := Sql.pure_ok hupsert
  obtain ⟨hdecoded, hc₄⟩ := Sql.lift_ok hdecode
  have hread : c₄ = c := hc₄.trans (Sql.lift_ok hcheck).2
  rw [hread] at hwrite
  have hdb : c'.db = _ := congrArg Conn.db (hc'.trans (Sql.note_ok hnote))
  have houtline := writeRecord_outline.run hwrite
  have hgrows := writeRecord_grows.run hwrite
  have hlanded := writeRecord_landed hwrite
  rw [← hc₅] at houtline hgrows hlanded
  simp only [outline, Prod.mk.injEq] at houtline
  obtain ⟨hepoch, hcursor, hextensions, hunread, hliveSeen, hpreviews, hpassed, hsynced⟩ := houtline
  let p : Passed := { sequence := seq, record := record, origin := e.origin }
  have hnot (v : Decoded Message) : record ≠ .message v := by
    rintro rfl
    exact hkind (incoming_kind hdecoded).symm
  have hcounts (id : Bytes) : ¬ p.counts id := fun ⟨v, hv, _⟩ => hnot v hv
  refine ⟨p, {
    sequence := rfl
    decoded := hdecoded
    origin := rfl
    passed := ?_
    epoch := ?_
    extensions := ?_
    synced := ?_
    seen := fun id => ?_
    raised := ⟨nofun, fun ⟨id, hid, _⟩ => absurd hid (hcounts id)⟩
    viewed := fun v hv => absurd hv (hnot v)
    unread := ?_
    previews := ?_
    grows := ?_
    landed := ?_ }, ?_⟩
  · rw [hdb, ← hpassed]
    rfl
  · rw [hdb]
    exact hepoch
  · rw [hdb]
    exact hextensions
  · rw [hdb]
    exact hsynced
  · rw [hdb, ← hliveSeen]
    exact (or_iff_left (hcounts id)).symm
  · rw [hdb, Passed.raise, Passed.notification_other hnot]
    exact hunread
  · rw [hdb, Passed.preview_other hnot]
    exact hpreviews
  · rw [hdb]
    exact IsTrans.trans _ _ _ hgrows (Grows.of_tables rfl)
  · rw [hdb]
    exact Or.inl (hlanded.grow (Grows.of_tables rfl) rfl)
  · rw [hn, Passed.notification_other hnot]

/-- An event that is applied is recorded as passed, and its cursor is stored. -/
theorem applyEvent_ok {dec : Decoder} {seq : Nat} {kind : Kind} {e : Event} {viewed : Bytes}
    {n : Option Message} (h : (applyEvent dec seq kind e viewed).run c = (.ok n, c')) :
    ∃ p, Moved dec viewed kind seq e c.db p c'.db ∧ n = p.notification := by
  obtain ⟨found, c₁, hrecord, h⟩ := Sql.bind_ok h
  obtain ⟨_, c₂, hcursor, h⟩ := Sql.bind_ok h
  obtain ⟨hn, hc'⟩ := Sql.pure_ok h
  have happlied : ∃ p, Applied dec viewed kind seq e c.db p c₁.db ∧ found = p.notification := by
    by_cases hkind : kind = .message
    · rw [hkind] at hrecord ⊢
      exact messageEvent_ok hrecord
    · refine upsertEvent_ok hkind ?_
      cases kind with
      | message => exact absurd rfl hkind
      | _ => exact hrecord
  obtain ⟨p, happlied, hfound⟩ := happlied
  rw [hc', Sql.execute_ok hcursor]
  have hgrows : Grows c₁.db { c₁.db with cursor := e.cursor } := Grows.of_tables rfl
  exact ⟨p, { happlied with
    grows := IsTrans.trans _ _ _ happlied.grows hgrows
    landed := happlied.landed.imp_left fun h => h.grow hgrows rfl
    viewed := happlied.viewed
    cursor := rfl }, hn.trans hfound⟩

end Events

end Zimbr.Client
