import Zimbr.Library.ChangeLog
import Zimbr.Relay.Core

set_option autoImplicit false

/-!
# What a committed write does to the journal

Every write of a versioned record allocates one number, stores the record and
appends its event; everything else leaves the versioned records alone.
-/
namespace Zimbr.Relay
open Library

def stored (j : Journal) : Record.Kind × Bytes → Option Record
  | (.conversation, id) => (j.conversations.get? id).map fun r => .conversation r.record
  | (.message, id) => (j.messages.get? id).map fun r => .message r.record
  | (.identity, id) => (j.identities.get? id).map fun r => .identity r.record
  | (.request, id) => (j.sendRequests.get? id).map fun r => .request r.record

/-- The tables of sends and of their originals, and the epoch they belong to. -/
structure SameSends (j j' : Journal) : Prop where
  epoch : j'.epoch = j.epoch
  sendRequests : j'.sendRequests = j.sendRequests
  sendParts : j'.sendParts = j.sendParts
  sendOwners : j'.sendOwners = j.sendOwners
  held : j'.held = j.held
  uploads : j'.uploads = j.uploads

/-- The log and every versioned record are as they were. -/
structure Silent (j j' : Journal) : Prop where
  epoch : j'.epoch = j.epoch
  sequence : j'.sequence = j.sequence
  prunedThrough : j'.prunedThrough = j.prunedThrough
  events : j'.events = j.events
  log : j'.log = j.log
  held : j'.held = j.held
  stored : ∀ k, stored j' k = stored j k

structure Published (j : Journal) (r : Record) (j' : Journal) : Prop where
  revision : r.revision = j.sequence + 1
  room : j.sequence < maxInt
  epoch : j'.epoch = j.epoch
  sequence : j'.sequence = j.sequence + 1
  prunedThrough : j'.prunedThrough = j.prunedThrough
  held : j'.held = j.held
  log : ∃ origin, j'.log = j.log ++ [{ sequence := j.sequence + 1, record := r, origin := origin }] ∧
    ∃ now, j.events.insert (j.sequence + 1) { record := r, origin := origin, createdMs := now } =
      some j'.events
  stored : ∀ k, stored j' k = if k = r.key then some r else stored j k

section Primitives

variable {c c' : Conn Journal Bytes} {now : Int}

theorem next_ok {seq : Nat} (h : next.run c = (.ok seq, c')) :
    c.db.sequence < maxInt ∧ seq = c.db.sequence + 1 ∧
      c'.db = { c.db with sequence := c.db.sequence + 1 } := by
  obtain ⟨_, c₁, hadd, hread⟩ := Sql.bind_ok h
  have hadd := Sql.execute?_ok hadd
  obtain ⟨hseq, hdb⟩ := Sql.query_ok hread
  simp only [Option.ite_none_right_eq_some, Option.some.injEq] at hadd
  obtain ⟨hroom, hc₁⟩ := hadd
  rw [hdb]
  exact ⟨hroom, by rw [hseq, ← hc₁], hc₁.symm⟩

theorem event_ok {seq : Nat} {record : Record} {origin : Origin} {u : Unit}
    (h : (event seq record origin now).run c = (.ok u, c')) :
    ∃ events, c.db.events.insert seq { record := record, origin := origin, createdMs := now } =
      some events ∧
    c'.db = { c.db with
      events := events
      log := c.db.log ++ [{ sequence := seq, record := record, origin := origin }] } := by
  have h := Sql.execute?_ok h
  rw [Option.map_eq_some_iff] at h
  obtain ⟨events, hevents, hdb⟩ := h
  exact ⟨events, hevents, hdb.symm⟩

end Primitives

section Requests

def writeRow (v : SendRequest) (r : SendRequestRow) : SendRequestRow :=
  { r with state := v.state, record := v, messageId := v.messageId }

def partRow (part : SendPart) (old : Option SendPartRow) : SendPartRow :=
  { old.getD { state := part.state } with state := part.state, messageId := part.messageId }

def writtenPart (v : SendRequest) (key : Bytes × Nat) (old : Option SendPartRow) :
    Option SendPartRow :=
  if key.1 = v.requestId then
    match v.parts[key.2]? with
    | some part => some (partRow part old)
    | none => old
  else old

/-- An upload row stays as it was, or a part that was never executed gives up
the original its request had pinned. -/
def Given (id : Bytes) (parts : List SendPart) (uploadId : Bytes) (old new : Option UploadRow) :
    Prop :=
  new = old ∨ ∃ r part, old = some r ∧ r.state = .pinned ∧ r.requestId = some id ∧
    part ∈ parts ∧ unstartedAttachment part = true ∧ part.attachmentId = some uploadId ∧
    new = some { r with state := .deleting }

/-- The journal after `updateRequest` wrote `v`, its revision included. -/
structure Updated (j : Journal) (v : SendRequest) (j' : Journal) : Prop where
  revision : v.revision = j.sequence + 1
  room : j.sequence < maxInt
  free : requestMessageFree v.requestId v.messageId j = true
  parts : ∀ key, j'.sendParts.get? key = writtenPart v key (j.sendParts.get? key)
  uploads : ∀ id, Given v.requestId v.parts id (j.uploads.get? id) (j'.uploads.get? id)
  effect : ∃ now events table uploads,
    j.events.insert (j.sequence + 1) {
      record := .request v, origin := .reconciliation, createdMs := now } = some events ∧
    j' = { j with
      sequence := j.sequence + 1
      sendRequests := j.sendRequests.modify v.requestId (writeRow v)
      sendParts := table
      uploads := uploads
      events := events
      log := j.log ++ [{
        sequence := j.sequence + 1, record := .request v, origin := .reconciliation }] }

variable {c c' : Conn Journal Bytes} {now : Int}

theorem setPart_some {id : Bytes} {ordinal : Nat} {part : SendPart} {j j' : Journal}
    (h : setPart id ordinal part j = some j') :
    ∃ parts, j' = { j with sendParts := parts } ∧ ∀ key, parts.get? key =
      if key = (id, ordinal) then some (partRow part (j.sendParts.get? key))
      else j.sendParts.get? key := by
  simp only [setPart, Option.ite_none_right_eq_some, Option.some.injEq] at h
  refine ⟨_, h.2.symm, fun key => ?_⟩
  rw [Table.get?_upsert]
  split_ifs with hkey
  · rw [hkey]
    cases j.sendParts.get? (id, ordinal) <;> rfl
  · rfl

/-- Releasing an original retires its row, if the request has it pinned. -/
theorem releasePart_get? (requestId uploadId : Bytes) (j : Journal) (id : Bytes) :
    let j' := Uploads.setPhase (fun id r => id = uploadId && r.requestId = some requestId &&
      r.state = .pinned) .deleting j
    j'.uploads.get? id = j.uploads.get? id ∨ id = uploadId ∧ ∃ r, j.uploads.get? id = some r ∧
      r.state = .pinned ∧ r.requestId = some requestId ∧
      j'.uploads.get? id = some { r with state := .deleting } := by
  simp only [Uploads.setPhase, Table.get?_modifyWhere]
  cases hr : j.uploads.get? id with
  | none => exact Or.inl rfl
  | some r =>
    by_cases hp : (id = uploadId ∧ r.requestId = some requestId) ∧ r.state = .pinned
    · exact Or.inr ⟨hp.1.1, r, rfl, hp.2, hp.1.2, by simp [hp]⟩
    · left
      simp [hp]

theorem updatePart_ok {id : Bytes} {part : SendPart × Nat} {u : Unit}
    (h : (updatePart id part).run c = (.ok u, c')) :
    ∃ parts uploads, c'.db = { c.db with sendParts := parts, uploads := uploads } ∧
      (∀ key, parts.get? key =
        if key = (id, part.2) then some (partRow part.1 (c.db.sendParts.get? key))
        else c.db.sendParts.get? key) ∧
      ∀ uploadId, Given id [part.1] uploadId (c.db.uploads.get? uploadId) (uploads.get? uploadId) := by
  obtain ⟨_, c₁, hset, h⟩ := Sql.bind_ok h
  obtain ⟨parts, hdb, hparts⟩ := setPart_some (Sql.execute?_ok hset)
  split_ifs at h with hunstarted
  · obtain ⟨attachment, c₂, hattachment, hrelease⟩ := Sql.bind_ok h
    obtain ⟨hattachment, hc₂⟩ := Sql.orThrow_ok hattachment
    have hrelease := Sql.execute_ok hrelease
    refine ⟨parts, c'.db.uploads, ?_, hparts, fun uploadId => ?_⟩
    · rw [hrelease, hc₂, hdb]
      rfl
    · rw [hrelease, hc₂, hdb]
      refine (releasePart_get? id attachment _ uploadId).imp_right ?_
      rintro ⟨rfl, r, hr, hpinned, howner, hafter⟩
      exact ⟨r, part.1, hr, hpinned, howner, List.mem_singleton_self _, hunstarted, hattachment,
        hafter⟩
  · obtain ⟨-, hc'⟩ := Sql.pure_ok h
    refine ⟨parts, c.db.uploads, ?_, hparts, fun _ => Or.inl rfl⟩
    rw [hc', hdb]

theorem Given.trans {id uploadId : Bytes} {part : SendPart} {rest : List SendPart}
    {old middle new : Option UploadRow} (h : Given id [part] uploadId old middle)
    (h' : Given id rest uploadId middle new) : Given id (part :: rest) uploadId old new := by
  rcases h with rfl | ⟨r, p, hr, hpinned, howner, hp, hunstarted, hid, rfl⟩
  · refine h'.imp_right ?_
    rintro ⟨r, p, hr, hpinned, howner, hp, hrest⟩
    exact ⟨r, p, hr, hpinned, howner, List.mem_cons_of_mem part hp, hrest⟩
  · rcases h' with rfl | ⟨r', p', hr', hpinned', -⟩
    · rw [List.mem_singleton.mp hp] at hunstarted hid
      exact Or.inr ⟨r, part, hr, hpinned, howner, List.mem_cons_self, hunstarted, hid, rfl⟩
    · rw [← Option.some.inj hr'] at hpinned'
      exact nomatch hpinned'

theorem updateParts_ok {id : Bytes} {parts : List SendPart} {n : Nat} {u : Unit}
    (h : (Sql.each (updatePart id) (parts.zipIdx n)).run c = (.ok u, c')) :
    ∃ table uploads, c'.db = { c.db with sendParts := table, uploads := uploads } ∧
      (∀ key, table.get? key =
        if key.1 = id ∧ n ≤ key.2 then
          match parts[key.2 - n]? with
          | some part => some (partRow part (c.db.sendParts.get? key))
          | none => c.db.sendParts.get? key
        else c.db.sendParts.get? key) ∧
      ∀ uploadId, Given id parts uploadId (c.db.uploads.get? uploadId) (uploads.get? uploadId) := by
  induction parts generalizing c n with
  | nil =>
    obtain ⟨-, hc'⟩ := Sql.pure_ok h
    exact ⟨c.db.sendParts, c.db.uploads, by rw [hc'], fun key => by simp, fun _ => Or.inl rfl⟩
  | cons part rest ih =>
    obtain ⟨_, c₁, hpart, hrest⟩ := Sql.bind_ok h
    obtain ⟨table₁, uploads₁, hdb₁, hget₁, hgiven₁⟩ := updatePart_ok hpart
    obtain ⟨table, uploads, hdb, hget, hgiven⟩ := ih hrest
    refine ⟨table, uploads, by rw [hdb, hdb₁], fun key => ?_, fun uploadId => ?_⟩
    swap
    · rw [hdb₁] at hgiven
      exact (hgiven₁ uploadId).trans (hgiven uploadId)
    have hparts₁ : c₁.db.sendParts.get? key =
        if key = (id, n) then some (partRow part (c.db.sendParts.get? key))
        else c.db.sendParts.get? key := by
      rw [hdb₁]
      exact hget₁ key
    rw [hget key, hparts₁]
    by_cases hid : key.1 = id
    · rcases Nat.lt_trichotomy key.2 n with hlt | heq | hlt
      · have hne : key ≠ (id, n) := fun h => by simp [h] at hlt
        simp [hid, hne, Nat.not_le.mpr hlt, Nat.not_le.mpr (Nat.lt_succ_of_lt hlt)]
      · have hkey : key = (id, n) := Prod.ext hid heq
        simp [hkey]
      · have hne : key ≠ (id, n) := fun h => by simp [h] at hlt
        obtain ⟨m, hm⟩ : ∃ m, key.2 - n = m + 1 := ⟨key.2 - n - 1, by omega⟩
        have hm' : key.2 - (n + 1) = m := by omega
        have hle : n + 1 ≤ key.2 := hlt
        simp [hid, hne, hm, hm', Nat.le_of_lt hlt, hle]
    · have hne : key ≠ (id, n) := fun h => hid (by rw [h])
      simp [hid, hne]

/-- `updateRequest` writes the columns, the parts and the event together. -/
theorem updateRequest_ok {value v : SendRequest}
    (h : (updateRequest now value).run c = (.ok v, c')) :
    v = { value with revision := c.db.sequence + 1 } ∧ Updated c.db v c'.db := by
  obtain ⟨seq, c₁, hnext, h⟩ := Sql.bind_ok h
  obtain ⟨hroom, rfl, hdb₁⟩ := next_ok hnext
  obtain ⟨_, c₂, hset, h⟩ := Sql.bind_ok h
  have hset := Sql.execute?_ok hset
  simp only [setRequest, Option.ite_none_right_eq_some, Option.some.injEq] at hset
  obtain ⟨hfree, hdb₂⟩ := hset
  obtain ⟨_, c₃, hparts, h⟩ := Sql.bind_ok h
  obtain ⟨table, uploads, hdb₃, hget, hgiven⟩ := updateParts_ok hparts
  obtain ⟨_, c₄, hevent, h⟩ := Sql.bind_ok h
  obtain ⟨events, hinsert, hdb₄⟩ := event_ok hevent
  obtain ⟨hv, hc'⟩ := Sql.pure_ok h
  rw [hc', hv]
  rw [← hdb₂, hdb₁] at hdb₃ hget hgiven
  rw [hdb₁] at hfree
  rw [hdb₃] at hdb₄ hinsert
  refine ⟨rfl, rfl, hroom, hfree, fun key => ?_, fun id => by rw [hdb₄]; exact hgiven id,
    now, events, table, uploads, hinsert, hdb₄⟩
  rw [hdb₄, writtenPart]
  change table.get? key = _
  rw [hget key]
  by_cases hid : key.1 = value.requestId
  · simp only [hid, Nat.zero_le, and_self, if_true, Nat.sub_zero]
  · simp [hid]

section Updated

variable {j j' : Journal} {v : SendRequest} (h : Updated j v j')
include h

theorem Updated.epoch : j'.epoch = j.epoch := by
  obtain ⟨now, events, table, uploads, -, hj⟩ := h.effect
  rw [hj]

theorem Updated.sendRequests :
    j'.sendRequests = j.sendRequests.modify v.requestId (writeRow v) := by
  obtain ⟨now, events, table, uploads, -, hj⟩ := h.effect
  rw [hj]

theorem Updated.sendOwners : j'.sendOwners = j.sendOwners := by
  obtain ⟨now, events, table, uploads, -, hj⟩ := h.effect
  rw [hj]

theorem Updated.get? (id : Bytes) :
    j'.sendRequests.get? id =
      if id = v.requestId then (j.sendRequests.get? id).map (writeRow v)
      else j.sendRequests.get? id := by
  rw [h.sendRequests, Table.get?_modify]

theorem Updated.published (hrow : (j.sendRequests.get? v.requestId).isSome = true) :
    Published j (.request v) j' := by
  have hget := h.get?
  obtain ⟨now, events, table, uploads, hevents, hj⟩ := h.effect
  refine ⟨h.revision, h.room, by rw [hj], by rw [hj], by rw [hj], by rw [hj],
    ⟨.reconciliation, by rw [hj], now, by rw [hj]; exact hevents⟩, ?_⟩
  rintro ⟨kind, id⟩
  obtain ⟨row, hrow⟩ := Option.isSome_iff_exists.mp hrow
  cases kind with
  | request =>
    by_cases hid : id = v.requestId
    · subst hid
      simp [stored, hget, hrow, Record.key, Record.kind, Record.id, writeRow]
    · simp [stored, hget, hid, Record.key, Record.kind, Record.id]
  | conversation => simp [stored, hj, Record.key, Record.kind]
  | message => simp [stored, hj, Record.key, Record.kind]
  | identity => simp [stored, hj, Record.key, Record.kind]

end Updated

end Requests

end Zimbr.Relay
