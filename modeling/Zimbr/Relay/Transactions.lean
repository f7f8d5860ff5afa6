import Zimbr.Relay.Changes

set_option autoImplicit false

/-!
# The relay's transactions

What each of them commits. A failed one leaves the journal as it was.
-/
namespace Zimbr.Relay
open Library

/-- The key and the columns of a request row agree with its record. -/
structure RowOk (id : Bytes) (row : SendRequestRow) : Prop where
  requestId : row.record.requestId = id
  serverEpoch : row.record.serverEpoch = row.epoch
  state : row.state = row.record.state
  messageId : row.messageId = row.record.messageId

def Keyed (j : Journal) : Prop :=
  ∀ id row, j.sendRequests.get? id = some row → RowOk id row

section Keys

variable {scope : Scope} {j j' : Journal}

theorem RowOk.core {id : Bytes} {row row' : SendRequestRow} (h : RowOk id row)
    (hcore : row'.core = row.core) : RowOk id row' := by
  simp only [SendRequestRow.core, Prod.mk.injEq] at hcore
  obtain ⟨hepoch, -, hrecord, hstate, hmessage⟩ := hcore
  exact ⟨by rw [hrecord, h.requestId], by rw [hrecord, hepoch, h.serverEpoch],
    by rw [hstate, hrecord, h.state], by rw [hmessage, hrecord, h.messageId]⟩

theorem RowOk.written {id : Bytes} {row : SendRequestRow} {v : SendRequest} (h : RowOk id row)
    (hv : Follows row.record v) (revision : Nat) :
    RowOk id (writeRow { v with revision := revision } row) :=
  ⟨hv.requestId.trans h.requestId, hv.serverEpoch.trans h.serverEpoch, rfl, rfl⟩

theorem Quiet.before (h : Quiet j j') {id : Bytes} {row' : SendRequestRow}
    (hrow' : j'.sendRequests.get? id = some row') :
    ∃ row, j.sendRequests.get? id = some row ∧ row'.core = row.core := by
  have hrows := h.rows id
  rw [hrow', Option.map_some, eq_comm, Option.map_eq_some_iff] at hrows
  obtain ⟨row, hrow, hcore⟩ := hrows
  exact ⟨row, hrow, hcore.symm⟩

theorem Quiet.after (h : Quiet j j') {id : Bytes} {row : SendRequestRow}
    (hrow : j.sendRequests.get? id = some row) :
    ∃ row', j'.sendRequests.get? id = some row' ∧ row'.core = row.core := by
  have hrows := h.rows id
  rw [hrow, Option.map_some, Option.map_eq_some_iff] at hrows
  exact hrows

theorem Quiet.keyed (h : Quiet j j') (hk : Keyed j) : Keyed j' := by
  intro id row' hrow'
  obtain ⟨row, hrow, hcore⟩ := h.before hrow'
  exact (hk id row hrow).core hcore

theorem writeRow_revision (v : SendRequest) (row : SendRequestRow) :
    writeRow v row = writeRow { v with revision := v.revision } row := rfl

theorem Change.keyed (h : Change scope j j') (hk : Keyed j) : Keyed j' := by
  cases h with
  | quiet h _ => exact h.keyed hk
  | published r _ h _ => exact h.keyed hk
  | request v row found follows _ _ updated =>
    intro id row' hrow'
    rw [updated.get?] at hrow'
    split_ifs at hrow' with hid
    · subst hid
      rw [found, Option.map_some, Option.some.injEq] at hrow'
      rw [← hrow', writeRow_revision]
      exact (hk _ row found).written follows v.revision
    · exact hk id row' hrow'
  | accepted input owner v h =>
    intro id row' hrow'
    obtain ⟨route, now, hrows⟩ := h.rows
    rw [hrows] at hrow'
    split_ifs at hrow' with hid
    · rw [Option.some.injEq] at hrow'
      rw [← hrow', hid, h.record]
      exact ⟨rfl, rfl, rfl, rfl⟩
    · exact hk id row' hrow'
  | pruned cut h =>
    intro id row' hrow'
    rw [h.effect] at hrow'
    exact hk id row' hrow'
  | ledger _ h =>
    obtain ⟨uploads, rfl⟩ := h.only
    exact hk
  | reset epoch _ h =>
    intro id row' hrow'
    cases h.requests id with
    | absent _ after _ => simp [after] at hrow'
    | settled row before _ after _ =>
      rw [after, Option.some.injEq] at hrow'
      exact hrow' ▸ hk id row before
    | written row v revision before _ _ held after _ =>
      rw [after, Option.some.injEq] at hrow'
      rw [← hrow']
      exact (hk id row before).written (heldRequest_follows held).1 revision
    | legacy row v before _ _ held after _ =>
      rw [after, Option.some.injEq] at hrow'
      rw [← hrow', writeRow_revision]
      exact (hk id row before).written (heldRequest_follows held).1 v.revision

theorem Changed.keyed (h : Changed scope j j') (hk : Keyed j) : Keyed j' := by
  induction h with
  | refl => exact hk
  | tail _ h ih => exact h.keyed ih

end Keys

section Acceptance

variable {c c' : Conn Journal Bytes} {now : Int} {u : Unit}

theorem uploads_lookup_reads (owner epoch id : Bytes) :
    Sql.Reads (Uploads.lookup owner epoch id) := by
  apply Sql.Reads.bind Sql.Reads.require
  intro _
  apply Sql.Reads.bind
  · apply Sql.Reads.bind Sql.Reads.require
    intro _
    exact Sql.Reads.bind Sql.Reads.query fun _ => Sql.Reads.require
  · intro _
    apply Sql.Reads.bind Sql.Reads.query
    intro row
    cases row with
    | none => exact Sql.Reads.throw
    | some r => exact Sql.Reads.bind Sql.Reads.require fun _ => Sql.Reads.pure

theorem uploads_lookup_ok {owner epoch id : Bytes} {found : Uploads.Found}
    (h : (Uploads.lookup owner epoch id).run c = (.ok found, c')) :
    (validId id = true ∧ epoch = c.db.epoch ∧ c'.fresh = c.fresh) ∧
      ∃ r, c.db.uploads.get? id = some r ∧ r.owner = owner ∧ r.epoch = epoch ∧
        r.state ≠ .deleting ∧
        found = { serverEpoch := r.epoch, file := r.record, phase := r.state } := by
  obtain ⟨_, c₁, hid, h⟩ := Sql.bind_ok h
  obtain ⟨hid, hc₁⟩ := Sql.require_ok hid
  rw [hc₁] at h
  obtain ⟨_, c₂, hepoch, h⟩ := Sql.bind_ok h
  obtain ⟨_, c₃, hvalid, hepoch⟩ := Sql.bind_ok hepoch
  rw [(Sql.require_ok hvalid).2] at hepoch
  obtain ⟨current, c₄, hcurrent, hepoch⟩ := Sql.bind_ok hepoch
  have hfresh₄ := (Sql.statement_ok hcurrent).2
  obtain ⟨hcurrent, hdb₄⟩ := Sql.query_ok hcurrent
  obtain ⟨hepoch, hc₂⟩ := Sql.require_ok hepoch
  obtain ⟨row, c₅, hrow, h⟩ := Sql.bind_ok h
  have hfresh₅ := (Sql.statement_ok hrow).2
  obtain ⟨hrow, -⟩ := Sql.query_ok hrow
  rw [hc₂, hdb₄] at hrow
  cases row with
  | none => exact (Sql.throw_ok h).elim
  | some r =>
    obtain ⟨_, c₆, hphase, h⟩ := Sql.bind_ok h
    obtain ⟨hphase, hc₆⟩ := Sql.require_ok hphase
    obtain ⟨hfound, hc'⟩ := Sql.pure_ok h
    obtain ⟨hr, howner⟩ := Option.filter_eq_some_iff.mp hrow.symm
    simp only [Bool.and_eq_true, decide_eq_true_eq, bne_iff_ne, ne_eq] at hphase
    refine ⟨⟨hid, ?_, ?_⟩, r, hr, by simpa using howner, hphase.1, hphase.2, hfound⟩
    · rw [← hcurrent]
      simpa using hepoch
    · rw [hc', hc₆, hfresh₅, hc₂, hfresh₄]

theorem pinnable_reads (owner epoch : Bytes) (file : Upload) :
    Sql.Reads (Uploads.pinnable owner epoch file) := by
  apply Sql.Reads.bind (uploads_lookup_reads owner epoch file.id)
  intro found
  split
  · exact Sql.Reads.throw
  · exact Sql.Reads.throw
  · exact Sql.Reads.throw
  · exact Sql.Reads.throw
  · exact Sql.Reads.require

/-- Only a completed upload with the same metadata can be pinned. -/
theorem pinnable_ok {owner epoch : Bytes} {file : Upload}
    (h : (Uploads.pinnable owner epoch file).run c = (.ok u, c')) :
    ∃ r, c.db.uploads.get? file.id = some r ∧ r.record = file ∧ r.owner = owner ∧
      r.epoch = epoch ∧ r.state = .ready := by
  obtain ⟨found, c₁, hfound, h⟩ := Sql.bind_ok h
  obtain ⟨-, r, hr, howner, hepoch, -, rfl⟩ := uploads_lookup_ok hfound
  split at h
  · exact (Sql.throw_ok h).elim
  · exact (Sql.throw_ok h).elim
  · exact (Sql.throw_ok h).elim
  · exact (Sql.throw_ok h).elim
  · next hready =>
    have hfile := (Sql.require_ok h).1
    exact ⟨r, hr, by simpa using (of_decide_eq_true hfile).symm, howner, hepoch, hready⟩

theorem bindAll_ok {requestId : Bytes} {files : List Upload}
    (h : (Sql.each (Uploads.bindTo requestId) files).run c = (.ok u, c')) :
    ∃ uploads, c'.db = { c.db with uploads := uploads } ∧ ∀ id, uploads.get? id =
      if ∃ file ∈ files, file.id = id then (c.db.uploads.get? id).map fun r =>
        { r with state := .pinned, requestId := some requestId }
      else c.db.uploads.get? id := by
  induction files generalizing c with
  | nil =>
    obtain ⟨-, hc'⟩ := Sql.pure_ok h
    exact ⟨c.db.uploads, by rw [hc'], fun id => by simp⟩
  | cons file rest ih =>
    obtain ⟨_, c₁, hbind, hrest⟩ := Sql.bind_ok h
    obtain ⟨uploads, hdb, hget⟩ := ih hrest
    unfold Uploads.bindTo at hbind
    have hdb₁ := Sql.execute_ok hbind
    refine ⟨uploads, by rw [hdb, hdb₁], fun id => ?_⟩
    rw [hget, hdb₁, Table.get?_modify]
    by_cases hid : file.id = id
    · by_cases hin : ∃ other ∈ rest, other.id = id
      · simp [hid, hin, Function.comp_def]
      · simp [hid, hin]
    · have hid' : id ≠ file.id := fun heq => hid heq.symm
      simp [hid, hid']

theorem pin_ok {owner epoch requestId : Bytes} {files : List Upload}
    (h : (Uploads.pin owner epoch files requestId).run c = (.ok u, c')) :
    ∃ uploads, c'.db = { c.db with uploads := uploads } ∧ ∀ id,
      (∀ file ∈ files, file.id ≠ id) ∧ uploads.get? id = c.db.uploads.get? id ∨
        ∃ file ∈ files, ∃ r, file.id = id ∧ c.db.uploads.get? id = some r ∧ r.record = file ∧
          r.owner = owner ∧ r.epoch = epoch ∧ r.state = .ready ∧
          uploads.get? id = some { r with state := .pinned, requestId := some requestId } := by
  obtain ⟨_, c₁, hset, h⟩ := Sql.bind_ok h
  rw [(Sql.lift_ok hset).2] at h
  obtain ⟨_, c₂, hcheck, hbind⟩ := Sql.bind_ok h
  let I (rest : List Upload) (d : Conn Journal Bytes) : Prop :=
    d.db = c.db ∧ ∀ file ∈ files, file ∉ rest → ∃ r, c.db.uploads.get? file.id = some r ∧
      r.record = file ∧ r.owner = owner ∧ r.epoch = epoch ∧ r.state = .ready
  have hready : I [] c₂ := by
    refine Sql.eachLeft_ok (I := I) ?_ hcheck ⟨rfl, fun file hin hout => absurd hin hout⟩
    intro file rest d d' _ hd hrun
    refine ⟨((pinnable_reads owner epoch file).ok hrun).trans hd.1, fun other hin hout => ?_⟩
    by_cases heq : other = file
    · rw [heq, ← hd.1]
      exact pinnable_ok hrun
    · exact hd.2 other hin fun hmem => (List.mem_cons.mp hmem).elim heq hout
  obtain ⟨hdb₂, hready⟩ := hready
  obtain ⟨uploads, hdb, hget⟩ := bindAll_ok hbind
  rw [hdb₂] at hdb hget
  refine ⟨uploads, hdb, fun id => ?_⟩
  by_cases hin : ∃ file ∈ files, file.id = id
  · right
    obtain ⟨file, hfile, rfl⟩ := hin
    obtain ⟨r, hr, hrecord, howner, hepoch, hstate⟩ := hready file hfile List.not_mem_nil
    refine ⟨file, hfile, r, rfl, hr, hrecord, howner, hepoch, hstate, ?_⟩
    rw [hget, if_pos ⟨file, hfile, rfl⟩, hr]
    rfl
  · left
    exact ⟨fun file hfile hid => hin ⟨file, hfile, hid⟩, by rw [hget, if_neg hin]⟩

theorem getRoute_reads (target : Target) : Sql.Reads (getRoute target) := by
  unfold getRoute
  split
  · exact Sql.Reads.pure
  · apply Sql.Reads.bind Sql.Reads.orThrow
    intro id
    apply Sql.Reads.bind Sql.Reads.query
    intro row
    exact Sql.Reads.bind Sql.Reads.orThrow fun _ => Sql.Reads.pure

theorem acceptExisting_ok {input : SendInput} {owner : Option Bytes} {row : SendRequestRow}
    {a : Accepted} (h : (acceptExisting input owner row).run c = (.ok a, c')) :
    c'.db = c.db ∧ row.payload = input ∧ a = { record := row.record, fresh := false } ∧
      (input.attachments ≠ [] → c.db.sendOwners.get? input.requestId = owner) := by
  unfold acceptExisting at h
  have hlast {d : Conn Journal Bytes} (h : (do
      Sql.require (row.payload = input) .requestConflict
      return { record := row.record, fresh := false } : Tx Accepted).run d = (.ok a, c')) :
      c'.db = d.db ∧ row.payload = input ∧ a = { record := row.record, fresh := false } := by
    obtain ⟨_, d₁, hpayload, h⟩ := Sql.bind_ok h
    obtain ⟨hpayload, hd₁⟩ := Sql.require_ok hpayload
    obtain ⟨ha, hc'⟩ := Sql.pure_ok h
    exact ⟨by rw [hc', hd₁], by simpa using hpayload, ha⟩
  dsimp only at h
  split_ifs at h with hfiles
  · obtain ⟨device, c₁, hdevice, h⟩ := Sql.bind_ok h
    obtain ⟨hdevice, hdb₁⟩ := Sql.query_ok hdevice
    obtain ⟨device', c₂, hsome, h⟩ := Sql.bind_ok h
    obtain ⟨hsome, hc₂⟩ := Sql.orThrow_ok hsome
    obtain ⟨owner', c₃, howner, h⟩ := Sql.bind_ok h
    obtain ⟨howner, hc₃⟩ := Sql.orThrow_ok howner
    obtain ⟨_, c₄, hsame, h⟩ := Sql.bind_ok h
    obtain ⟨hsame, hc₄⟩ := Sql.require_ok hsame
    obtain ⟨hdb, hpayload, ha⟩ := hlast h
    refine ⟨by rw [hdb, hc₄, hc₃, hc₂, hdb₁], hpayload, ha, fun _ => ?_⟩
    rw [← hdevice, hsome, howner]
    simpa using hsame
  · obtain ⟨hdb, hpayload, ha⟩ := hlast h
    exact ⟨hdb, hpayload, ha, fun hne => absurd hne hfiles⟩

theorem init_unstarted {input : SendInput} {part : SendPart} (h : part ∈ Sends.init input) :
    unstartedAttachment part = false := by
  have hqueued : part.state = .queued := by
    unfold Sends.init at h
    split_ifs at h
    · exact absurd h List.not_mem_nil
    · obtain ⟨file, -, rfl⟩ := List.mem_map.mp h
      rfl
    · rcases List.mem_append.mp h with h | h
      · rw [List.mem_singleton.mp h]
      · obtain ⟨file, -, rfl⟩ := List.mem_map.mp h
        rfl
  simp [unstartedAttachment, hqueued]

/-- The last step of an acceptance: the inserted row gets its parts and event. -/
theorem publishAccepted_ok {j : Journal} {input : SendInput} {owner : Option Bytes} {a : Accepted}
    {route : Route} {requests : Table Bytes SendRequestRow} {uploads : Table Bytes UploadRow}
    {owners : Table Bytes Bytes} (hvalid : validate input = .ok ())
    (hepoch : input.serverEpoch = j.epoch)
    (hinsert : j.sendRequests.insert input.requestId
      (acceptedRow input (initialRequest input) route now) = some requests)
    (hd : c.db = { j with sendRequests := requests, uploads := uploads, sendOwners := owners })
    (hunowned : input.attachments ≠ [] → j.sendOwners.get? input.requestId = none)
    (howners : ∀ id, owners.get? id =
      if id = input.requestId ∧ input.attachments ≠ [] then owner else j.sendOwners.get? id)
    (hpinned : ∀ id, Pinned input owner id (j.uploads.get? id) (uploads.get? id))
    (h : (do
      let record ← updateRequest now (initialRequest input)
      return { record := record, fresh := true } : Tx Accepted).run c = (.ok a, c')) :
    a.fresh = true ∧ AcceptedAs j input owner a.record c'.db := by
  obtain ⟨record, c₁, hwrite, h⟩ := Sql.bind_ok h
  obtain ⟨ha, hc'⟩ := Sql.pure_ok h
  obtain ⟨hrecord, hupdated⟩ := updateRequest_ok hwrite
  rw [ha, hc']
  have hrows (id : Bytes) : c.db.sendRequests.get? id =
      if id = input.requestId then some (acceptedRow input (initialRequest input) route now)
      else j.sendRequests.get? id := by
    rw [hd]
    exact Table.get?_insert hinsert id
  have hsequence : c.db.sequence = j.sequence := by rw [hd]
  have hid : record.requestId = input.requestId := by rw [hrecord]; rfl
  refine ⟨rfl, Table.get?_of_insert hinsert, hepoch, hvalid, by rw [hrecord, hsequence],
    ⟨route, now, fun id => ?_⟩, fun key => ?_, hunowned, fun id => ?_, ?_, fun id => ?_⟩
  · rw [hupdated.get?, hrows, hid]
    by_cases hk : id = input.requestId
    · subst hk
      simp only [if_true, Option.map_some, Option.some.injEq]
      rw [hrecord]
      rfl
    · simp [hk]
  · rw [hupdated.parts, hd]
  · rw [hupdated.sendOwners, hd]
    exact howners id
  · have hpublished := hupdated.published (by rw [hrows, hid]; simp)
    have hbefore (k : Record.Kind × Bytes) (hk : k ≠ (Record.request record).key) :
        stored c.db k = stored j k := by
      obtain ⟨kind, id⟩ := k
      cases kind with
      | request =>
        have hne : id ≠ input.requestId := by
          intro heq
          exact hk (by rw [heq, ← hid]; rfl)
        simp only [stored, hrows, hne, if_false]
      | conversation => rw [hd]; rfl
      | message => rw [hd]; rfl
      | identity => rw [hd]; rfl
    obtain ⟨origin, hlog, time, hevents⟩ := hpublished.log
    refine ⟨by rw [hpublished.revision, hsequence], hsequence ▸ hpublished.room,
      hpublished.epoch.trans (by rw [hd]), by rw [hpublished.sequence, hsequence],
      hpublished.prunedThrough.trans (by rw [hd]), hpublished.held.trans (by rw [hd]),
      ⟨origin, ?_, time, ?_⟩, fun k => ?_⟩
    · rw [hlog, hd]
    · rw [hd] at hevents
      exact hevents
    · rw [hpublished.stored]
      split_ifs with hk
      · rfl
      · exact hbefore k hk
  · -- A part that nothing executed yet gives nothing up.
    have hsame : c₁.db.uploads.get? id = c.db.uploads.get? id := by
      rcases hupdated.uploads id with hsame | ⟨r, part, -, -, -, hpart, hunstarted, -⟩
      · exact hsame
      · rw [hrecord] at hpart
        rw [init_unstarted hpart] at hunstarted
        cases hunstarted
    rw [hsame, hd]
    exact hpinned id

theorem acceptFresh_ok {input : SendInput} {owner : Option Bytes} {a : Accepted}
    (hvalid : validate input = .ok ()) (hepoch : input.serverEpoch = c.db.epoch)
    (h : (acceptFresh now input owner).run c = (.ok a, c')) :
    a.fresh = true ∧ AcceptedAs c.db input owner a.record c'.db := by
  obtain ⟨route, c₁, hroute, h⟩ := Sql.bind_ok h
  have hdb₁ := (getRoute_reads input.target).ok hroute
  obtain ⟨_, c₂, hinsert, h⟩ := Sql.bind_ok h
  have hinsert := Sql.execute?_ok hinsert
  rw [hdb₁, insertRequest, Option.map_eq_some_iff] at hinsert
  obtain ⟨requests, hinsert, hdb₂⟩ := hinsert
  dsimp only at h
  split_ifs at h with hfiles
  · obtain ⟨owner', c₃, howner, h⟩ := Sql.bind_ok h
    obtain ⟨howner, hc₃⟩ := Sql.orThrow_ok howner
    obtain ⟨_, c₄, hpin, h⟩ := Sql.bind_ok h
    obtain ⟨uploads, hdb₄, hpinned⟩ := pin_ok hpin
    obtain ⟨_, c₅, hset, h⟩ := Sql.bind_ok h
    have hset := Sql.execute?_ok hset
    rw [insertOwner, Option.map_eq_some_iff] at hset
    obtain ⟨owners, hset, hdb₅⟩ := hset
    rw [hdb₄, hc₃, ← hdb₂] at hdb₅ hset
    rw [hc₃, ← hdb₂] at hpinned
    refine publishAccepted_ok hvalid hepoch hinsert hdb₅.symm
      (fun _ => Table.get?_of_insert hset) (fun id => ?_) (fun id => ?_) h
    · rw [Table.get?_insert hset, howner]
      by_cases hk : id = input.requestId
      · simp [hk, hfiles]
      · simp [hk]
    · refine (hpinned id).imp_right ?_
      rintro ⟨file, hfile, r, hid, hr, hrecord, hr', hrest⟩
      exact ⟨file, hfile, r, hid, hr, hrecord, by rw [howner, hr'], hrest⟩
  · have hnil : input.attachments = [] := by simpa using hfiles
    refine publishAccepted_ok hvalid hepoch hinsert hdb₂.symm
      (fun hne => absurd hne hfiles) (fun id => ?_) (fun id => Or.inl ⟨?_, rfl⟩) h
    · simp [hfiles]
    · rw [hnil]
      exact fun _ hfile => absurd hfile List.not_mem_nil

theorem acceptImpl_ok {input : SendInput} {ready : Bool} {owner : Option Bytes} {a : Accepted}
    (h : (acceptImpl now input ready owner).run c = (.ok a, c')) :
    validate input = .ok () ∧ input.serverEpoch = c.db.epoch ∧
    ((a.fresh = true ∧ ready = true ∧ AcceptedAs c.db input owner a.record c'.db) ∨
      (c'.db = c.db ∧ ∃ row, c.db.sendRequests.get? input.requestId = some row ∧
        row.payload = input ∧ a = { record := row.record, fresh := false } ∧
        (input.attachments ≠ [] → c.db.sendOwners.get? input.requestId = owner))) := by
  obtain ⟨_, c₁, hvalid, h⟩ := Sql.bind_ok h
  obtain ⟨hvalid, hc₁⟩ := Sql.lift_ok hvalid
  rw [hc₁] at h
  have hvalid : validate input = .ok () := by
    cases hv : validate input with
    | error e => simp [hv, Except.mapError] at hvalid
    | ok u => rfl
  obtain ⟨c₂, c₃, hdb₂, -, h, hend⟩ := Sql.transaction_ok h
  rw [hend, ← hdb₂]
  obtain ⟨epoch, c₄, hepoch, h⟩ := Sql.bind_ok h
  obtain ⟨hepoch, hdb₄⟩ := Sql.query_ok hepoch
  obtain ⟨_, c₅, hcurrent, h⟩ := Sql.bind_ok h
  obtain ⟨hcurrent, hc₅⟩ := Sql.require_ok hcurrent
  obtain ⟨existing, c₆, hexisting, h⟩ := Sql.bind_ok h
  obtain ⟨hexisting, hdb₆⟩ := Sql.query_ok hexisting
  have hepoch : input.serverEpoch = c₂.db.epoch := by
    rw [← hepoch]
    simpa using hcurrent
  rw [hc₅, hdb₄] at hexisting hdb₆
  refine ⟨hvalid, hepoch, ?_⟩
  rw [← hdb₆] at hexisting hepoch ⊢
  cases existing with
  | some row =>
    obtain ⟨hdb, hpayload, ha, howner⟩ := acceptExisting_ok h
    exact Or.inr ⟨hdb, row, hexisting.symm, hpayload, ha, howner⟩
  | none =>
    obtain ⟨_, c₇, hready, h⟩ := Sql.bind_ok h
    obtain ⟨hready, hc₇⟩ := Sql.require_ok hready
    rw [hc₇] at h
    obtain ⟨hfresh, haccepted⟩ := acceptFresh_ok hvalid hepoch h
    exact Or.inl ⟨hfresh, hready, haccepted⟩

end Acceptance

section Rewrites

variable {scope : Scope} {c c' : Conn Journal Bytes} {now : Int} {u : Unit}

theorem Follows.revision {v v' : SendRequest} (h : Follows v v') (n : Nat) :
    Follows v { v' with revision := n } :=
  ⟨h.requestId, h.serverEpoch, h.target, h.text, h.attachments, h.parts, h.started, h.part⟩

/-- Writing a record that follows the stored one is a change of that request. -/
theorem updateRequest_change {value v : SendRequest} {row : SendRequestRow}
    (h : (updateRequest now value).run c = (.ok v, c'))
    (found : c.db.sendRequests.get? value.requestId = some row) (follows : Follows row.record value)
    (current : Live value.state → value.serverEpoch = c.db.epoch)
    (links : Links scope c.db row value) : Change scope c.db c'.db := by
  obtain ⟨hv, hupdated⟩ := updateRequest_ok h
  refine .request v row ?_ ?_ ?_ ?_ hupdated
  · rw [hv]
    exact found
  · rw [hv]
    exact follows.revision _
  · rw [hv]
    exact current
  · rw [hv]
    exact links.revision _

theorem updateRequest_others {value v : SendRequest}
    (h : (updateRequest now value).run c = (.ok v, c')) :
    c'.db.epoch = c.db.epoch ∧ ∀ id, id ≠ value.requestId →
      c'.db.sendRequests.get? id = c.db.sendRequests.get? id := by
  obtain ⟨rfl, hupdated⟩ := updateRequest_ok h
  refine ⟨hupdated.epoch, fun id hid => ?_⟩
  rw [hupdated.get?, if_neg hid]

/-- What rewriting these requests leaves of the others. -/
structure Rewritten (scope : Scope) (ids : List Bytes) (j j' : Journal) : Prop where
  changed : Changed scope j j'
  epoch : j'.epoch = j.epoch
  others : ∀ id, id ∉ ids → j'.sendRequests.get? id = j.sendRequests.get? id

theorem updateRequest_rewritten {value v : SendRequest} {row : SendRequestRow}
    (h : (updateRequest now value).run c = (.ok v, c'))
    (found : c.db.sendRequests.get? value.requestId = some row) (follows : Follows row.record value)
    (current : Live value.state → value.serverEpoch = c.db.epoch)
    (links : Links scope c.db row value) : Rewritten scope [value.requestId] c.db c'.db :=
  ⟨(updateRequest_change h found follows current links).single, (updateRequest_others h).1,
    fun id hid => (updateRequest_others h).2 id fun heq => hid (heq ▸ List.mem_singleton_self _)⟩

theorem rewriteAll_ok {f : Bytes × SendRequestRow → Tx Unit} {items : List (Bytes × SendRequestRow)}
    (hk : Keyed c.db) (hnodup : (items.map Prod.fst).Nodup)
    (hitems : ∀ r ∈ items, c.db.sendRequests.get? r.1 = some r.2)
    (step : ∀ r ∈ items, ∀ d d' u, Keyed d.db → d.db.sendRequests.get? r.1 = some r.2 →
      d.db.epoch = c.db.epoch → (f r).run d = (.ok u, d') → Rewritten scope [r.1] d.db d'.db)
    (h : (Sql.each f items).run c = (.ok u, c')) :
    Rewritten scope (items.map Prod.fst) c.db c'.db := by
  let I (rest : List (Bytes × SendRequestRow)) (d : Conn Journal Bytes) : Prop :=
    Rewritten scope (items.map Prod.fst) c.db d.db ∧ (rest.map Prod.fst).Nodup ∧
      ∀ r ∈ rest, r ∈ items ∧ d.db.sendRequests.get? r.1 = some r.2
  have hI : I [] c' := by
    refine Sql.eachLeft_ok (I := I) ?_ h
      ⟨⟨Changed.refl _, rfl, fun _ _ => rfl⟩, hnodup, fun r hr => ⟨hr, hitems r hr⟩⟩
    intro r rest d d' u hd hrun
    obtain ⟨hrewritten, hkeys, hrest⟩ := hd
    obtain ⟨hmem, hget⟩ := hrest r List.mem_cons_self
    have hr := step r hmem d d' u (hrewritten.changed.keyed hk) hget hrewritten.epoch hrun
    rw [List.map_cons, List.nodup_cons] at hkeys
    refine ⟨⟨hrewritten.changed.trans hr.changed, hr.epoch.trans hrewritten.epoch,
      fun id hid => ?_⟩, hkeys.2, fun q hq => ?_⟩
    · refine (hr.others id fun hone => hid ?_).trans (hrewritten.others id hid)
      rw [List.mem_singleton.mp hone]
      exact List.mem_map_of_mem hmem
    · obtain ⟨hqmem, hqget⟩ := hrest q (List.mem_cons_of_mem r hq)
      refine ⟨hqmem, (hr.others q.1 fun hone => hkeys.1 ?_).trans hqget⟩
      rw [← List.mem_singleton.mp hone]
      exact List.mem_map_of_mem hq
  exact hI.1

theorem selected {j : Journal} {p : Bytes → SendRequestRow → Bool} :
    ((j.sendRequests.select p).map Prod.fst).Nodup ∧
      ∀ r ∈ j.sendRequests.select p, j.sendRequests.get? r.1 = some r.2 :=
  ⟨Table.select_keys_nodup _ _, fun _ hr => (Table.get?_select.mp hr).1⟩

theorem recover_ok (hrecovers : scope.recovers = true) (hk : Keyed c.db)
    (h : (recover now).run c = (.ok u, c')) : Changed scope c.db c'.db := by
  obtain ⟨c₁, c₂, hdb₁, -, h, hend⟩ := Sql.transaction_ok h
  rw [hend, ← hdb₁]
  rw [← hdb₁] at hk
  obtain ⟨items, c₃, hitems, hloop⟩ := Sql.bind_ok h
  obtain ⟨rfl, hdb₃⟩ := Sql.query_ok hitems
  rw [← hdb₃] at hk hloop ⊢
  refine (rewriteAll_ok hk selected.1 selected.2 ?_ hloop).changed
  intro r hr d d' u hkd hget _ hrun
  obtain ⟨v, d₁, hv, hrun⟩ := Sql.bind_ok hrun
  obtain ⟨hv, hd₁⟩ := Sql.orThrow_ok hv
  obtain ⟨w, d₂, hwrite, hrun⟩ := Sql.bind_ok hrun
  rw [(Sql.pure_ok hrun).2]
  rw [hd₁] at hwrite
  obtain ⟨hfollows, hstate⟩ := interruptedRequest_follows hv
  have hid : v.requestId = r.1 := hfollows.requestId.trans (hkd _ _ hget).requestId
  have hsettled : ¬ Live v.state := by simp [Live, hstate]
  have hdispatching : r.2.state = .dispatching := by simpa using (Table.get?_select.mp hr).2
  rw [← hid] at hget ⊢
  exact updateRequest_rewritten hwrite hget hfollows (fun hlive => absurd hlive hsettled)
    (.kept (interruptedRequest_sameLinks hv) (fun _ hlive => absurd hlive hsettled)
      (fun _ _ => hrecovers) (Or.inr hdispatching))

theorem rejectQueued_ok {v : SendRequest} {row : SendRequestRow} {code : String}
    (hrow : c.db.sendRequests.get? v.requestId = some row) (hv : v = row.record)
    (hok : RowOk v.requestId row) (hqueued : row.state = .queued)
    (hepoch : v.serverEpoch = c.db.epoch) (h : (rejectQueued now v code).run c = (.ok u, c')) :
    Changed scope c.db c'.db := by
  obtain ⟨w, c₁, hw, h⟩ := Sql.bind_ok h
  obtain ⟨hw, hc₁⟩ := Sql.orThrow_ok hw
  rw [hc₁] at h
  obtain ⟨c₂, c₃, hdb₂, -, h, hend⟩ := Sql.transaction_ok h
  obtain ⟨w', c₄, hwrite, h⟩ := Sql.bind_ok h
  rw [hend, (Sql.pure_ok h).2, ← hdb₂]
  rw [← hdb₂] at hrow hepoch
  have hfollows := rejected_follows hw
  rw [← hfollows.requestId] at hrow
  obtain ⟨hsame, hsettled⟩ := rejected_links hw
  refine (updateRequest_change hwrite hrow (hv ▸ hfollows) (fun _ => ?_)
    (.kept (hv ▸ hsame) (fun hnil hlive => absurd hlive (hsettled hnil)) (fun _ hd => ?_) ?_)).single
  · rw [hfollows.serverEpoch, hepoch]
  · rw [← hok.state, hqueued] at hd
    exact nomatch hd
  · rw [← hok.serverEpoch, ← hv, hepoch]
    exact Or.inl rfl

/-- The durable mark of a dispatch that is about to run. -/
structure Dispatched (j : Journal) (work : Work) (j' : Journal) : Prop where
  before : ∃ row, j.sendRequests.get? work.v.requestId = some row ∧ row.state = .queued ∧
    row.epoch = j.epoch ∧ dispatching row.record = some (work.v, work.part)
  after : ∃ row n, j'.sendRequests.get? work.v.requestId = some row ∧
    row.record = { work.v with revision := n }

theorem setBoundary_quiet {part : Option Nat} {id : Bytes} {j : Journal} (now high : Int)
    (route : Route) (hempty : part = none → ∀ row, j.sendRequests.get? id = some row →
      row.record.parts = []) : Quiet j (setBoundary now high route id part j) ∧
      Silent j (setBoundary now high route id part j) := by
  have hrequest (k : Record.Kind × Bytes) (requests : Table Bytes SendRequestRow)
      (h : ∀ id, (requests.get? id).map SendRequestRow.core =
        (j.sendRequests.get? id).map SendRequestRow.core) :
      stored { j with sendRequests := requests } k = stored j k := by
    obtain ⟨kind, id⟩ := k
    cases kind with
    | request =>
      have := congrArg (Option.map fun core => Record.request core.2.2.1) (h id)
      simpa [stored, SendRequestRow.core, Function.comp_def] using this
    | conversation => rfl
    | message => rfl
    | identity => rfl
  cases part with
  | none =>
    have hrows (id' : Bytes) : ((setBoundary now high route id none j).sendRequests.get? id').map
        SendRequestRow.core = (j.sendRequests.get? id').map SendRequestRow.core := by
      simp only [setBoundary, Table.get?_modify]
      split_ifs
      · rw [Option.map_map]
        rfl
      · rfl
    refine ⟨⟨rfl, hrows, fun _ => rfl, fun id' row' hrow' hdispatched => ?_, rfl, .of_eq rfl⟩, rfl,
      rfl, rfl, rfl, rfl, rfl, fun k => hrequest k _ hrows⟩
    simp only [setBoundary, Table.get?_modify] at hrow'
    split_ifs at hrow' with hid
    · subst hid
      rw [Option.map_eq_some_iff] at hrow'
      obtain ⟨row, hrow, rfl⟩ := hrow'
      exact Or.inl (hempty rfl row hrow)
    · exact Or.inr ⟨row', hrow', hdispatched⟩
  | some position =>
    have hparts (key : Bytes × Nat) : ((setBoundary now high route id (some position) j).sendParts.get?
        key).map SendPartRow.core = (j.sendParts.get? key).map SendPartRow.core := by
      simp only [setBoundary, Table.get?_modify]
      split_ifs
      · rw [Option.map_map]
        rfl
      · rfl
    exact ⟨⟨rfl, fun _ => rfl, hparts, fun _ row' hrow' hdispatched =>
      Or.inr ⟨row', hrow', hdispatched⟩, rfl, .of_eq rfl⟩, rfl, rfl, rfl, rfl, rfl, rfl, fun k => by
      obtain ⟨kind, id⟩ := k
      cases kind <;> rfl⟩

theorem dispatching_marks {v v' : SendRequest} {part : Option Nat}
    (h : dispatching v = some (v', part)) :
    (part = none → v'.parts = [] ∧ v'.state = .dispatching) ∧
      ∀ i, part = some i → Sends.next v = some i ∧
        v'.parts = v.parts.modify i (fun p => { p with state := .dispatching }) := by
  unfold dispatching at h
  split_ifs at h with hparts
  · simp only [Option.some.injEq, Prod.mk.injEq] at h
    rw [← h.1, ← h.2]
    exact ⟨fun _ => ⟨hparts, rfl⟩, fun _ hi => nomatch hi⟩
  · simp only [Option.bind_eq_bind, Option.bind_eq_some_iff, Option.some.injEq,
      Prod.mk.injEq] at h
    obtain ⟨position, hnext, w, hstart, rfl, rfl⟩ := h
    refine ⟨fun hi => (nomatch hi), fun i hi => ?_⟩
    rw [Option.some.injEq] at hi
    unfold Sends.start at hstart
    split_ifs at hstart
    rw [← hi]
    exact ⟨hnext, (Sends.summarize_fields hstart).2.1⟩

theorem beginDispatch_ok {high : Int} {v : SendRequest} {route : Route} {row : SendRequestRow}
    {work : Work} (hrow : c.db.sendRequests.get? v.requestId = some row) (hv : v = row.record)
    (hqueued : row.state = .queued) (hepoch : row.epoch = c.db.epoch)
    (hok : RowOk v.requestId row)
    (h : (beginDispatch now high v route).run c = (.ok work, c')) :
    Changed scope c.db c'.db ∧ Dispatched c.db work c'.db := by
  obtain ⟨c₁, c₂, hdb₁, -, h, hend⟩ := Sql.transaction_ok h
  rw [hend, ← hdb₁]
  rw [← hdb₁] at hrow hepoch
  obtain ⟨⟨w, part⟩, c₃, hw, h⟩ := Sql.bind_ok h
  obtain ⟨hw, hc₃⟩ := Sql.orThrow_ok hw
  rw [hc₃] at h
  obtain ⟨w', c₄, hwrite, h⟩ := Sql.bind_ok h
  obtain ⟨_, c₅, hboundary, h⟩ := Sql.bind_ok h
  obtain ⟨hwork, hc₅⟩ := Sql.pure_ok h
  rw [hc₅, hwork, Sql.execute_ok hboundary]
  have hfollows := dispatching_follows hw
  rw [← hfollows.requestId] at hrow
  have hstate : row.record.state = .queued := hok.state.symm.trans hqueued
  have hlinks : Links scope c₁.db row w := by
    refine .kept (hv ▸ dispatching_sameLinks hw) (fun _ _ => Or.inl hstate) (fun _ hd => ?_)
      (Or.inl hepoch)
    rw [hstate] at hd
    exact nomatch hd
  have hchange : Change scope c₁.db c₄.db := by
    refine updateRequest_change hwrite hrow (hv ▸ hfollows) (fun _ => ?_) hlinks
    rw [hfollows.serverEpoch, hv, hok.serverEpoch, hepoch]
  have hempty (hpart : part = none) (row' : SendRequestRow)
      (hrow' : c₄.db.sendRequests.get? w.requestId = some row') : row'.record.parts = [] := by
    obtain ⟨hw', hupdated⟩ := updateRequest_ok hwrite
    rw [hupdated.get?, hw', if_pos rfl, hrow, Option.map_some, Option.some.injEq] at hrow'
    rw [← hrow']
    exact ((dispatching_marks hw).1 hpart).1
  have hquiet := setBoundary_quiet now high route hempty
  refine ⟨hchange.single.tail (.quiet hquiet.1 hquiet.2), ⟨row, hrow, hqueued, hepoch, ?_⟩, ?_⟩
  · rw [← hv]
    exact hw
  · obtain ⟨hw', hupdated⟩ := updateRequest_ok hwrite
    have hrow' := hupdated.get? w.requestId
    rw [hw', if_pos rfl, hrow, Option.map_some] at hrow'
    obtain ⟨row', hafter, hcore⟩ := hquiet.1.after hrow'
    simp only [SendRequestRow.core, Prod.mk.injEq] at hcore
    exact ⟨row', _, hafter, hcore.2.2.1⟩

theorem foldl_earliest {items : List (Bytes × SendRequestRow)}
    {best : Option (Bytes × SendRequestRow)} {r : Bytes × SendRequestRow}
    (h : items.foldl earliest best = some r) : r ∈ items ∨ best = some r := by
  induction items generalizing best with
  | nil => exact Or.inr h
  | cons q rest ih =>
    rcases ih h with hmem | hbest
    · exact Or.inl (List.mem_cons_of_mem q hmem)
    · cases best with
      | none =>
        simp only [earliest, Option.some.injEq] at hbest
        exact Or.inl (hbest ▸ List.mem_cons_self)
      | some b =>
        simp only [earliest] at hbest
        split_ifs at hbest
        · rw [Option.some.injEq] at hbest
          exact Or.inl (hbest ▸ List.mem_cons_self)
        · exact Or.inr hbest

theorem queueHead_some {j : Journal} {r : Bytes × SendRequestRow} (h : queueHead j = some r) :
    j.sendRequests.get? r.1 = some r.2 ∧ r.2.state = .queued := by
  rcases foldl_earliest h with hmem | hnone
  · simpa using Table.get?_select.mp hmem
  · simp at hnone

theorem progress_reads (key : String) : Sql.Reads (progress key) := Sql.Reads.query

theorem position_reads (key : String) : Sql.Reads (position key) := by
  apply Sql.Reads.bind Sql.Reads.query
  intro value
  cases value with
  | none => exact Sql.Reads.pure
  | some s => exact Sql.Reads.orThrow

theorem revalidate_reads (source : Source) : Sql.Reads (revalidate source) := by
  apply Sql.Reads.bind (progress_reads "identity")
  intro identity
  apply Sql.Reads.bind Sql.Reads.require
  intro _
  apply Sql.Reads.bind (position_reads "live")
  intro live
  apply Sql.Reads.bind (progress_reads "anchor")
  intro anchor
  exact Sql.Reads.require

/-- What the sender commits before it runs any automation. -/
theorem prepareSend_ok {gate : Bool} {source : Option Source} {work : Option Work}
    (hk : Keyed c.db) (h : (prepareSend now gate source).run c = (.ok work, c')) :
    Changed scope c.db c'.db ∧ ∀ w, work = some w → Dispatched c.db w c'.db := by
  unfold prepareSend at h
  split_ifs at h
  · obtain ⟨hwork, hc'⟩ := Sql.pure_ok h
    rw [hc', hwork]
    exact ⟨Changed.refl _, fun _ hw => nomatch hw⟩
  · obtain ⟨head, c₁, hhead, h⟩ := Sql.bind_ok h
    obtain ⟨hhead, hdb₁⟩ := Sql.query_ok hhead
    rw [← hdb₁] at hk hhead ⊢
    cases head with
    | none =>
      obtain ⟨hwork, hc'⟩ := Sql.pure_ok h
      rw [hc', hwork]
      exact ⟨Changed.refl _, fun _ hw => nomatch hw⟩
    | some r =>
      obtain ⟨id, row⟩ := r
      dsimp only at h
      obtain ⟨hrow, hqueued⟩ := queueHead_some hhead.symm
      have hrowOk := hk _ _ hrow
      rw [← hrowOk.requestId] at hrow
      obtain ⟨epoch, c₂, hepoch, h⟩ := Sql.bind_ok h
      obtain ⟨hepoch, hdb₂⟩ := Sql.query_ok hepoch
      obtain ⟨_, c₃, hcurrent, h⟩ := Sql.bind_ok h
      obtain ⟨hcurrent, hc₃⟩ := Sql.require_ok hcurrent
      obtain ⟨route, c₄, hroute, h⟩ := Sql.bind_ok h
      obtain ⟨-, hdb₄⟩ := Sql.query_ok hroute
      obtain ⟨route, c₅, hsome, h⟩ := Sql.bind_ok h
      obtain ⟨-, hc₅⟩ := Sql.orThrow_ok hsome
      have hcurrent : row.epoch = c₁.db.epoch := by
        rw [← hepoch]
        simpa using hcurrent
      have hdb₅ : c₅.db = c₁.db := by rw [hc₅, hdb₄, hc₃, hdb₂]
      have hreject {d d' : Conn Journal Bytes} (hd : d.db = c₁.db) (h : (do
          rejectQueued now row.record "unsupported_target"
          return none : Tx (Option Work)).run d = (.ok work, d')) :
          Changed scope c₁.db d'.db ∧ ∀ w, work = some w → Dispatched c₁.db w d'.db := by
        obtain ⟨_, d₁, hreject, h⟩ := Sql.bind_ok h
        obtain ⟨hwork, hd'⟩ := Sql.pure_ok h
        rw [← hd] at hrow hcurrent ⊢
        rw [hd', hwork]
        exact ⟨rejectQueued_ok hrow rfl (hrowOk.requestId ▸ hrowOk) hqueued
          (hrowOk.serverEpoch.trans hcurrent) hreject,
          fun _ hw => nomatch hw⟩
      cases route with
      | none => exact hreject hdb₅ h
      | some route =>
        obtain ⟨source, c₆, hsource, h⟩ := Sql.bind_ok h
        obtain ⟨-, hc₆⟩ := Sql.orThrow_ok hsource
        obtain ⟨_, c₇, hrevalidate, h⟩ := Sql.bind_ok h
        have hdb₇ : c₇.db = c₁.db := by
          rw [(revalidate_reads source).ok hrevalidate, hc₆, hdb₅]
        split at h
        · exact hreject hdb₇ h
        · exact (Sql.throw_ok h).elim
        · obtain ⟨begun, c₈, hbegin, h⟩ := Sql.bind_ok h
          obtain ⟨hwork, hc'⟩ := Sql.pure_ok h
          rw [← hdb₇] at hrow hcurrent ⊢
          rw [hc', hwork]
          obtain ⟨hchanged, hdispatched⟩ :=
            beginDispatch_ok hrow rfl hqueued hcurrent (hrowOk.requestId ▸ hrowOk) hbegin
          refine ⟨hchanged, fun w hw => ?_⟩
          rw [Option.some.injEq] at hw
          exact hw ▸ hdispatched

def Tracks (j : Journal) (v : SendRequest) : Prop :=
  ∃ row, j.sendRequests.get? v.requestId = some row ∧ Follows v row.record

def Holds (j : Journal) (v : SendRequest) : Prop :=
  ∃ row, j.sendRequests.get? v.requestId = some row ∧ row.record = v

theorem Holds.tracks {j : Journal} {v : SendRequest} (h : Holds j v) : Tracks j v := by
  obtain ⟨row, hrow, hrecord⟩ := h
  exact ⟨row, hrow, hrecord ▸ Follows.refl _⟩

/-- The record a text result writes, from the snapshot its dispatch took. -/
theorem automated_follows {v w : SendRequest} (result : Automation) (hparts : v.parts = [])
    (hstate : v.state = .dispatching) (hw : Follows v w) :
    Follows w (automated v result) ∧ ¬ Live (automated v result).state ∧
      (automated v result).parts = [] ∧ (automated v result).messageId = v.messageId := by
  have hrest : (automated v result).requestId = v.requestId ∧
      (automated v result).serverEpoch = v.serverEpoch ∧ (automated v result).target = v.target ∧
      (automated v result).text = v.text ∧ (automated v result).attachments = v.attachments ∧
      (automated v result).parts = v.parts ∧ (automated v result).messageId = v.messageId ∧
      ¬ Live (automated v result).state := by
    cases result with
    | completed =>
      cases herror : v.errorInfo <;> simp [automated, hstate, herror, Live]
    | uncertain reason => simp [automated, Live]
    | failed reason => simp [automated, Live]
  obtain ⟨hid, hepoch, htarget, htext, hattachments, hsame, hmessage, hlive⟩ := hrest
  have hnil : w.parts = [] := hw.nil.mpr hparts
  refine ⟨⟨hid.trans hw.requestId.symm, hepoch.trans hw.serverEpoch.symm,
    htarget.trans hw.target.symm, htext.trans hw.text.symm,
    hattachments.trans hw.attachments.symm, by rw [hsame, hparts, hnil], fun _ _ hq => ?_,
    fun i p p' hp => ?_⟩, hlive, hsame.trans hparts, hmessage⟩
  · exact hlive (Or.inl hq)
  · simp [hnil] at hp

theorem commitResult_ok {work : Work} {outcome : Sends.Outcome} {result : Automation}
    (hk : Keyed c.db) (hsent : scope.sent = some work.v) (htracks : Tracks c.db work.v)
    (htext : work.part = none → work.v.parts = [] ∧ work.v.state = .dispatching)
    (h : (commitResult now work outcome result).run c = (.ok u, c')) :
    c'.db = c.db ∨ Change scope c.db c'.db := by
  obtain ⟨row, hrow, hfollows⟩ := htracks
  obtain ⟨epoch, c₁, hepoch, h⟩ := Sql.bind_ok h
  obtain ⟨hepoch, hdb₁⟩ := Sql.query_ok hepoch
  rw [← hdb₁] at hk hrow hepoch ⊢
  split_ifs at h with hstale
  · rw [(Sql.pure_ok h).2]
    exact Or.inl rfl
  · right
    have hcurrent : row.record.serverEpoch = c₁.db.epoch := by
      rw [hfollows.serverEpoch, ← hepoch]
      simpa using hstale
    have hrowEpoch : row.epoch = c₁.db.epoch := (hk _ _ hrow).serverEpoch.symm.trans hcurrent
    split at h
    · next position _ =>
      obtain ⟨found, c₂, hfound, h⟩ := Sql.bind_ok h
      obtain ⟨hfound, hdb₂⟩ := Sql.query_ok hfound
      obtain ⟨row', c₃, hrow', h⟩ := Sql.bind_ok h
      obtain ⟨hrow', hc₃⟩ := Sql.orThrow_ok hrow'
      obtain ⟨v, c₄, hv, h⟩ := Sql.bind_ok h
      obtain ⟨hv, hc₄⟩ := Sql.orThrow_ok hv
      obtain ⟨c₅, c₆, hdb₅, -, h, hend⟩ := Sql.transaction_ok h
      obtain ⟨w, c₇, hwrite, h⟩ := Sql.bind_ok h
      have hdb : c₅.db = c₁.db := by rw [hdb₅, hc₄, hc₃, hdb₂]
      rw [hend, (Sql.pure_ok h).2, ← hdb]
      rw [hfound, hrow, Option.some.injEq] at hrow'
      rw [← hrow'] at hv
      have hfinish := finish_follows hv
      rw [← hdb, ← hfollows.requestId, ← hfinish.requestId] at hrow
      have hne := finish_parts hv
      refine updateRequest_change hwrite hrow hfinish (fun _ => ?_)
        (.kept (finish_sameLinks hv) (fun hnil => absurd (hfinish.nil.mp hnil) hne)
          (fun hnil => absurd hnil hne) (Or.inl (hrowEpoch.trans (by rw [hdb]))))
      rw [hfinish.serverEpoch, hcurrent, hdb]
    · next hpart =>
      obtain ⟨hparts, hstate⟩ := htext hpart
      obtain ⟨c₂, c₃, hdb₂, -, h, hend⟩ := Sql.transaction_ok h
      obtain ⟨w, c₄, hwrite, h⟩ := Sql.bind_ok h
      rw [hend, (Sql.pure_ok h).2, ← hdb₂]
      obtain ⟨hautomated, hlive, hempty, hmessage⟩ :=
        automated_follows result hparts hstate hfollows
      rw [← hdb₂, ← hfollows.requestId, ← hautomated.requestId] at hrow
      rw [← hdb₂] at hrowEpoch
      exact updateRequest_change hwrite hrow hautomated (fun hl => absurd hl hlive)
        (.sent work.v hsent hempty hmessage hlive hfollows hrowEpoch)

/-- Releasing the original of a finished part touches neither a send nor a record. -/
theorem releasePart_quiet {requestId uploadId : Bytes} {j : Journal}
    (h : Finished j requestId uploadId) :
    let j' := Uploads.setPhase (fun id r => id = uploadId && r.requestId = some requestId &&
      r.state = .pinned) .deleting j
    Quiet j j' ∧ Silent j j' := by
  refine ⟨⟨rfl, fun _ => rfl, fun _ => rfl, fun _ row hrow hdispatched =>
    Or.inr ⟨row, hrow, hdispatched⟩, rfl, fun id => ?_⟩, rfl, rfl, rfl, rfl, rfl, rfl, fun k => ?_⟩
  · refine (releasePart_get? requestId uploadId j id).imp_right ?_
    rintro ⟨rfl, r, hr, hpinned, howner, hafter⟩
    exact ⟨r, requestId, hr, hpinned, howner, h, hafter⟩
  · obtain ⟨kind, id⟩ := k
    cases kind <;> rfl

theorem releaseDelivered_ok {request : SendRequest} {row : SendRequestRow} {position : Nat}
    {confirmed : Bool} (hrow : c.db.sendRequests.get? request.requestId = some row)
    (hparts : row.record.parts = request.parts)
    (h : (Observation.releaseDelivered request position confirmed).run c = (.ok u, c')) :
    Changed scope c.db c'.db := by
  obtain ⟨part, c₁, hpart, h⟩ := Sql.bind_ok h
  obtain ⟨hpart, hc₁⟩ := Sql.orThrow_ok hpart
  rw [hc₁] at h
  split_ifs at h with hdelivered
  · obtain ⟨attachment, c₂, hattachment, h⟩ := Sql.bind_ok h
    obtain ⟨hattachment, hc₂⟩ := Sql.orThrow_ok hattachment
    have hfinished : Finished c.db request.requestId attachment := by
      refine ⟨row, part, hrow, ?_, hattachment, ?_⟩
      · rw [hparts]
        exact List.mem_of_getElem? hpart
      · simp only [Bool.and_eq_true, decide_eq_true_eq] at hdelivered
        simp [needsOriginal, hdelivered.2]
    unfold Uploads.releasePart at h
    rw [Sql.execute_ok h, hc₂]
    exact (Change.quiet (releasePart_quiet hfinished).1 (releasePart_quiet hfinished).2).single
  · rw [(Sql.pure_ok h).2]
    exact Changed.refl _

/-- The message a part is matched with is the candidate's, and it is available
to a part without a message. -/
theorem matched_spec {j : Journal} {work : Observation.Work} {part : SendPart}
    {candidate : Option Observation.Candidate} {id : Bytes}
    (h : Observation.matched j work part candidate = some id) :
    ∃ echo m, candidate = some echo ∧ Observation.matchingMessage work echo j = some (id, m) ∧
      (part.messageId = none → Observation.available j work echo id m = true) := by
  unfold Observation.matched at h
  split at h
  · simp at h
  · next echo =>
    split at h
    · next id' m hmatching =>
      split_ifs at h with havailable
      rw [Option.some.injEq] at h
      subst h
      refine ⟨echo, m, rfl, hmatching, fun hnone => ?_⟩
      simp only [Bool.and_eq_true, Bool.or_eq_true, hnone, Option.isSome_none,
        Bool.false_eq_true, false_or] at havailable
      exact havailable.2
    · simp at h

/-- What an observation commits on top of the latest record: a link is its first
change. -/
theorem publish_ok {readReady : Bool} {work : Observation.Work}
    {candidate : Option Observation.Candidate} (hk : Keyed c.db)
    (hecho : ∀ echo, candidate = some echo → scope.echo = some (work, echo))
    (htracks : Tracks c.db work.request)
    (h : (Observation.publish now readReady work candidate).run c = (.ok u, c')) :
    ∃ j, (j = c.db ∨ Change scope c.db j) ∧ Changed {} j c'.db := by
  obtain ⟨row, hrow, hfollows⟩ := htracks
  obtain ⟨epoch, c₁, hepoch, h⟩ := Sql.bind_ok h
  obtain ⟨hepoch, hdb₁⟩ := Sql.query_ok hepoch
  obtain ⟨identity, c₂, hidentity, h⟩ := Sql.bind_ok h
  have hdb₂ := (progress_reads "identity").ok hidentity
  have hdb : c₂.db = c.db := hdb₂.trans hdb₁
  rw [← hdb] at hk hrow hepoch ⊢
  split_ifs at h with hstale
  · rw [(Sql.pure_ok h).2]
    exact ⟨_, Or.inl rfl, Changed.refl _⟩
  · simp only [Bool.or_eq_true, not_or, bne_iff_ne, ne_eq, not_not] at hstale
    have hcurrent : row.record.serverEpoch = c₂.db.epoch := by
      rw [hfollows.serverEpoch, hstale.1.2, hepoch]
    obtain ⟨found, c₃, hfound, h⟩ := Sql.bind_ok h
    obtain ⟨hfound, hdb₃⟩ := Sql.query_ok hfound
    obtain ⟨row', c₄, hrow', h⟩ := Sql.bind_ok h
    obtain ⟨hrow', hc₄⟩ := Sql.orThrow_ok hrow'
    obtain ⟨part, c₅, hpart, h⟩ := Sql.bind_ok h
    obtain ⟨hpart, hc₅⟩ := Sql.orThrow_ok hpart
    obtain ⟨mid, c₆, hmid, h⟩ := Sql.bind_ok h
    obtain ⟨hmid, hdb₆⟩ := Sql.query_ok hmid
    obtain ⟨change, c₇, hchange, h⟩ := Sql.bind_ok h
    obtain ⟨hchange, hc₇⟩ := Sql.orThrow_ok hchange
    rw [hfound, hrow, Option.some.injEq] at hrow'
    rw [← hrow'] at hchange hpart
    have hdb₅ : c₅.db = c₂.db := by rw [hc₅, hc₄, hdb₃]
    have hdb₇ : c₇.db = c₂.db := by rw [hc₇, hdb₆, hc₅, hc₄, hdb₃]
    cases change with
    | none =>
      rw [(Sql.pure_ok h).2, hdb₇]
      exact ⟨_, Or.inl rfl, Changed.refl _⟩
    | some result =>
      obtain ⟨request, confirmed⟩ := result
      obtain ⟨c₈, c₉, hdb₈, -, h, hend⟩ := Sql.transaction_ok h
      obtain ⟨w, c₁₀, hwrite, hrelease⟩ := Sql.bind_ok h
      have hpublished := published_follows hchange
      have hrowEpoch : row.epoch = c₂.db.epoch := (hk _ _ hrow).serverEpoch.symm.trans hcurrent
      obtain ⟨hne, hlinks⟩ := published_links hpart hchange
      have hnil : row.record.parts ≠ [] := fun h => hne (hpublished.nil.mpr h)
      have hlinks : Links scope c₂.db row request := by
        rcases hlinks with hsame | ⟨id, hid, hbefore, hmessage, hafter⟩
        · exact .kept hsame (fun h => absurd h hne) (fun h => absurd h hnil) (Or.inl hrowEpoch)
        · rw [hid, hdb₅] at hmid
          obtain ⟨echo, m, hcandidate, hmatching, havailable⟩ := matched_spec hmid.symm
          refine .part work.position id m work echo (hecho echo hcandidate) hfollows rfl hmessage
            ?_ hafter hrowEpoch hmatching (havailable hbefore)
          rw [hpart, Option.map_some, hbefore]
      rw [hend, ← hdb₇, ← hdb₈]
      rw [← hdb₇, ← hdb₈, ← hfollows.requestId, ← hpublished.requestId] at hrow
      obtain ⟨hw, hupdated⟩ := updateRequest_ok hwrite
      have hwritten : c₁₀.db.sendRequests.get? request.requestId = some (writeRow w row) := by
        rw [hupdated.get?, hw, if_pos rfl, hrow]
        rfl
      rw [← hdb₇, ← hdb₈] at hlinks
      refine ⟨c₁₀.db, Or.inr (updateRequest_change hwrite hrow hpublished (fun _ => ?_) hlinks),
        releaseDelivered_ok hwritten (by rw [hw]; rfl) hrelease⟩
      rw [hpublished.serverEpoch, hcurrent, hdb₈, hdb₇]

theorem performAll_ok {enc : Encoding} {ops : List IngestOp}
    (h : (Sql.each (perform enc now) ops).run c = (.ok u, c')) : Ingested c.db c'.db := by
  refine Sql.each_ok (I := fun d => Ingested c.db d.db) ?_ h Relation.ReflTransGen.refl
  intro op _ d d' _ hd hrun
  exact hd.trans (perform_ok hrun)

theorem Ingested.rewritten {j j' : Journal} {ids : List Bytes} (h : Ingested j j') :
    Rewritten scope ids j j' :=
  ⟨h.changed, h.sends.epoch, fun id _ => by rw [h.sends.sendRequests]⟩

theorem Rewritten.trans {ids : List Bytes} {j₁ j₂ j₃ : Journal} (h : Rewritten scope ids j₁ j₂)
    (h' : Rewritten scope ids j₂ j₃) : Rewritten scope ids j₁ j₃ :=
  ⟨h.changed.trans h'.changed, h'.epoch.trans h.epoch,
    fun id hid => (h'.others id hid).trans (h.others id hid)⟩

theorem recordObservation_silent {id : Bytes} {j j' : Journal}
    (h : recordObservation now id j = some j') : SameSends j j' ∧ Silent j j' := by
  simp only [recordObservation, Option.ite_none_right_eq_some, Option.some.injEq] at h
  obtain ⟨-, rfl⟩ := h
  exact ⟨⟨rfl, rfl, rfl, rfl, rfl, rfl⟩, rfl, rfl, rfl, rfl, rfl, rfl, fun k => by
    obtain ⟨kind, id⟩ := k
    cases kind <;> rfl⟩

theorem updateIfSome_ok {change : Option SendRequest} {row : SendRequestRow} {id : Bytes}
    (hid : RowOk id row) (hrow : c.db.sendRequests.get? id = some row)
    (hepoch : row.epoch = c.db.epoch)
    (hchange : ∀ v, change = some v → Follows row.record v ∧ Links scope c.db row v)
    (h : (updateIfSome now change).run c = (.ok u, c')) : Rewritten scope [id] c.db c'.db := by
  cases change with
  | none =>
    rw [(Sql.pure_ok h).2]
    exact ⟨Changed.refl _, rfl, fun _ _ => rfl⟩
  | some v =>
    obtain ⟨w, c₁, hwrite, h⟩ := Sql.bind_ok h
    rw [(Sql.pure_ok h).2]
    obtain ⟨hfollows, hlinks⟩ := hchange v rfl
    have hv : v.requestId = id := hfollows.requestId.trans hid.requestId
    rw [← hv] at hrow ⊢
    refine updateRequest_rewritten hwrite hrow hfollows (fun _ => ?_) hlinks
    rw [hfollows.serverEpoch, hid.serverEpoch, hepoch]

theorem refreshRequest_ok {enc : Encoding} {imports : Bytes → List IngestOp}
    {item : Bytes × SendRequestRow} {mid : Bytes} (hid : RowOk item.1 item.2)
    (hrow : c.db.sendRequests.get? item.1 = some item.2) (hepoch : item.2.epoch = c.db.epoch)
    (hsettled : ¬ Live item.2.state) (h : (do
      let known ← Sql.query fun j : Journal => j.messages.contains mid
      Sql.each (perform enc now) (if known then imports mid else [])
      let status ← Sql.query fun j => (j.messages.get? mid).map fun m => m.status
      updateIfSome now (status.bind (refreshed item.2.record)) : Tx Unit).run c = (.ok u, c')) :
    Rewritten scope [item.1] c.db c'.db := by
  obtain ⟨known, c₂, hknown, h⟩ := Sql.bind_ok h
  obtain ⟨-, hdb₂⟩ := Sql.query_ok hknown
  obtain ⟨_, c₃, himport, h⟩ := Sql.bind_ok h
  have himport := performAll_ok himport
  rw [hdb₂] at himport
  refine himport.rewritten.trans ?_
  rw [← himport.sends.sendRequests] at hrow
  rw [← himport.sends.epoch] at hepoch
  obtain ⟨status, c₄, hstatus, h⟩ := Sql.bind_ok h
  obtain ⟨-, hdb₄⟩ := Sql.query_ok hstatus
  rw [← hdb₄] at hrow hepoch ⊢
  refine updateIfSome_ok hid hrow hepoch (fun v hv => ?_) h
  rw [Option.bind_eq_some_iff] at hv
  obtain ⟨status, -, hv⟩ := hv
  obtain ⟨hsame, hlive⟩ := refreshed_links hv
  rw [hid.state] at hsettled
  exact ⟨refreshed_follows hv, .kept hsame (fun _ h => absurd h hlive)
    (fun _ hd => absurd (Or.inr hd) hsettled) (Or.inl hepoch)⟩

theorem reconcileRequest_ok {enc : Encoding} {imports : Bytes → List IngestOp}
    {item : Bytes × SendRequestRow} (hreconciles : scope.reconciles = true)
    (hid : RowOk item.1 item.2) (hrow : c.db.sendRequests.get? item.1 = some item.2)
    (hepoch : item.2.epoch = c.db.epoch) (hsettled : ¬ Live item.2.state)
    (h : (reconcileRequest enc now imports item).run c = (.ok u, c')) :
    Rewritten scope [item.1] c.db c'.db := by
  obtain ⟨_, c₁, hrecord, h⟩ := Sql.bind_ok h
  obtain ⟨hsends, hsilent⟩ := recordObservation_silent (Sql.execute?_ok hrecord)
  have hrecorded := Ingested.silent hsends hsilent
  refine hrecorded.rewritten.trans ?_
  rw [← hsends.sendRequests] at hrow
  rw [← hsends.epoch] at hepoch
  split at h
  · exact refreshRequest_ok hid hrow hepoch hsettled h
  · next hmessage =>
    obtain ⟨change, c₂, hchange, h⟩ := Sql.bind_ok h
    obtain ⟨hchange, hdb₂⟩ := Sql.query_ok hchange
    rw [← hdb₂] at hrow hepoch ⊢
    rw [hid.state] at hsettled
    refine updateIfSome_ok hid hrow hepoch (fun v hv => ?_) h
    rw [hchange, ← hdb₂] at hv
    refine ⟨reconciled_follows hv, ?_⟩
    rcases reconciled_links hv with ⟨hsame, hstate⟩ | ⟨id, m, hafter, hparts, hlive, hdispatched,
      hecho, halone, haloneParts⟩
    · exact .kept hsame (fun _ h => hstate ▸ h) (fun _ hd => absurd (Or.inr hd) hsettled)
        (Or.inl hepoch)
    · exact .text id m hdispatched hmessage hafter hparts ⟨hsettled, hlive⟩ hepoch hecho halone
        haloneParts hreconciles

theorem pendingRequests_spec (j : Journal) :
    ((pendingRequests j).map Prod.fst).Nodup ∧ ∀ r ∈ pendingRequests j,
      j.sendRequests.get? r.1 = some r.2 ∧ ¬ Live r.2.state ∧ r.2.epoch = j.epoch := by
  unfold pendingRequests
  have hperm := List.perm_insertionSort (fun a b => before (attempted j a) (attempted j b))
    (j.sendRequests.select fun _ r =>
      (r.state = .submitted || r.state = .unknown) && r.dispatchMs.isSome && r.epoch = j.epoch)
  refine ⟨?_, fun r hr => ?_⟩
  · refine ((List.take_sublist _ _).map Prod.fst).nodup ?_
    exact (hperm.map Prod.fst).nodup_iff.mpr (Table.select_keys_nodup _ _)
  · have hr := Table.get?_select.mp (hperm.mem_iff.mp (List.mem_of_mem_take hr))
    refine ⟨hr.1, ?_⟩
    have hpending := hr.2
    simp only [Bool.and_eq_true, Bool.or_eq_true, decide_eq_true_eq] at hpending
    refine ⟨?_, hpending.2⟩
    rintro (hq | hq) <;> simp [hq] at hpending

/-- The requests of a pass before the one that comes after `n` others. -/
theorem reconcileSome_ok {enc : Encoding} {imports : Bytes → List IngestOp}
    {items : List (Bytes × SendRequestRow)} (hreconciles : scope.reconciles = true) (hk : Keyed c.db)
    (hitems : items.Sublist (pendingRequests c.db))
    (h : (Sql.each (reconcileRequest enc now imports) items).run c = (.ok u, c')) :
    Rewritten scope (items.map Prod.fst) c.db c'.db := by
  obtain ⟨hnodup, hspec⟩ := pendingRequests_spec c.db
  have hspec (r : Bytes × SendRequestRow) (hr : r ∈ items) := hspec r (hitems.subset hr)
  refine rewriteAll_ok hk ((hitems.map Prod.fst).nodup hnodup) (fun r hr => (hspec r hr).1) ?_ h
  intro r hr d d' u hkd hget hepoch hrun
  exact reconcileRequest_ok hreconciles (hkd _ _ hget) hget ((hspec r hr).2.2.trans hepoch.symm)
    (hspec r hr).2.1 hrun

theorem reconcile_ok {enc : Encoding} {parts : List IngestOp} {imports : Bytes → List IngestOp}
    (hreconciles : scope.reconciles = true) (hk : Keyed c.db)
    (h : (reconcile enc now parts imports).run c = (.ok u, c')) : Changed scope c.db c'.db := by
  obtain ⟨_, c₁, hparts, h⟩ := Sql.bind_ok h
  have hparts : Changed scope c.db c₁.db := (performAll_ok hparts).changed
  refine hparts.trans ?_
  have hk₁ := hparts.keyed hk
  obtain ⟨items, c₂, hitems, hloop⟩ := Sql.bind_ok h
  obtain ⟨rfl, hdb₂⟩ := Sql.query_ok hitems
  rw [← hdb₂] at hk₁ hloop ⊢
  exact (reconcileSome_ok hreconciles hk₁ (List.Sublist.refl _) hloop).changed

theorem foldl_max_mem (items : List Nat) (best : Nat) :
    items.foldl max best = best ∨ items.foldl max best ∈ items := by
  induction items generalizing best with
  | nil => exact Or.inl rfl
  | cons n rest ih =>
    rw [List.foldl_cons]
    rcases ih (max best n) with h | h
    · rw [h]
      rcases Nat.le_total best n with hle | hle
      · rw [Nat.max_eq_right hle]
        exact Or.inr List.mem_cons_self
      · rw [Nat.max_eq_left hle]
        exact Or.inl rfl
    · exact Or.inr (List.mem_cons_of_mem n h)

theorem prune_ok {countLimit : Int} (h : (prune now countLimit).run c = (.ok u, c')) :
    Changed scope c.db c'.db := by
  obtain ⟨c₁, c₂, hdb₁, -, h, hend⟩ := Sql.transaction_ok h
  obtain ⟨cut, c₃, hcut, h⟩ := Sql.bind_ok h
  obtain ⟨rfl, hdb₃⟩ := Sql.query_ok hcut
  obtain ⟨_, c₄, hset, hdelete⟩ := Sql.bind_ok h
  have hreached : pruneCut now countLimit c.db = 0 ∨
      ∃ row, c.db.events.get? (pruneCut now countLimit c.db) = some row := by
    refine (foldl_max_mem _ 0).imp id fun hmem => ?_
    obtain ⟨r, hr, hseq⟩ := List.mem_map.mp hmem
    exact ⟨r.2, by rw [pruneCut, ← hseq]; exact (Table.get?_select.mp hr).1⟩
  rw [hend, Sql.execute_ok hdelete, Sql.execute_ok hset, hdb₃, hdb₁]
  exact (Change.pruned _ ⟨hreached, rfl⟩).single

end Rewrites

end Zimbr.Relay
