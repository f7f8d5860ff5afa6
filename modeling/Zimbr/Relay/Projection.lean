import Zimbr.Relay.Coherence

set_option autoImplicit false

/-!
# Projection agreement

The columns and the part rows of a request repeat its record. Only the branch
of a reset that keeps an incompatible row private writes the record without the
part rows, so there they agree exactly when the reset changes none of them.
-/
namespace Zimbr.Relay
open Library

def Current (j : Journal) : Prop :=
  ∀ id row, j.sendRequests.get? id = some row → Live row.state → row.epoch = j.epoch

/-- Every part row shows its part, and no other part row exists. -/
structure Mirrored (j : Journal) : Prop where
  projected : ∀ id row, j.sendRequests.get? id = some row → Projected j id row
  referenced : ∀ id n, j.sendRequests.get? id = none → j.sendParts.get? (id, n) = none

/-- A part that a reset leaves in its state and without a message. -/
def Unmoved (part : SendPart) : Prop :=
  part.state ≠ .queued ∧ part.state ≠ .dispatching ∧ part.messageId = none

def Withstands (j : Journal) : Prop :=
  ∀ id row, j.sendRequests.get? id = some row → unsettled row.state = true →
    (validId row.record.requestId && validId row.record.serverEpoch) = false →
    ∀ part ∈ row.record.parts, Unmoved part

section Parts

variable {v v' : SendRequest}

def shown (part : SendPart) : PartState × Option Bytes := (part.state, part.messageId)

theorem interruptAt_shown (part : SendPart) :
    shown (Sends.interruptAt true part) = shown part ↔ Unmoved part := by
  obtain ⟨kind, attachmentId, state, messageId, candidateMessageId, errorInfo⟩ := part
  cases state <;>
    simp [shown, Unmoved, Sends.interruptAt, Sends.skipPart, Sends.interruptPart,
      eq_comm]

theorem heldRequest_parts (h : heldRequest v = some v') :
    v'.parts = Sends.interruptParts v.parts true := by
  unfold heldRequest at h
  rw [Option.map_eq_some_iff] at h
  obtain ⟨w, hw, rfl⟩ := h
  split_ifs at hw with hnil
  · rw [Option.some.injEq] at hw
    rw [← hw, hnil]
    rfl
  · exact (Sends.summarize_fields hw).2.1

end Parts

section Changes

variable {scope : Scope} {j j' : Journal}

theorem Change.current (h : Change scope j j') (hk : Keyed j) (hc : Current j) : Current j' := by
  have hquiet (hq : Quiet j j') : Current j' := by
    intro id row' hrow' hlive
    obtain ⟨row, hrow, hcore⟩ := hq.before hrow'
    simp only [SendRequestRow.core, Prod.mk.injEq] at hcore
    obtain ⟨hepoch, -, -, hstate, -⟩ := hcore
    rw [hstate] at hlive
    rw [hepoch, hq.epoch]
    exact hc id row hrow hlive
  cases h with
  | quiet h _ => exact hquiet h
  | published r _ h _ => exact hquiet h
  | request v row found follows current _ updated =>
    intro id row' hrow' hlive
    rw [updated.get?] at hrow'
    rw [updated.epoch]
    split_ifs at hrow' with hid
    · subst hid
      rw [found, Option.map_some, Option.some.injEq] at hrow'
      rw [← hrow'] at hlive ⊢
      rw [← current hlive, follows.serverEpoch]
      exact (hk _ row found).serverEpoch.symm
    · exact hc id row' hrow' hlive
  | accepted input owner v h =>
    intro id row' hrow' hlive
    obtain ⟨route, now, hrows⟩ := h.rows
    rw [hrows] at hrow'
    rw [h.published.epoch]
    split_ifs at hrow' with hid
    · rw [Option.some.injEq] at hrow'
      rw [← hrow', ← h.current]
      rfl
    · exact hc id row' hrow' hlive
  | pruned cut h =>
    rw [h.effect]
    exact hc
  | ledger _ h =>
    obtain ⟨uploads, rfl⟩ := h.only
    exact hc
  | reset epoch _ h =>
    intro id row' hrow' hlive
    -- Nothing is pending after a reset: what was unsettled is held as unknown.
    have hunknown {v : SendRequest} {row : SendRequestRow} (hheld : heldRequest row.record = some v)
        (hstate : row'.state = v.state) : row'.epoch = j'.epoch := by
      rw [hstate, (heldRequest_follows hheld).2.1] at hlive
      rcases hlive with hlive | hlive <;> cases hlive
    cases h.requests id with
    | absent _ after _ => simp [after] at hrow'
    | settled row _ settled after _ =>
      rw [after, Option.some.injEq] at hrow'
      rw [← hrow'] at hlive
      rcases hlive with hlive | hlive <;> simp [unsettled, hlive] at settled
    | written row v revision _ _ _ held after _ =>
      rw [after, Option.some.injEq] at hrow'
      exact hunknown held (by rw [← hrow']; rfl)
    | legacy row v _ _ _ held after _ =>
      rw [after, Option.some.injEq] at hrow'
      exact hunknown held (by rw [← hrow']; rfl)

theorem projected_written {id : Bytes} {row row' : SendRequestRow} {v : SendRequest}
    (hid : v.requestId = id) (hrecord : row'.record.parts = v.parts)
    (hlength : v.parts.length = row.record.parts.length) (hp : Projected j id row)
    (hparts : ∀ n, j'.sendParts.get? (id, n) = writtenPart v (id, n) (j.sendParts.get? (id, n))) :
    Projected j' id row' := by
  intro n
  rw [hparts, hrecord, writtenPart, if_pos hid.symm]
  cases hpart : v.parts[n]? with
  | some part => rfl
  | none =>
    rw [List.getElem?_eq_none_iff, hlength, ← List.getElem?_eq_none_iff] at hpart
    have hbefore := hp n
    rw [hpart] at hbefore
    exact hbefore

theorem Quiet.mirrored (h : Quiet j j') (hm : Mirrored j) : Mirrored j' where
  projected id row' hrow' n := by
    obtain ⟨row, hrow, hcore⟩ := h.before hrow'
    simp only [SendRequestRow.core, Prod.mk.injEq] at hcore
    rw [h.parts, hcore.2.2.1]
    exact hm.projected id row hrow n
  referenced id n hnone := by
    have hrow : j.sendRequests.get? id = none := by
      have hrows := h.rows id
      rw [hnone, Option.map_none, eq_comm, Option.map_eq_none_iff] at hrows
      exact hrows
    have hparts := h.parts (id, n)
    rw [hm.referenced id n hrow, Option.map_none, Option.map_eq_none_iff] at hparts
    exact hparts

/-- No change but a reset can let a part row disagree. -/
theorem Change.mirrored (h : Change scope j j') (hfresh : scope.fresh = []) (hm : Mirrored j) :
    Mirrored j' := by
  cases h with
  | quiet h _ => exact h.mirrored hm
  | published r _ h _ => exact h.mirrored hm
  | request v row found follows _ _ updated =>
    refine ⟨fun id row' hrow' => ?_, fun id n hnone => ?_⟩
    · rw [updated.get?] at hrow'
      split_ifs at hrow' with hid
      · subst hid
        rw [found, Option.map_some, Option.some.injEq] at hrow'
        exact projected_written rfl (by rw [← hrow']; rfl) follows.parts (hm.projected _ row found)
          fun n => updated.parts _
      · intro n
        rw [updated.parts, writtenPart, if_neg hid]
        exact hm.projected id row' hrow' n
    · rw [updated.get?] at hnone
      split_ifs at hnone with hid
      · subst hid
        rw [found] at hnone
        cases hnone
      · rw [updated.parts, writtenPart, if_neg hid]
        exact hm.referenced id n hnone
  | accepted input owner v h =>
    have hid : v.requestId = input.requestId := by
      rw [h.record]
      rfl
    obtain ⟨route, now, hrows⟩ := h.rows
    refine ⟨fun id row' hrow' n => ?_, fun id n hnone => ?_⟩
    · rw [hrows] at hrow'
      split_ifs at hrow' with hnew
      · subst hnew
        rw [Option.some.injEq] at hrow'
        rw [h.parts, writtenPart, if_pos hid.symm, hm.referenced _ n h.absent, ← hrow']
        change _ = (v.parts[n]?).map _
        cases v.parts[n]? <;> rfl
      · rw [h.parts, writtenPart, if_neg (hid ▸ hnew)]
        exact hm.projected id row' hrow' n
    · rw [hrows] at hnone
      split_ifs at hnone with hnew
      rw [h.parts, writtenPart, if_neg (hid ▸ hnew)]
      exact hm.referenced id n hnone
  | pruned cut h =>
    rw [h.effect]
    exact ⟨hm.projected, hm.referenced⟩
  | ledger _ h =>
    obtain ⟨uploads, rfl⟩ := h.only
    exact ⟨hm.projected, hm.referenced⟩
  | reset _ drawn _ => exact absurd (hfresh ▸ drawn) List.not_mem_nil

/-- A row kept private still agrees when the reset moved none of its parts. -/
theorem projected_legacy {id : Bytes} {row : SendRequestRow} {v : SendRequest}
    (hheld : heldRequest row.record = some v) (hp : Projected j id row)
    (hparts : ∀ n, j'.sendParts.get? (id, n) = j.sendParts.get? (id, n)) :
    Projected j' id (writeRow v row) ↔ ∀ part ∈ row.record.parts, Unmoved part := by
  have hshown (n : Nat) : (v.parts[n]?).map shown =
      (row.record.parts[n]?).map fun part => shown (Sends.interruptAt true part) := by
    rw [heldRequest_parts hheld, Sends.interruptParts_get, Option.map_map]
    rfl
  have hrow (n : Nat) : (j'.sendParts.get? (id, n)).map SendPartRow.core =
      (row.record.parts[n]?).map shown := by
    rw [hparts]
    exact hp n
  constructor
  · intro h part hpart
    obtain ⟨n, hn⟩ := List.getElem?_of_mem hpart
    have hsame := (hrow n).symm.trans (h n)
    change _ = (v.parts[n]?).map shown at hsame
    rw [hshown, hn, Option.map_some, Option.map_some, Option.some.injEq] at hsame
    exact (interruptAt_shown part).mp hsame.symm
  · intro h n
    rw [hrow]
    change _ = (v.parts[n]?).map shown
    rw [hshown]
    cases hn : row.record.parts[n]? with
    | none => rfl
    | some part =>
      have hunmoved := (interruptAt_shown part).mpr (h part (List.mem_of_getElem? hn))
      rw [Option.map_some, Option.map_some, hunmoved]

/-- A reset keeps the part rows in agreement exactly when it moves no part of a
row it keeps private. -/
theorem ResetTo.mirrored_iff {epoch : Bytes} (h : ResetTo epoch j j') (hk : Keyed j)
    (hm : Mirrored j) : Mirrored j' ↔ Withstands j := by
  constructor
  · intro hm' id row hrow hunsettled hincompatible
    cases h.requests id with
    | absent before _ _ =>
      rw [before] at hrow
      cases hrow
    | settled row' before settled _ _ =>
      rw [before, Option.some.injEq] at hrow
      rw [hrow, hunsettled] at settled
      cases settled
    | written row' v revision before _ canonical held _ _ =>
      rw [before, Option.some.injEq] at hrow
      have hfollows := (heldRequest_follows held).1
      rw [hrow] at hfollows
      rw [hfollows.requestId, hfollows.serverEpoch, hincompatible] at canonical
      cases canonical
    | legacy row' v before _ _ held after parts =>
      rw [before, Option.some.injEq] at hrow
      rw [hrow] at held after
      exact (projected_legacy held (hm.projected id row (hrow ▸ before)) parts).mp
        (hm'.projected id _ after)
  · intro hw
    refine ⟨fun id row' hrow' => ?_, fun id n hnone => ?_⟩
    · cases h.requests id with
      | absent _ after _ => simp [after] at hrow'
      | settled row before _ after parts =>
        rw [after, Option.some.injEq] at hrow'
        intro n
        rw [parts, ← hrow']
        exact hm.projected id row before n
      | written row v revision before _ _ held after parts =>
        have hfollows := (heldRequest_follows held).1
        rw [after, Option.some.injEq] at hrow'
        exact projected_written (hfollows.requestId.trans (hk id row before).requestId)
          (by rw [← hrow']; rfl) hfollows.parts (hm.projected id row before) parts
      | legacy row v before unsettled incompatible held after parts =>
        have hfollows := (heldRequest_follows held).1
        rw [hfollows.requestId, hfollows.serverEpoch] at incompatible
        rw [after, Option.some.injEq] at hrow'
        rw [← hrow']
        exact (projected_legacy held (hm.projected id row before) parts).mpr
          (hw id row before unsettled incompatible)
    · cases h.requests id with
      | absent before _ parts => exact (parts n).trans (hm.referenced id n before)
      | settled row _ _ after _ => simp [after] at hnone
      | written row v revision _ _ _ _ after _ => simp [after] at hnone
      | legacy row v _ _ _ _ after _ => simp [after] at hnone

theorem Changed.current (h : Changed scope j j') (hk : Keyed j) (hc : Current j) : Current j' := by
  induction h with
  | refl => exact hc
  | tail hd h ih => exact h.current (Changed.keyed hd hk) ih

theorem Changed.mirrored (h : Changed scope j j') (hfresh : scope.fresh = []) (hm : Mirrored j) :
    Mirrored j' := by
  induction h with
  | refl => exact hm
  | tail _ h ih => exact h.mirrored hfresh ih

end Changes

section Runs

variable {enc : Encoding} {p : Process}

theorem run_current (h : p.Valid) (hc : Current p.journal) (actions : List Action) :
    Current ((relay enc).run p actions).journal :=
  ((relay enc).run_invariant (I := fun q => q.Valid ∧ Current q.journal)
    (fun _ a hq => ⟨(hq.1.step a).1, (hq.1.step a).2.changed.current hq.1.keyed hq.2⟩) p actions
    ⟨h, hc⟩).2

/-- A step keeps the agreement unless it resets a journal it moves parts in. -/
theorem Process.Valid.step_mirrored (h : p.Valid) (hm : Mirrored p.journal) {a : Action}
    (hw : p.resets a = true → Withstands p.journal) : Mirrored (p.step enc a).journal := by
  have hstepped : Stepped (p.scope a) p.journal (p.step enc a).journal := (h.step a).2
  rcases hstepped with hchanged | ⟨epoch, hepoch, middle, hreset, hchanged⟩
  · exact hchanged.mirrored rfl hm
  · have hresets : p.resets a = true := by
      by_contra hnot
      rw [Process.scope, Process.epochs, if_neg hnot] at hepoch
      exact List.not_mem_nil hepoch
    exact hchanged.mirrored rfl ((hreset.mirrored_iff h.keyed hm).mpr (hw hresets))

end Runs

/-- In every run, the columns of a request repeat its record and only requests
of the current epoch are pending, so the head of the queue is one. Where every
reset finds a journal it moves no private part in, the part rows repeat the
record too. -/
theorem journal_run_projected (enc : Encoding) {p : Process} (initial : p.Initial)
    (actions : List Action) :
    let j := ((relay enc).run p actions).journal
    (∀ id row, j.sendRequests.get? id = some row →
      row.state = row.record.state ∧ row.messageId = row.record.messageId ∧
        (Live row.state → row.epoch = j.epoch)) ∧
    (∀ id row, queueHead j = some (id, row) → row.epoch = j.epoch) ∧
    ((∀ before a after, actions = before ++ a :: after →
        ((relay enc).run p before).resets a = true →
        Withstands ((relay enc).run p before).journal) →
      ∀ id row, j.sendRequests.get? id = some row → Projected j id row) := by
  intro j
  have hvalid := initial.valid
  have hkeyed : Keyed j := (run_valid hvalid actions).keyed
  have hcurrent : Current j := run_current hvalid initial.inherited.current actions
  refine ⟨fun id row hrow => ?_, fun id row hhead => ?_, fun hmeets => ?_⟩
  · exact ⟨(hkeyed id row hrow).state, (hkeyed id row hrow).messageId, hcurrent id row hrow⟩
  · obtain ⟨hrow, hqueued⟩ := queueHead_some hhead
    exact hcurrent id row hrow (Or.inl hqueued)
  · have hmirrored : Mirrored p.journal :=
      ⟨initial.inherited.projected, initial.inherited.referenced⟩
    exact ((relay enc).run_invariant_when (I := fun q => q.Valid ∧ Mirrored q.journal)
      (C := fun q a => q.resets a = true → Withstands q.journal)
      (fun q a hq hw => ⟨(hq.1.step a).1, hq.1.step_mirrored hq.2 hw⟩) p actions
      ⟨hvalid, hmirrored⟩ hmeets).2.projected

namespace Sample

def resetHello : Action := .reset { now := 3, fresh := [text "CAAAAAAAAAAAAAAAAAAAAA"] } epoch

/-- The epoch and the identifiers of a journal from before the canonical ones. -/
def oldEpoch : Bytes := text "0e984725-c51c-4bf4-9960-e1c80e27aba0"
def oldId : Bytes := text "6f9619ff-8b86-d011-b42d-00c04fc964ff"

def photo : Upload where
  id := text "1b4e28ba-2fa1-11d2-883f-0016d3cca427"
  name := text "photo.png"
  mimeType := text "image/png"
  bytes := text "1"
  sha256 := []

def oldInput : SendInput where
  requestId := oldId
  serverEpoch := oldEpoch
  target := hello.target
  text := []
  attachments := [photo]

def oldRecord : SendRequest := { initialRequest oldInput with revision := 1 }

def oldEvent : EventRow where
  record := .request oldRecord
  origin := .reconciliation
  createdMs := 0

/-- An attachment request that an older relay accepted and never dispatched. -/
def oldJournal : Journal where
  epoch := oldEpoch
  sequence := 1
  sendRequests := Table.empty.upsert oldId
    (acceptedRow oldInput oldRecord { mode := .direct, destination := [] } 0) id
  sendParts := Table.empty.upsert (oldId, 0) { state := .queued } id
  events := Table.empty.upsert 1 oldEvent id
  log := [{ sequence := 1, record := .request oldRecord, origin := .reconciliation }]

def oldRelay : Process where
  journal := oldJournal
  issued := [oldEpoch]

def resetOld : List Action := [
  .launch { now := 1 },
  .reset { now := 2, fresh := [epoch] } oldEpoch]

theorem oldJournal_row {id : Bytes} {row : SendRequestRow}
    (h : oldJournal.sendRequests.get? id = some row) :
    id = oldId ∧ row = acceptedRow oldInput oldRecord { mode := .direct, destination := [] } 0 := by
  simp only [oldJournal, Table.get?_upsert, Table.get?_empty] at h
  split_ifs at h with hid
  rw [Option.elim_none, Option.some.injEq] at h
  exact ⟨hid, h.symm⟩

theorem oldJournal_published : Published { epoch := oldEpoch } (.request oldRecord) oldJournal := by
  refine ⟨rfl, by decide, rfl, rfl, rfl, rfl, ⟨.reconciliation, rfl, 0, rfl⟩, ?_⟩
  rintro ⟨kind, id⟩
  cases kind with
  | request =>
    have hkey : (Record.request oldRecord).key = (.request, oldId) := rfl
    by_cases hid : id = oldId <;> simp [stored, oldJournal, Table.get?_upsert, hkey, hid, acceptedRow]
  | conversation => rfl
  | message => rfl
  | identity => rfl

theorem oldRelay_initial : oldRelay.Initial where
  inherited := by
    have hcoherent := oldJournal_published.coherent (inherited_new oldEpoch).coherent
    refine ⟨fun id row hrow => ?_, fun id row hrow n => ?_, fun id n hnone => ?_,
      fun id row hrow _ => ?_, hcoherent.logged, fun id row hrow hnone => ?_⟩
    · obtain ⟨rfl, rfl⟩ := oldJournal_row hrow
      exact ⟨rfl, rfl, rfl, rfl⟩
    · obtain ⟨rfl, rfl⟩ := oldJournal_row hrow
      have hparts : oldRecord.parts = [{ kind := .attachment, attachmentId := some photo.id }] := rfl
      change (oldJournal.sendParts.get? (oldId, n)).map _ = (oldRecord.parts[n]?).map _
      rw [hparts]
      cases n with
      | zero => rfl
      | succ n => simp [oldJournal, Table.get?_upsert]
    · have hid : id ≠ oldId := by
        rintro rfl
        cases hnone
      change oldJournal.sendParts.get? (id, n) = none
      simp [oldJournal, Table.get?_upsert, hid]
    · obtain ⟨rfl, rfl⟩ := oldJournal_row hrow
      rfl
    · obtain ⟨rfl, rfl⟩ := oldJournal_row hrow
      cases hnone
  stopped := rfl
  idle := rfl
  unobserved := rfl
  issued := List.mem_singleton_self oldEpoch
  issuedRows id row hrow := by
    obtain ⟨rfl, rfl⟩ := oldJournal_row hrow
    exact List.mem_singleton_self oldEpoch

end Sample

/-- The reset skips the part in the record; its row stays queued. -/
theorem journal_run_projected_oldReset :
    let j := ((relay Sample.encoding).run Sample.oldRelay Sample.resetOld).journal
    Sample.oldRelay.Initial ∧
      ∃ row, j.sendRequests.get? Sample.oldId = some row ∧ ¬ Projected j Sample.oldId row := by
  intro j
  have hpart : (j.sendParts.get? (Sample.oldId, 0)).map SendPartRow.core = some (.queued, none) := by
    decide +kernel
  have hrecord : (j.sendRequests.get? Sample.oldId).map (fun row => row.record.parts.map shown) =
      some [(.skipped, none)] := by
    decide +kernel
  rw [Option.map_eq_some_iff] at hrecord
  obtain ⟨row, hrow, hparts⟩ := hrecord
  refine ⟨Sample.oldRelay_initial, row, hrow, fun h => ?_⟩
  have hshown := h 0
  change _ = (row.record.parts[0]?).map shown at hshown
  rw [← List.getElem?_map, hparts, hpart] at hshown
  exact nomatch hshown

theorem journal_run_projected_hello :
    let j := ((relay Sample.encoding).run (.new Sample.epoch)
      (Sample.markHello ++ [Sample.resetHello])).journal
    j.epoch ≠ Sample.epoch ∧
      ∀ row, j.sendRequests.get? Sample.requestId = some row → Projected j Sample.requestId row := by
  refine ⟨by decide +kernel, fun row hrow => ?_⟩
  refine (journal_run_projected Sample.encoding (Process.new_initial Sample.epoch)
    (Sample.markHello ++ [Sample.resetHello])).2.2 (fun before a after h hresets => ?_) _ row hrow
  obtain rfl : before = Sample.markHello := by
    rcases List.eq_nil_or_concat after with rfl | ⟨middle, last, rfl⟩
    · exact (List.append_inj_left' h rfl).symm
    · have hmem : a ∈ Sample.markHello := by
        rw [List.concat_eq_append, ← List.cons_append, ← List.append_assoc] at h
        rw [List.append_inj_left' h rfl]
        simp
      simp only [Sample.markHello, List.mem_cons, List.not_mem_nil, or_false] at hmem
      rcases hmem with rfl | rfl | rfl <;> exact nomatch hresets
  have hcanonical : (((relay Sample.encoding).run (.new Sample.epoch)
      Sample.markHello).journal.sendRequests.rows.all fun r =>
        validId r.2.record.requestId && validId r.2.record.serverEpoch) = true := by
    decide +kernel
  intro id row hrow _ hincompatible
  rw [Table.get?_eq_some_iff] at hrow
  rw [List.all_eq_true.mp hcanonical _ hrow] at hincompatible
  exact nomatch hincompatible

end Zimbr.Relay
