import Zimbr.Relay.Ingestion
import Zimbr.Relay.Observation
import Zimbr.Relay.SendsOrder

set_option autoImplicit false

/-!
# The changes a committed transaction makes

Every transaction of the relay is a sequence of these changes, so an invariant
of the journal is proved once for each of them.
-/
namespace Zimbr.Relay
open Library

/-- The part still needs its original: it may have been executed, and it is not
known to be delivered. -/
def needsOriginal (part : SendPart) : Bool :=
  part.kind = .attachment && part.state != .delivered && !unstartedAttachment part

/-- What every write of a part keeps: what it sends, that it started, and that
it needs its original no more. -/
structure Continues (p p' : SendPart) : Prop where
  kind : p'.kind = p.kind
  attachmentId : p'.attachmentId = p.attachmentId
  started : p.state ≠ .queued → p'.state ≠ .queued
  original : needsOriginal p = false → needsOriginal p' = false

theorem Continues.refl (p : SendPart) : Continues p p := ⟨rfl, rfl, id, id⟩

theorem Continues.trans {p q r : SendPart} (h : Continues p q) (h' : Continues q r) :
    Continues p r :=
  ⟨h'.kind.trans h.kind, h'.attachmentId.trans h.attachmentId, h'.started ∘ h.started,
    h'.original ∘ h.original⟩

theorem Continues.of_pending {p p' : SendPart} (hkind : p'.kind = p.kind)
    (hid : p'.attachmentId = p.attachmentId) (hstate : p'.state ≠ .queued)
    (hpending : p.state ≠ .delivered ∧ p.state ≠ .failed ∧ p.state ≠ .skipped) :
    Continues p p' := by
  refine ⟨hkind, hid, fun _ => hstate, fun hp => ?_⟩
  simp only [needsOriginal, unstartedAttachment, hkind] at hp ⊢
  simp_all

/-- What every write of a request keeps: its identity, its content and the
parts it consists of, and that what started stays started. -/
structure Follows (v v' : SendRequest) : Prop where
  requestId : v'.requestId = v.requestId
  serverEpoch : v'.serverEpoch = v.serverEpoch
  target : v'.target = v.target
  text : v'.text = v.text
  attachments : v'.attachments = v.attachments
  parts : v'.parts.length = v.parts.length
  started : v.parts = [] → v.state ≠ .queued → v'.state ≠ .queued
  part : ∀ (i : Nat) (p p' : SendPart), v.parts[i]? = some p → v'.parts[i]? = some p' →
    Continues p p'

theorem Follows.refl (v : SendRequest) : Follows v v where
  requestId := rfl
  serverEpoch := rfl
  target := rfl
  text := rfl
  attachments := rfl
  parts := rfl
  started _ h := h
  part i p p' hp hp' := by
    rw [hp, Option.some.injEq] at hp'
    rw [← hp']
    exact Continues.refl p

theorem Follows.startedPart {v v' : SendRequest} (h : Follows v v') (i : Nat) (p p' : SendPart)
    (hp : v.parts[i]? = some p) (hp' : v'.parts[i]? = some p') (hs : p.state ≠ .queued) :
    p'.state ≠ .queued :=
  (h.part i p p' hp hp').started hs

theorem Follows.nil {v v' : SendRequest} (h : Follows v v') : v'.parts = [] ↔ v.parts = [] := by
  rw [← List.length_eq_zero_iff, ← List.length_eq_zero_iff, h.parts]

theorem Follows.trans {v₁ v₂ v₃ : SendRequest} (h : Follows v₁ v₂) (h' : Follows v₂ v₃) :
    Follows v₁ v₃ where
  requestId := h'.requestId.trans h.requestId
  serverEpoch := h'.serverEpoch.trans h.serverEpoch
  target := h'.target.trans h.target
  text := h'.text.trans h.text
  attachments := h'.attachments.trans h.attachments
  parts := h'.parts.trans h.parts
  started hnil hs := h'.started (h.nil.mpr hnil) (h.started hnil hs)
  part i p p' hp hp' := by
    have hi : i < v₂.parts.length := by
      rw [h.parts]
      exact (List.getElem?_eq_some_iff.mp hp).1
    have hq : v₂.parts[i]? = some v₂.parts[i] := List.getElem?_eq_getElem hi
    exact (h.part i p _ hp hq).trans (h'.part i _ p' hq hp')

theorem Follows.of_parts {v v' : SendRequest} (hid : v'.requestId = v.requestId)
    (hepoch : v'.serverEpoch = v.serverEpoch) (htarget : v'.target = v.target)
    (htext : v'.text = v.text) (hattachments : v'.attachments = v.attachments)
    (hparts : v'.parts = v.parts) (hstate : v.state ≠ .queued → v'.state ≠ .queued) :
    Follows v v' where
  requestId := hid
  serverEpoch := hepoch
  target := htarget
  text := htext
  attachments := hattachments
  parts := by rw [hparts]
  started _ := hstate
  part i p p' hp hp' := by
    rw [hparts, hp, Option.some.injEq] at hp'
    rw [← hp']
    exact Continues.refl p

section Sends

variable {v v' : SendRequest}

theorem follows_of_summarize {parts : List SendPart} {f : Nat → SendPart → SendPart}
    (h : Sends.summarize { v with parts := parts } = some v')
    (hget : ∀ k : Nat, parts[k]? = (v.parts[k]?).map (f k))
    (hf : ∀ k p, v.parts[k]? = some p → Continues p (f k p)) : Follows v v' := by
  obtain ⟨hne, hparts, hid, hepoch, hattachments, htext, htarget, -, -, -⟩ :=
    Sends.summarize_fields h
  have hlength : parts.length = v.parts.length := by
    apply Nat.le_antisymm
    · rw [← List.getElem?_eq_none_iff, hget, List.getElem?_eq_none (Nat.le_refl _)]
      rfl
    · rw [← List.getElem?_eq_none_iff, ← Option.map_eq_none_iff, ← hget,
        List.getElem?_eq_none (Nat.le_refl _)]
  refine ⟨hid, hepoch, htarget, htext, hattachments, by rw [hparts]; exact hlength, ?_, ?_⟩
  · intro hnil
    rw [hnil, List.length_nil, List.length_eq_zero_iff] at hlength
    exact absurd hlength hne
  · intro i p p' hp hp'
    rw [hparts] at hp'
    change parts[i]? = some p' at hp'
    rw [hget, hp, Option.map_some, Option.some.injEq] at hp'
    rw [← hp']
    exact hf i p hp

theorem skipPart_continues (code : String) (p : SendPart) : Continues p (Sends.skipPart code p) := by
  unfold Sends.skipPart
  split_ifs with hp
  · exact .of_pending rfl rfl (fun h => nomatch h) (by simp [hp])
  · exact Continues.refl p

theorem start_follows {i : Nat} (h : Sends.start v i = some v') : Follows v v' := by
  unfold Sends.start at h
  split_ifs at h with hnext
  obtain ⟨q, hq, hqueued, -⟩ := Sends.next_spec hnext
  refine follows_of_summarize h (fun k => Sends.getElem?_modify_ite v.parts i k _) ?_
  intro k p hp
  split_ifs with hk
  · rw [← hk, hq, Option.some.injEq] at hp
    exact .of_pending rfl rfl (fun h => nomatch h) (by simp [← hp, hqueued])
  · exact Continues.refl p

theorem finish_follows {i : Nat} {outcome : Sends.Outcome} (h : Sends.finish v i outcome = some v') :
    Follows v v' := by
  unfold Sends.finish at h
  split at h
  · next q hq =>
    split_ifs at h with hstate
    refine follows_of_summarize h (Sends.finishParts_get v.parts i outcome) ?_
    intro k p hp
    have hfinish (hk : i = k) : Continues p (Sends.finishPart outcome p) := by
      rw [← hk, hq, Option.some.injEq] at hp
      have hpending : p.state ≠ .delivered ∧ p.state ≠ .failed ∧ p.state ≠ .skipped := by
        simp [← hp, hstate]
      cases outcome with
      | invoked => exact .of_pending rfl rfl (fun h => nomatch h) hpending
      | unstarted code => exact .of_pending rfl rfl (fun h => nomatch h) hpending
      | uncertain code => exact .of_pending rfl rfl (fun h => nomatch h) hpending
    unfold Sends.finishAt
    split_ifs with hk
    · exact hfinish hk
    · exact (hfinish hk).trans (skipPart_continues _ _)
    · exact Continues.refl p
    · exact skipPart_continues _ _
  · simp at h

theorem observe_follows {i : Nat} {messageId : Bytes} {status : Sends.Observed}
    (h : Sends.observe v i messageId status = some v') : Follows v v' := by
  unfold Sends.observe at h
  split at h
  · next q hq =>
    split_ifs at h with hobservable
    refine follows_of_summarize h (Sends.observeParts_get v.parts i messageId status) ?_
    intro k p hp
    have hobserve (hk : i = k) : Continues p (Sends.observePart messageId status p) := by
      rw [← hk, hq, Option.some.injEq] at hp
      have hpending : p.state ≠ .delivered ∧ p.state ≠ .failed ∧ p.state ≠ .skipped := by
        rw [← hp]
        refine ⟨fun hs => ?_, fun hs => ?_, fun hs => ?_⟩ <;> simp [Sends.observable, hs] at hobservable
      cases status with
      | submitted => exact .of_pending rfl rfl (fun h => by cases h) hpending
      | delivered => exact .of_pending rfl rfl (fun h => by cases h) hpending
      | failed => exact .of_pending rfl rfl (fun h => by cases h) hpending
    unfold Sends.observeAt
    split_ifs with hk
    · exact (hobserve hk).trans (skipPart_continues _ _)
    · exact hobserve hk
    · exact skipPart_continues _ _
    · exact Continues.refl p
  · simp at h

theorem interrupt_follows {reset : Bool} (h : Sends.interrupt v reset = some v') :
    Follows v v' := by
  refine follows_of_summarize h (Sends.interruptParts_get v.parts reset) ?_
  intro k p _
  have hinterrupt : Continues p (Sends.interruptPart reset p) := by
    unfold Sends.interruptPart
    by_cases hp : p.state = .dispatching
    · rw [if_pos hp]
      cases reset with
      | false => exact .of_pending rfl rfl (fun h => nomatch h) (by simp [hp])
      | true => exact .of_pending rfl rfl (fun h => nomatch h) (by simp [hp])
    · rw [if_neg hp]
      cases reset with
      | false => exact Continues.refl p
      | true => exact ⟨rfl, rfl, id, id⟩
  exact hinterrupt.trans (skipPart_continues _ _)

end Sends

section Writers

variable {v v' : SendRequest}

theorem interruptedRequest_follows (h : interruptedRequest v = some v') :
    Follows v v' ∧ v'.state = .unknown := by
  unfold interruptedRequest at h
  rw [Option.map_eq_some_iff] at h
  obtain ⟨w, hw, rfl⟩ := h
  have hinterrupted : Follows v w := by
    split_ifs at hw
    · rw [Option.some.injEq] at hw
      rw [hw]
      exact Follows.refl w
    · exact interrupt_follows hw
  exact ⟨hinterrupted.trans (.of_parts rfl rfl rfl rfl rfl rfl fun _ => nofun), rfl⟩

theorem heldRequest_follows (h : heldRequest v = some v') :
    Follows v v' ∧ v'.state = .unknown ∧ v'.messageId = none := by
  unfold heldRequest at h
  rw [Option.map_eq_some_iff] at h
  obtain ⟨w, hw, rfl⟩ := h
  have hinterrupted : Follows v w := by
    split_ifs at hw
    · rw [Option.some.injEq] at hw
      rw [hw]
      exact Follows.refl w
    · exact interrupt_follows hw
  exact ⟨hinterrupted.trans (.of_parts rfl rfl rfl rfl rfl rfl fun _ => nofun), rfl, rfl⟩

theorem rejected_follows {code : String} (h : rejected v code = some v') : Follows v v' := by
  unfold rejected at h
  split_ifs at h
  · rw [Option.some.injEq] at h
    rw [← h]
    exact .of_parts rfl rfl rfl rfl rfl rfl fun _ => nofun
  · simp only [Option.bind_eq_bind, Option.bind_eq_some_iff] at h
    obtain ⟨position, -, w, hstart, hfinish⟩ := h
    exact (start_follows hstart).trans (finish_follows hfinish)

theorem dispatching_follows {part : Option Nat} (h : dispatching v = some (v', part)) :
    Follows v v' := by
  unfold dispatching at h
  split_ifs at h
  · simp only [Option.some.injEq, Prod.mk.injEq] at h
    rw [← h.1]
    exact .of_parts rfl rfl rfl rfl rfl rfl fun _ => nofun
  · simp only [Option.bind_eq_bind, Option.bind_eq_some_iff, Option.some.injEq,
      Prod.mk.injEq] at h
    obtain ⟨position, -, w, hstart, rfl, -⟩ := h
    exact start_follows hstart

theorem linkedStatus_ne (status : ObservedStatus) :
    linkedStatus status ≠ .queued ∧ linkedStatus status ≠ .dispatching := by
  cases status <;> exact ⟨nofun, nofun⟩

theorem reconciled_follows {j : Journal} {now : Int} {row : SendRequestRow}
    (h : reconciled j now v row = some v') : Follows v v' := by
  have hcandidate (id : Option Bytes) : Follows v { v with candidateMessageId := id } :=
    .of_parts rfl rfl rfl rfl rfl rfl fun hs => hs
  unfold reconciled at h
  dsimp only at h
  split at h
  · split at h
    · split_ifs at h
      rw [Option.some.injEq] at h
      rw [← h]
      exact hcandidate _
    · rw [Option.some.injEq] at h
      rw [← h]
      exact .of_parts rfl rfl rfl rfl rfl rfl fun _ => (linkedStatus_ne _).1
  · split_ifs at h
    rw [Option.some.injEq] at h
    rw [← h]
    exact hcandidate _

theorem refreshed_follows {status : ObservedStatus} (h : refreshed v status = some v') :
    Follows v v' := by
  cases status with
  | delivered =>
    simp only [refreshed, Option.some.injEq] at h
    rw [← h]
    exact .of_parts rfl rfl rfl rfl rfl rfl fun _ => nofun
  | failed =>
    simp only [refreshed, Option.some.injEq] at h
    rw [← h]
    exact .of_parts rfl rfl rfl rfl rfl rfl fun _ => nofun
  | received => simp [refreshed] at h
  | sent => simp [refreshed] at h
  | unknown => simp [refreshed] at h

theorem published_follows {now : Int} {work : Observation.Work} {part : SendPart}
    {candidate : Option Observation.Candidate} {mid : Option Bytes} {confirmed : Bool}
    (h : Observation.published now work v part candidate mid = some (some (v', confirmed))) :
    Follows v v' := by
  unfold Observation.published at h
  dsimp only at h
  split_ifs at h
  · simp at h
  · simp at h
  · simp at h
  · simp at h
  · simp only [Option.bind_eq_bind, Option.bind_eq_some_iff, Option.some.injEq,
      Prod.mk.injEq] at h
    obtain ⟨observed, -, w, hobserve, rfl, -⟩ := h
    exact observe_follows hobserve
  · simp only [Option.some.injEq, Prod.mk.injEq] at h
    rw [← h.1]
    refine ⟨rfl, rfl, rfl, rfl, rfl, by simp, fun _ hs => hs, ?_⟩
    intro i p p' hp hp'
    dsimp only at hp'
    rw [Sends.getElem?_modify_ite, hp, Option.map_some, Option.some.injEq] at hp'
    rw [← hp']
    split_ifs
    · exact ⟨rfl, rfl, id, id⟩
    · exact Continues.refl p

end Writers

/-- The columns of a request row that decide anything later. -/
def SendRequestRow.core (r : SendRequestRow) :
    Bytes × SendInput × SendRequest × SendStatus × Option Bytes :=
  (r.epoch, r.payload, r.record, r.state, r.messageId)

def SendPartRow.core (p : SendPartRow) : PartState × Option Bytes := (p.state, p.messageId)

def Finished (j : Journal) (requestId uploadId : Bytes) : Prop :=
  ∃ row part, j.sendRequests.get? requestId = some row ∧ part ∈ row.record.parts ∧
    part.attachmentId = some uploadId ∧ needsOriginal part = false

/-- What a part needs no more, no later record of its request needs. -/
theorem Finished.follow {j j' : Journal} {requestId uploadId : Bytes}
    (h : Finished j requestId uploadId)
    (hrows : ∀ row, j.sendRequests.get? requestId = some row →
      ∃ row', j'.sendRequests.get? requestId = some row' ∧ Follows row.record row'.record) :
    Finished j' requestId uploadId := by
  obtain ⟨row, part, hrow, hpart, hid, hneeds⟩ := h
  obtain ⟨row', hrow', hfollows⟩ := hrows row hrow
  obtain ⟨i, hi⟩ := List.mem_iff_getElem?.mp hpart
  have hlt : i < row'.record.parts.length := by
    rw [hfollows.parts]
    exact (List.getElem?_eq_some_iff.mp hi).1
  have hcontinues := hfollows.part i part _ hi (List.getElem?_eq_getElem hlt)
  exact ⟨row', _, hrow', List.getElem_mem hlt, hcontinues.attachmentId.trans hid,
    hcontinues.original hneeds⟩

theorem unstarted_finished {part : SendPart} (h : unstartedAttachment part = true) :
    needsOriginal part = false := by
  simp [needsOriginal, h]

/-- Upload rows stay as they were; only the originals of finished parts retire. -/
def Spared (j j' : Journal) : Prop := ∀ id, j'.uploads.get? id = j.uploads.get? id ∨
  ∃ r requestId, j.uploads.get? id = some r ∧ r.state = .pinned ∧ r.requestId = some requestId ∧
    Finished j' requestId id ∧ j'.uploads.get? id = some { r with state := .deleting }

theorem Spared.of_eq {j j' : Journal} (h : j'.uploads = j.uploads) : Spared j j' :=
  fun id => Or.inl (by rw [h])

/-- What is spared stays spared while requests go on from their records. -/
theorem Spared.trans {j₁ j₂ j₃ : Journal} (h : Spared j₁ j₂) (h' : Spared j₂ j₃)
    (hrows : ∀ id row, j₂.sendRequests.get? id = some row →
      ∃ row', j₃.sendRequests.get? id = some row' ∧ Follows row.record row'.record) :
    Spared j₁ j₃ := by
  intro id
  rcases h id with hsame | ⟨r, requestId, hr, hpinned, howner, hfinished, hafter⟩
  · rw [← hsame]
    exact h' id
  · refine Or.inr ⟨r, requestId, hr, hpinned, howner, hfinished.follow (hrows requestId), ?_⟩
    rcases h' id with hsame | ⟨r', _, hr', hpinned', -⟩
    · rw [hsame, hafter]
    · rw [hafter, Option.some.injEq] at hr'
      rw [← hr'] at hpinned'
      exact nomatch hpinned'

/-- A written record gives up only what its own finished parts had pinned. -/
theorem Updated.spared {j j' : Journal} {v : SendRequest} (h : Updated j v j')
    (hrow : (j.sendRequests.get? v.requestId).isSome = true) : Spared j j' := by
  intro id
  refine (h.uploads id).imp_right ?_
  rintro ⟨r, part, hr, hpinned, howner, hpart, hunstarted, hid, hafter⟩
  obtain ⟨row, hrow⟩ := Option.isSome_iff_exists.mp hrow
  refine ⟨r, v.requestId, hr, hpinned, howner,
    ⟨writeRow v row, part, ?_, hpart, hid, unstarted_finished hunstarted⟩, hafter⟩
  rw [h.get?, if_pos rfl, hrow]
  rfl

/-- No request and no part changed state, and no number was taken. -/
structure Quiet (j j' : Journal) : Prop where
  epoch : j'.epoch = j.epoch
  rows : ∀ id, (j'.sendRequests.get? id).map SendRequestRow.core =
    (j.sendRequests.get? id).map SendRequestRow.core
  parts : ∀ key, (j'.sendParts.get? key).map SendPartRow.core =
    (j.sendParts.get? key).map SendPartRow.core
  boundary : ∀ id row', j'.sendRequests.get? id = some row' → row'.dispatchMs.isSome = true →
    row'.record.parts = [] ∨ ∃ row, j.sendRequests.get? id = some row ∧ row.dispatchMs.isSome = true
  owners : j'.sendOwners = j.sendOwners
  spared : Spared j j'

theorem SameSends.quiet {j j' : Journal} (h : SameSends j j') : Quiet j j' :=
  ⟨h.epoch, fun id => by rw [h.sendRequests], fun key => by rw [h.sendParts],
    fun id row' hrow' hdispatched => Or.inr ⟨row', by rw [← h.sendRequests]; exact hrow', hdispatched⟩,
    h.sendOwners, .of_eq h.uploads⟩

def Live (s : SendStatus) : Prop := s = .queued ∨ s = .dispatching

instance (s : SendStatus) : Decidable (Live s) := by
  unfold Live
  infer_instance

def acceptedRow (input : SendInput) (v : SendRequest) (route : Route) (now : Int) : SendRequestRow where
  epoch := input.serverEpoch
  payload := input
  record := v
  state := .queued
  mode := route.mode
  route := route.destination
  acceptedMs := now

def Pinned (input : SendInput) (owner : Option Bytes) (id : Bytes) (old new : Option UploadRow) :
    Prop :=
  (∀ file ∈ input.attachments, file.id ≠ id) ∧ new = old ∨
    ∃ file ∈ input.attachments, ∃ r, file.id = id ∧ old = some r ∧ r.record = file ∧
      owner = some r.owner ∧ r.epoch = input.serverEpoch ∧ r.state = .ready ∧
      new = some { r with state := .pinned, requestId := some input.requestId }

structure AcceptedAs (j : Journal) (input : SendInput) (owner : Option Bytes) (v : SendRequest)
    (j' : Journal) : Prop where
  absent : j.sendRequests.get? input.requestId = none
  current : input.serverEpoch = j.epoch
  valid : validate input = .ok ()
  record : v = { initialRequest input with revision := j.sequence + 1 }
  rows : ∃ route now, ∀ id, j'.sendRequests.get? id =
    if id = input.requestId then some (acceptedRow input v route now) else j.sendRequests.get? id
  parts : ∀ key, j'.sendParts.get? key = writtenPart v key (j.sendParts.get? key)
  unowned : input.attachments ≠ [] → j.sendOwners.get? input.requestId = none
  owners : ∀ id, j'.sendOwners.get? id =
    if id = input.requestId ∧ input.attachments ≠ [] then owner else j.sendOwners.get? id
  published : Published j (.request v) j'
  uploads : ∀ id, Pinned input owner id (j.uploads.get? id) (j'.uploads.get? id)

structure Pruned (j : Journal) (cut : Nat) (j' : Journal) : Prop where
  reached : cut = 0 ∨ ∃ row, j.events.get? cut = some row
  effect : j' = { j with
    prunedThrough := max j.prunedThrough cut
    events := j.events.deleteWhere fun seq _ => seq ≤ cut }

inductive HeldAs (j j' : Journal) (id : Bytes) : Prop where
  | absent (before : j.sendRequests.get? id = none) (after : j'.sendRequests.get? id = none)
    (parts : ∀ n, j'.sendParts.get? (id, n) = j.sendParts.get? (id, n))
  | settled (row : SendRequestRow) (before : j.sendRequests.get? id = some row)
    (settled : unsettled row.state = false) (after : j'.sendRequests.get? id = some row)
    (parts : ∀ n, j'.sendParts.get? (id, n) = j.sendParts.get? (id, n))
  | written (row : SendRequestRow) (v : SendRequest) (revision : Nat)
    (before : j.sendRequests.get? id = some row) (unsettled : unsettled row.state = true)
    (canonical : (validId v.requestId && validId v.serverEpoch) = true)
    (held : heldRequest row.record = some v)
    (after : j'.sendRequests.get? id = some (writeRow { v with revision := revision } row))
    (parts : ∀ n, j'.sendParts.get? (id, n) = writtenPart v (id, n) (j.sendParts.get? (id, n)))
  | legacy (row : SendRequestRow) (v : SendRequest)
    (before : j.sendRequests.get? id = some row) (unsettled : unsettled row.state = true)
    (incompatible : (validId v.requestId && validId v.serverEpoch) = false)
    (held : heldRequest row.record = some v)
    (after : j'.sendRequests.get? id = some (writeRow v row))
    (parts : ∀ n, j'.sendParts.get? (id, n) = j.sendParts.get? (id, n))

/-- The log numbers every event of the epoch, and the records follow it. -/
structure Logged (j : Journal) : Prop where
  numbered : ChangeLog.Numbered Event.sequence j.log j.sequence
  bounded : j.sequence ≤ maxInt
  pruned : j.prunedThrough ≤ j.sequence
  revision : ∀ e ∈ j.log, e.record.revision = e.sequence
  retained : ∀ seq row, j.events.get? seq = some row →
    j.prunedThrough < seq ∧ { sequence := seq, record := row.record, origin := row.origin } ∈ j.log
  kept : ∀ e ∈ j.log, j.prunedThrough < e.sequence →
    ∃ row, j.events.get? e.sequence = some row ∧ row.record = e.record ∧ row.origin = e.origin
  latest : ∀ k e, ChangeLog.latest (fun e => e.record.key) j.log k = some e →
    stored j k = some e.record
  sourced : ∀ k r, stored j k = some r →
    ChangeLog.latest (fun e => e.record.key) j.log k = none → k.1 = .request

/-- A reset: a new epoch, an empty source and every unsettled request held. -/
structure ResetTo (epoch : Bytes) (j j' : Journal) : Prop where
  epoch : j'.epoch = epoch
  requests : ∀ id, HeldAs j j' id
  owners : j'.sendOwners = j.sendOwners
  pruned : j'.prunedThrough = 0
  logged : Logged j'
  held : j'.held = j'.sendRequests.rows.map fun r => (r.1, r.2.record)
  spared : Spared j j'

/-- Only the upload ledger changed, and no pinned original in it. -/
structure Kept (j j' : Journal) : Prop where
  only : ∃ uploads, j' = { j with uploads := uploads }
  pinned : ∀ id r, j.uploads.get? id = some r → r.state = .pinned →
    j'.uploads.get? id = some r

theorem Kept.silent {j j' : Journal} (h : Kept j j') : Silent j j' := by
  obtain ⟨uploads, rfl⟩ := h.only
  refine ⟨rfl, rfl, rfl, rfl, rfl, rfl, fun k => ?_⟩
  obtain ⟨kind, id⟩ := k
  cases kind <;> rfl

/-- What the changes of a step may do: the identifiers a reset may draw, and
whether the step belongs to the upload ledger, recovers dispatches or reconciles
text requests. -/
structure Scope where
  fresh : List Bytes := []
  ledger : Bool := false
  recovers : Bool := false
  reconciles : Bool := false
  /-- The request whose automation ended. -/
  sent : Option SendRequest := none
  /-- The echo that an observation publishes for its part. -/
  echo : Option (Observation.Work × Observation.Candidate) := none

/-- The text and the parts stay linked to the messages they were linked to. -/
structure SameLinks (v v' : SendRequest) : Prop where
  message : v'.messageId = v.messageId ∨ v'.parts ≠ [] ∧ v'.messageId = none
  parts : ∀ n : Nat, (v'.parts[n]?).map SendPart.messageId = (v.parts[n]?).map SendPart.messageId

/-- What a write of a request does to the messages its text and its parts are
linked to. -/
inductive Links (scope : Scope) (j : Journal) (row : SendRequestRow) (v : SendRequest) : Prop where
  | kept (same : SameLinks row.record v)
      (live : v.parts = [] → Live v.state → Live row.record.state)
      (held : row.record.parts = [] → row.record.state = .dispatching → scope.recovers = true)
      (current : row.epoch = j.epoch ∨ row.state = .dispatching)
  | sent (work : SendRequest) (sent : scope.sent = some work) (empty : v.parts = [])
      (message : v.messageId = work.messageId) (settled : ¬ Live v.state)
      (tracks : Follows work row.record) (current : row.epoch = j.epoch)
  | text (id : Bytes) (m : MessageRow) (dispatched : row.dispatchMs.isSome = true)
      (before : row.record.messageId = none) (after : v.messageId = some id)
      (parts : v.parts = row.record.parts)
      (settled : ¬ Live row.record.state ∧ ¬ Live v.state) (current : row.epoch = j.epoch)
      (echo : (id, m) ∈ echoes j row) (alone : competingRequest j row.record m = false)
      (aloneParts : competingPart j row.record m = false)
      (allowed : scope.reconciles = true)
  | part (n : Nat) (id : Bytes) (m : MessageRow) (work : Observation.Work)
      (echo : Observation.Candidate) (seen : scope.echo = some (work, echo))
      (request : Follows work.request row.record) (position : work.position = n)
      (message : v.messageId = none)
      (before : (row.record.parts[n]?).map SendPart.messageId = some none)
      (after : ∀ k : Nat, (v.parts[k]?).map SendPart.messageId =
        if k = n then some (some id) else (row.record.parts[k]?).map SendPart.messageId)
      (current : row.epoch = j.epoch)
      (found : Observation.matchingMessage work echo j = some (id, m))
      (alone : Observation.available j work echo id m = true)

inductive Change (scope : Scope) (j j' : Journal) : Prop where
  | quiet (h : Quiet j j') (silent : Silent j j')
  | published (r : Record) (source : r.kind ≠ .request) (h : Quiet j j') (published : Published j r j')
  | request (v : SendRequest) (row : SendRequestRow)
    (found : j.sendRequests.get? v.requestId = some row) (follows : Follows row.record v)
    (current : Live v.state → v.serverEpoch = j.epoch) (links : Links scope j row v)
    (updated : Updated j v j')
  | accepted (input : SendInput) (owner : Option Bytes) (v : SendRequest)
    (h : AcceptedAs j input owner v j')
  | pruned (cut : Nat) (h : Pruned j cut j')
  | ledger (allowed : scope.ledger = true) (h : Kept j j')
  | reset (epoch : Bytes) (drawn : epoch ∈ scope.fresh) (h : ResetTo epoch j j')

def Changed (scope : Scope) : Journal → Journal → Prop := Relation.ReflTransGen (Change scope)

theorem Change.single {scope : Scope} {j j' : Journal} (h : Change scope j j') :
    Changed scope j j' := Relation.ReflTransGen.single h

theorem Changed.refl {scope : Scope} (j : Journal) : Changed scope j j :=
  Relation.ReflTransGen.refl

/-- The changes of one step of the process: only the first can be a reset. -/
def Stepped (scope : Scope) (j j' : Journal) : Prop :=
  Changed { scope with fresh := [] } j j' ∨
    ∃ epoch ∈ scope.fresh, ∃ middle, ResetTo epoch j middle ∧
      Changed { reconciles := scope.reconciles } middle j'

structure Scope.Within (s t : Scope) : Prop where
  fresh : ∀ id ∈ s.fresh, id ∈ t.fresh
  ledger : s.ledger = true → t.ledger = true
  recovers : s.recovers = true → t.recovers = true
  reconciles : s.reconciles = true → t.reconciles = true
  sent : ∀ w, s.sent = some w → t.sent = some w
  echo : ∀ e, s.echo = some e → t.echo = some e

theorem Scope.within_plain (t : Scope) : ({} : Scope).Within t :=
  ⟨fun _ hid => absurd hid List.not_mem_nil, fun hl => (nomatch hl), fun hr => (nomatch hr),
    fun hr => (nomatch hr), fun _ hw => (nomatch hw), fun _ he => nomatch he⟩

theorem Scope.within_reconciling (t : Scope) :
    ({ reconciles := t.reconciles } : Scope).Within t :=
  ⟨fun _ hid => absurd hid List.not_mem_nil, fun hl => (nomatch hl), fun hr => (nomatch hr), id,
    fun _ hw => (nomatch hw), fun _ he => nomatch he⟩

theorem Scope.within_unreset (t : Scope) : ({ t with fresh := [] } : Scope).Within t :=
  ⟨fun _ hid => absurd hid List.not_mem_nil, id, id, id, fun _ hw => hw, fun _ he => he⟩

theorem Links.mono {s t : Scope} {j : Journal} {row : SendRequestRow} {v : SendRequest}
    (h : Links s j row v) (hw : s.Within t) : Links t j row v := by
  cases h with
  | kept same live held current =>
    exact .kept same live (fun hparts hstate => hw.recovers (held hparts hstate)) current
  | sent work sent empty message settled tracks current =>
    exact .sent work (hw.sent _ sent) empty message settled tracks current
  | text id m dispatched before after parts settled current echo alone aloneParts allowed =>
    exact .text id m dispatched before after parts settled current echo alone aloneParts
      (hw.reconciles allowed)
  | part n id m work echo seen request position message before after current found alone =>
    exact .part n id m work echo (hw.echo _ seen) request position message before after current
      found alone

theorem Change.mono {s t : Scope} {j j' : Journal} (h : Change s j j') (hw : s.Within t) :
    Change t j j' := by
  cases h with
  | quiet h silent => exact .quiet h silent
  | published r source h published => exact .published r source h published
  | request v row found follows current links updated =>
    exact .request v row found follows current (links.mono hw) updated
  | accepted input owner v h => exact .accepted input owner v h
  | pruned cut h => exact .pruned cut h
  | ledger allowed h => exact .ledger (hw.ledger allowed) h
  | reset epoch drawn h => exact .reset epoch (hw.fresh epoch drawn) h

theorem Changed.mono {s t : Scope} {j j' : Journal} (h : Changed s j j') (hw : s.Within t) :
    Changed t j j' := by
  induction h with
  | refl => exact Changed.refl j
  | tail _ h ih => exact ih.tail (h.mono hw)

/-- Changes that neither reset nor touch the ledger are allowed to every step. -/
theorem Changed.of_plain {scope : Scope} {j j' : Journal} (h : Changed {} j j') :
    Changed scope j j' := h.mono scope.within_plain

theorem Stepped.changed {scope : Scope} {j j' : Journal} (h : Stepped scope j j') :
    Changed scope j j' := by
  rcases h with h | ⟨epoch, hepoch, middle, hreset, h⟩
  · exact h.mono scope.within_unreset
  · exact (Change.reset epoch hepoch hreset).single.trans (h.mono scope.within_reconciling)

theorem Stepped.plain {scope : Scope} {j j' : Journal} (h : Changed {} j j') : Stepped scope j j' :=
  Or.inl h.of_plain

theorem Stepped.refl {scope : Scope} (j : Journal) : Stepped scope j j := .plain (Changed.refl j)

theorem Links.revision {scope : Scope} {j : Journal} {row : SendRequestRow} {v : SendRequest}
    (h : Links scope j row v) (n : Nat) : Links scope j row { v with revision := n } := by
  cases h with
  | kept same live held current => exact .kept ⟨same.message, same.parts⟩ live held current
  | sent work sent empty message settled tracks current =>
    exact .sent work sent empty message settled tracks current
  | text id m dispatched before after parts settled current echo alone aloneParts allowed =>
    exact .text id m dispatched before after parts settled current echo alone aloneParts
      allowed
  | part n id m work echo seen request position message before after current found alone =>
    exact .part n id m work echo seen request position message before after current found alone

section SameLinks

variable {v v' : SendRequest}

theorem SameLinks.of_eq (hmessage : v'.messageId = v.messageId) (hparts : v'.parts = v.parts) :
    SameLinks v v' := ⟨Or.inl hmessage, fun n => by rw [hparts]⟩

theorem sameLinks_of_summarize {parts : List SendPart} {f : Nat → SendPart → SendPart}
    (h : Sends.summarize { v with parts := parts } = some v')
    (hget : ∀ k : Nat, parts[k]? = (v.parts[k]?).map (f k))
    (hf : ∀ k p, v.parts[k]? = some p → (f k p).messageId = p.messageId) : SameLinks v v' := by
  obtain ⟨hne, hparts, -, -, -, -, -, hmessage, -, -⟩ := Sends.summarize_fields h
  refine ⟨Or.inr ⟨by rw [hparts]; exact hne, hmessage⟩, fun n => ?_⟩
  rw [hparts]
  change (parts[n]?).map SendPart.messageId = _
  rw [hget]
  cases hp : v.parts[n]? with
  | none => rfl
  | some p =>
    rw [Option.map_some, Option.map_some, Option.map_some, hf n p hp]

@[simp] theorem skipPart_messageId (code : String) (p : SendPart) :
    (Sends.skipPart code p).messageId = p.messageId := by
  unfold Sends.skipPart
  split_ifs <;> rfl

@[simp] theorem finishPart_messageId (outcome : Sends.Outcome) (p : SendPart) :
    (Sends.finishPart outcome p).messageId = p.messageId := by
  cases outcome <;> rfl

theorem start_sameLinks {i : Nat} (h : Sends.start v i = some v') : SameLinks v v' := by
  unfold Sends.start at h
  split_ifs at h
  refine sameLinks_of_summarize h (fun k => Sends.getElem?_modify_ite v.parts i k _) ?_
  intro k p _
  split_ifs <;> rfl

theorem finish_sameLinks {i : Nat} {outcome : Sends.Outcome}
    (h : Sends.finish v i outcome = some v') : SameLinks v v' := by
  unfold Sends.finish at h
  split at h
  · split_ifs at h
    refine sameLinks_of_summarize h (Sends.finishParts_get v.parts i outcome) ?_
    intro k p _
    unfold Sends.finishAt
    split_ifs <;> simp
  · simp at h

theorem finish_parts {i : Nat} {outcome : Sends.Outcome}
    (h : Sends.finish v i outcome = some v') : v.parts ≠ [] := by
  intro hnil
  simp [Sends.finish, hnil] at h

theorem SameLinks.trans {w : SendRequest} (h : SameLinks v v') (h' : SameLinks v' w) :
    SameLinks v w := by
  refine ⟨?_, fun n => (h'.parts n).trans (h.parts n)⟩
  rcases h'.message with hm' | hm'
  · rcases h.message with hm | ⟨hne, hm⟩
    · exact Or.inl (hm'.trans hm)
    · refine Or.inr ⟨fun hnil => hne ?_, hm'.trans hm⟩
      have hempty := h'.parts
      rw [hnil] at hempty
      cases hparts : v'.parts with
      | nil => rfl
      | cons p rest =>
        have hfirst := hempty 0
        rw [hparts] at hfirst
        simp at hfirst
  · exact Or.inr hm'

theorem rejected_links {code : String} (h : rejected v code = some v') :
    SameLinks v v' ∧ (v'.parts = [] → ¬ Live v'.state) := by
  unfold rejected at h
  split_ifs at h with hparts
  · rw [Option.some.injEq] at h
    rw [← h]
    exact ⟨.of_eq rfl rfl, fun _ hlive => by simp [Live] at hlive⟩
  · simp only [Option.bind_eq_bind, Option.bind_eq_some_iff] at h
    obtain ⟨position, -, w, hstart, hfinish⟩ := h
    have hnil := ((start_follows hstart).trans (finish_follows hfinish)).nil
    exact ⟨(start_sameLinks hstart).trans (finish_sameLinks hfinish),
      fun hv' => absurd (hnil.mp hv') hparts⟩

theorem dispatching_sameLinks {part : Option Nat} (h : dispatching v = some (v', part)) :
    SameLinks v v' := by
  unfold dispatching at h
  split_ifs at h
  · simp only [Option.some.injEq, Prod.mk.injEq] at h
    rw [← h.1]
    exact .of_eq rfl rfl
  · simp only [Option.bind_eq_bind, Option.bind_eq_some_iff, Option.some.injEq,
      Prod.mk.injEq] at h
    obtain ⟨position, -, w, hstart, rfl, -⟩ := h
    exact start_sameLinks hstart

theorem interruptedRequest_sameLinks (h : interruptedRequest v = some v') : SameLinks v v' := by
  unfold interruptedRequest at h
  rw [Option.map_eq_some_iff] at h
  obtain ⟨w, hw, rfl⟩ := h
  split_ifs at hw
  · rw [Option.some.injEq] at hw
    rw [hw]
    exact .of_eq rfl rfl
  · have hsame : SameLinks v w := by
      refine sameLinks_of_summarize hw (Sends.interruptParts_get v.parts false) ?_
      intro k p _
      unfold Sends.interruptAt Sends.interruptPart
      dsimp only
      split_ifs <;> simp_all
    exact ⟨hsame.message, hsame.parts⟩

theorem linkedStatus_settled (status : ObservedStatus) : ¬ Live (linkedStatus status) := by
  rintro (h | h)
  · exact (linkedStatus_ne status).1 h
  · exact (linkedStatus_ne status).2 h

theorem reconciled_links {j : Journal} {now : Int} {row : SendRequestRow}
    (h : reconciled j now v row = some v') :
    SameLinks v v' ∧ v'.state = v.state ∨
      ∃ id m, v'.messageId = some id ∧ v'.parts = v.parts ∧ ¬ Live v'.state ∧
        row.dispatchMs.isSome = true ∧ (id, m) ∈ echoes j row ∧
        competingRequest j v m = false ∧ competingPart j v m = false := by
  unfold reconciled at h
  dsimp only at h
  split at h
  · next id status hunique =>
    split at h
    · split_ifs at h
      rw [Option.some.injEq] at h
      rw [← h]
      exact Or.inl ⟨.of_eq rfl rfl, rfl⟩
    · next hwindow =>
      right
      rw [Option.some.injEq] at h
      split at hunique
      · next id' m hfound =>
        split_ifs at hunique with hcompeting
        simp only [Option.some.injEq, Prod.mk.injEq] at hunique
        simp only [Bool.or_eq_true, not_or, Bool.not_eq_true] at hcompeting
        refine ⟨id, m, by rw [← h], by rw [← h], ?_, ?_, ?_, hcompeting.1, hcompeting.2⟩
        · rw [← h]
          exact linkedStatus_settled _
        · cases ht : row.dispatchMs with
          | none => simp [ht] at hwindow
          | some t => rfl
        · rw [← hunique.1]
          exact List.mem_of_mem_take (hfound ▸ List.mem_singleton_self _)
      · simp at hunique
  · split_ifs at h
    rw [Option.some.injEq] at h
    rw [← h]
    exact Or.inl ⟨.of_eq rfl rfl, rfl⟩

theorem refreshed_links {status : ObservedStatus} (h : refreshed v status = some v') :
    SameLinks v v' ∧ ¬ Live v'.state := by
  cases status with
  | delivered =>
    simp only [refreshed, Option.some.injEq] at h
    rw [← h]
    exact ⟨.of_eq rfl rfl, by simp [Live]⟩
  | failed =>
    simp only [refreshed, Option.some.injEq] at h
    rw [← h]
    exact ⟨.of_eq rfl rfl, by simp [Live]⟩
  | received => simp [refreshed] at h
  | sent => simp [refreshed] at h
  | unknown => simp [refreshed] at h

theorem published_links {now : Int} {work : Observation.Work} {part : SendPart}
    {candidate : Option Observation.Candidate} {mid : Option Bytes} {confirmed : Bool}
    (hpart : v.parts[work.position]? = some part)
    (h : Observation.published now work v part candidate mid = some (some (v', confirmed))) :
    v'.parts ≠ [] ∧ (SameLinks v v' ∨
      ∃ id, mid = some id ∧ part.messageId = none ∧ v'.messageId = none ∧
        ∀ k : Nat, (v'.parts[k]?).map SendPart.messageId =
          if k = work.position then some (some id) else (v.parts[k]?).map SendPart.messageId) := by
  have hne : v.parts ≠ [] := by
    intro hnil
    simp [hnil] at hpart
  have hkept := (published_follows h).nil.not.mpr hne
  refine ⟨hkept, ?_⟩
  unfold Observation.published at h
  dsimp only at h
  split_ifs at h with hobservable hprevious hcandidate hsubmitted hconfirmed
  · simp at h
  · simp at h
  · simp at h
  · simp at h
  · simp only [Option.bind_eq_bind, Option.bind_eq_some_iff, Option.some.injEq,
      Prod.mk.injEq] at h
    obtain ⟨observed, -, w, hobserve, rfl, -⟩ := h
    simp only [Bool.and_eq_true, decide_eq_true_eq] at hconfirmed
    obtain ⟨id, hid⟩ := Option.isSome_iff_exists.mp hconfirmed.1
    rw [hid, Option.getD_some] at hobserve
    unfold Sends.observe at hobserve
    rw [hpart] at hobserve
    dsimp only at hobserve
    split_ifs at hobserve
    obtain ⟨-, hparts, -, -, -, -, -, hmessage, -, -⟩ := Sends.summarize_fields hobserve
    have hafter (k : Nat) : (w.parts[k]?).map SendPart.messageId =
        if k = work.position then some (some id) else (v.parts[k]?).map SendPart.messageId := by
      rw [hparts]
      change ((Sends.observeParts v.parts work.position id observed)[k]?).map SendPart.messageId = _
      rw [Sends.observeParts_get]
      by_cases hk : k = work.position
      · subst hk
        rw [if_pos rfl, hpart]
        simp only [Option.map_some, Sends.observeAt, if_true, Option.some.injEq]
        split_ifs <;> simp [Sends.observePart]
      · rw [if_neg hk, Option.map_map]
        congr 1
        funext p
        simp only [Function.comp_apply, Sends.observeAt, if_neg (Ne.symm hk)]
        split_ifs <;> simp
    cases hlinked : part.messageId with
    | none => exact Or.inr ⟨id, hid, rfl, hmessage, hafter⟩
    | some previous =>
      left
      refine ⟨Or.inr ⟨hkept, hmessage⟩, fun k => ?_⟩
      rw [hafter]
      split_ifs with hk
      · simp only [hlinked, hid, Option.any_some, Option.getD_some, bne_iff_ne, ne_eq,
          not_not] at hprevious
        rw [hk, hpart, Option.map_some, hlinked, hprevious]
      · rfl
  · simp only [Option.some.injEq, Prod.mk.injEq] at h
    rw [← h.1]
    left
    refine ⟨Or.inl rfl, fun k => ?_⟩
    dsimp only
    rw [Sends.getElem?_modify_ite, Option.map_map]
    congr 1
    funext p
    simp only [Function.comp_apply]
    split_ifs <;> rfl

end SameLinks

theorem Ingested.changed {scope : Scope} {j j' : Journal} (h : Ingested j j') :
    Changed scope j j' := by
  induction h with
  | refl => exact Changed.refl j
  | tail _ h ih =>
    apply ih.tail
    cases h with
    | silent sends silent => exact .quiet sends.quiet silent
    | published r kind sends published => exact .published r kind sends.quiet published

end Zimbr.Relay
