import Zimbr.Relay.Evidence
import Zimbr.Relay.Streams

set_option autoImplicit false

/-!
# Which message a send is linked to

Text requests and parts share the messages: whichever links one first has it,
and only while no other waiting send could have produced it.
-/
namespace Zimbr.Relay
open Library

abbrev SendKey : Type := Bytes × Option Nat

def linked (j : Journal) : SendKey → Option Bytes
  | (id, none) => (j.sendRequests.get? id).bind SendRequestRow.messageId
  | (id, some n) => (j.sendParts.get? (id, n)).bind SendPartRow.messageId

inductive Content where
  | text (text : Bytes)
  | file (name bytes sha256 : Bytes)
  deriving DecidableEq, Repr

def contentOf (v : SendRequest) : Option Nat → Option Content
  | none => if v.parts = [] then some (.text v.text) else none
  | some n => v.parts[n]?.bind fun part =>
    match part.kind with
    | .text => some (.text v.text)
    | .attachment => (v.attachments.find? fun file => some file.id = part.attachmentId).map
        fun file => .file file.name file.bytes file.sha256

def content (j : Journal) (k : SendKey) : Option Content :=
  (j.sendRequests.get? k.1).bind fun row => contentOf row.record k.2

/-- What a dispatch recorded before its automation ran. -/
structure Boundary where
  time : Int
  floor : Int
  mode : Mode
  route : Bytes
  deriving DecidableEq, Repr

/-- The boundary of a dispatched send of the epoch with neither a message nor an
outcome. -/
def waiting (j : Journal) : SendKey → Option Boundary
  | (id, none) => do
    let r ← j.sendRequests.get? id
    if r.epoch = j.epoch &&
        (r.state = .dispatching || r.state = .unknown || r.state = .submitted) &&
        r.messageId.isNone then
      some { time := ← r.dispatchMs, floor := ← r.sourceFloor, mode := r.mode, route := r.route }
    else none
  | (id, some n) => do
    let r ← j.sendRequests.get? id
    let p ← j.sendParts.get? (id, n)
    if r.epoch = j.epoch &&
        (p.state = .dispatching || p.state = .invoked || p.state = .unknown ||
          p.state = .submitted) &&
        p.messageId.isNone then
      some { time := ← p.dispatchMs, floor := ← p.sourceFloor, mode := ← p.mode, route := ← p.route }
    else none

def Boundary.admits (b : Boundary) (j : Journal) (m : MessageRow) : Bool :=
  b.floor < m.sourceRow && inWindow m.dateNs b.time && routed j m (some b.mode) (some b.route)

/-- No other waiting send with the same content could have produced the message. -/
def Unrivalled (j : Journal) (k : SendKey) (m : MessageRow) : Prop :=
  ∃ c, content j k = some c ∧ ∀ k' b, k' ≠ k → waiting j k' = some b →
    b.admits j m = true → content j k' ≠ some c

/-- What a stored request keeps: only a dispatched text without parts has a
boundary of its own, and only a settled one a message. -/
structure SoundRow (row : SendRequestRow) : Prop where
  canonical : (validId row.record.requestId && validId row.record.serverEpoch) = true
  whole : row.record.parts ≠ [] → row.record.messageId = none
  unsettled : row.record.parts = [] → Live row.record.state → row.record.messageId = none
  bounded : row.dispatchMs.isSome = true → row.record.parts = []
  files : ∀ part ∈ row.record.parts, part.kind = .attachment →
    ∃ file ∈ row.record.attachments, some file.id = part.attachmentId

def Sound (j : Journal) : Prop := ∀ id row, j.sendRequests.get? id = some row → SoundRow row

section Rows

variable {scope : Scope} {j j' : Journal} {row : SendRequestRow} {v : SendRequest}

theorem SoundRow.files_follow (h : SoundRow row) (hv : Follows row.record v) :
    ∀ part ∈ v.parts, part.kind = .attachment →
      ∃ file ∈ v.attachments, some file.id = part.attachmentId := by
  intro part hpart hkind
  obtain ⟨i, hi⟩ := List.mem_iff_getElem?.mp hpart
  have hlt : i < row.record.parts.length := by
    rw [← hv.parts]
    exact (List.getElem?_eq_some_iff.mp hi).1
  have hcontinues := hv.part i _ part (List.getElem?_eq_getElem hlt) hi
  obtain ⟨file, hfile, hid⟩ := h.files _ (List.getElem_mem hlt) (hcontinues.kind ▸ hkind)
  exact ⟨file, hv.attachments ▸ hfile, hid.trans hcontinues.attachmentId.symm⟩

theorem SoundRow.canonical_follow (h : SoundRow row) (hv : Follows row.record v) :
    (validId v.requestId && validId v.serverEpoch) = true := by
  rw [hv.requestId, hv.serverEpoch]
  exact h.canonical

theorem SoundRow.written (h : SoundRow row) (hv : Follows row.record v)
    (hlinks : Links scope j row v) : SoundRow (writeRow v row) where
  canonical := h.canonical_follow hv
  whole hne := by
    change v.messageId = none
    have hrow : row.record.parts ≠ [] := fun hnil => hne (hv.nil.mpr hnil)
    cases hlinks with
    | kept same _ _ _ => exact same.message.elim (fun hm => hm.trans (h.whole hrow)) And.right
    | sent _ _ empty _ _ _ _ => exact absurd empty hne
    | text _ _ dispatched _ _ _ _ _ _ _ _ => exact absurd (h.bounded dispatched) hrow
    | part _ _ _ _ _ _ _ _ message _ _ _ _ _ => exact message
  unsettled hnil hlive := by
    change v.messageId = none
    cases hlinks with
    | kept same live _ _ =>
      refine same.message.elim (fun hm => hm.trans ?_) And.right
      exact h.unsettled (hv.nil.mp hnil) (live hnil hlive)
    | sent _ _ _ _ settled _ _ => exact absurd hlive settled
    | text _ _ _ _ _ _ settled _ _ _ _ => exact absurd hlive settled.2
    | part _ _ _ _ _ _ _ _ message _ _ _ _ _ => exact message
  bounded hdispatched := hv.nil.mpr (h.bounded hdispatched)
  files := h.files_follow hv

theorem SoundRow.held (h : SoundRow row) (hheld : heldRequest row.record = some v) (revision : Nat) :
    SoundRow (writeRow { v with revision := revision } row) := by
  obtain ⟨hfollows, -, hmessage⟩ := heldRequest_follows hheld
  have hwritten := hfollows.revision revision
  exact ⟨h.canonical_follow hwritten, fun _ => hmessage, fun _ _ => hmessage,
    fun hdispatched => hwritten.nil.mpr (h.bounded hdispatched), h.files_follow hwritten⟩

theorem Quiet.sound (h : Quiet j j') (hs : Sound j) : Sound j' := by
  intro id row' hrow'
  obtain ⟨row, hrow, hcore⟩ := h.before hrow'
  have hsound := hs id row hrow
  simp only [SendRequestRow.core, Prod.mk.injEq] at hcore
  obtain ⟨-, -, hrecord, -, -⟩ := hcore
  have hbounded (hdispatched : row'.dispatchMs.isSome = true) : row.record.parts = [] := by
    rcases h.boundary id row' hrow' hdispatched with hnil | ⟨old, hold, hdispatched⟩
    · exact hrecord ▸ hnil
    · rw [hrow, Option.some.injEq] at hold
      exact hsound.bounded (hold ▸ hdispatched)
  constructor
  · rw [hrecord]
    exact hsound.canonical
  · rw [hrecord]
    exact hsound.whole
  · rw [hrecord]
    exact hsound.unsettled
  · rw [hrecord]
    exact hbounded
  · rw [hrecord]
    exact hsound.files

theorem init_files {input : SendInput} : ∀ part ∈ Sends.init input, part.kind = .attachment →
    ∃ file ∈ input.attachments, some file.id = part.attachmentId := by
  intro part hpart hkind
  unfold Sends.init at hpart
  split_ifs at hpart
  · exact absurd hpart List.not_mem_nil
  · obtain ⟨file, hfile, rfl⟩ := List.mem_map.mp hpart
    exact ⟨file, hfile, rfl⟩
  · rcases List.mem_append.mp hpart with hpart | hpart
    · rw [List.mem_singleton.mp hpart] at hkind
      exact nomatch hkind
    · obtain ⟨file, hfile, rfl⟩ := List.mem_map.mp hpart
      exact ⟨file, hfile, rfl⟩

theorem accepted_sound {input : SendInput} {route : Route} {now : Int}
    (hvalid : validate input = .ok ()) (revision : Nat) :
    SoundRow (acceptedRow input { initialRequest input with revision := revision } route now) where
  canonical := by
    obtain ⟨hid, hepoch⟩ := validate_ids hvalid
    exact Bool.and_eq_true_iff.mpr ⟨hid, hepoch⟩
  whole _ := rfl
  unsettled _ _ := rfl
  bounded hdispatched := nomatch hdispatched
  files := init_files

theorem Change.sound (h : Change scope j j') (hs : Sound j) : Sound j' := by
  cases h with
  | quiet h _ => exact h.sound hs
  | published r _ h _ => exact h.sound hs
  | request v row found follows _ links updated =>
    intro id row' hrow'
    rw [updated.get?] at hrow'
    split_ifs at hrow' with hid
    · subst hid
      rw [found, Option.map_some, Option.some.injEq] at hrow'
      exact hrow' ▸ (hs _ row found).written follows links
    · exact hs id row' hrow'
  | accepted input owner v h =>
    intro id row' hrow'
    obtain ⟨route, now, hrows⟩ := h.rows
    rw [hrows] at hrow'
    split_ifs at hrow' with hid
    · rw [Option.some.injEq] at hrow'
      rw [← hrow', h.record]
      exact accepted_sound h.valid _
    · exact hs id row' hrow'
  | pruned cut h =>
    rw [h.effect]
    exact hs
  | ledger _ h =>
    obtain ⟨uploads, rfl⟩ := h.only
    exact hs
  | reset epoch _ h =>
    intro id row' hrow'
    cases h.requests id with
    | absent _ after _ => simp [after] at hrow'
    | settled row before _ after _ =>
      rw [after, Option.some.injEq] at hrow'
      exact hrow' ▸ hs id row before
    | written row v revision before _ _ held after _ =>
      rw [after, Option.some.injEq] at hrow'
      exact hrow' ▸ (hs id row before).held held revision
    | legacy row v before _ _ held after _ =>
      rw [after, Option.some.injEq] at hrow'
      rw [← hrow', writeRow_revision]
      exact (hs id row before).held held v.revision

/-- Every request of a sound journal is canonical, so a reset moves no part it
keeps private. -/
theorem Sound.withstands (h : Sound j) : Withstands j := by
  intro id row hrow _ hincompatible
  rw [(h id row hrow).canonical] at hincompatible
  exact nomatch hincompatible

end Rows

section Links

variable {scope : Scope} {j j' : Journal}

def linkOf (v : SendRequest) : Option Nat → Option Bytes
  | none => v.messageId
  | some n => (v.parts[n]?).bind SendPart.messageId

theorem linkOf_part (v : SendRequest) (n : Nat) :
    linkOf v (some n) = ((v.parts[n]?).map SendPart.messageId).join := by
  cases hp : v.parts[n]? with
  | none => simp [linkOf, hp]
  | some p => simp [linkOf, hp]

theorem linked_eq (hk : Keyed j) (hm : Mirrored j) (k : SendKey) :
    linked j k = (j.sendRequests.get? k.1).bind fun row => linkOf row.record k.2 := by
  obtain ⟨id, n⟩ := k
  cases hrow : j.sendRequests.get? id with
  | none =>
    cases n with
    | none => simp [linked, hrow]
    | some n => simp [linked, hm.referenced id n hrow]
  | some row =>
    cases n with
    | none => simp [linked, linkOf, hrow, (hk id row hrow).messageId]
    | some n =>
      have hpart := congrArg (Option.map Prod.snd) (hm.projected id row hrow n)
      rw [Option.map_map, Option.map_map] at hpart
      change (j.sendParts.get? (id, n)).map SendPartRow.messageId =
        (row.record.parts[n]?).map SendPart.messageId at hpart
      simp only [linked, Option.bind_some, linkOf_part]
      rw [← hpart]
      cases j.sendParts.get? (id, n) <;> rfl

theorem Updated.linked_eq {v : SendRequest} (h : Updated j v j') (hk : Keyed j) (hk' : Keyed j')
    (hm : Mirrored j) (hm' : Mirrored j') {row : SendRequestRow}
    (hrow : j.sendRequests.get? v.requestId = some row) (k : SendKey) :
    linked j' k = if k.1 = v.requestId then linkOf v k.2 else linked j k := by
  rw [Relay.linked_eq hk' hm', Relay.linked_eq hk hm, h.get?]
  split_ifs with hid
  · rw [hid, hrow]
    rfl
  · rfl

theorem unlinked_free {mid : Bytes} (h : unlinked j mid = true) (k : SendKey) :
    linked j k ≠ some mid := by
  obtain ⟨id, n⟩ := k
  simp only [unlinked, Bool.and_eq_true, List.all_eq_true, bne_iff_ne, ne_eq] at h
  intro hlinked
  cases n with
  | none =>
    obtain ⟨row, hrow, hmessage⟩ := Option.bind_eq_some_iff.mp hlinked
    exact h.1 _ ((Table.get?_eq_some_iff _ _ _).mp hrow) hmessage
  | some n =>
    obtain ⟨row, hrow, hmessage⟩ := Option.bind_eq_some_iff.mp hlinked
    exact h.2 _ ((Table.get?_eq_some_iff _ _ _).mp hrow) hmessage

theorem claimed_free {work : Observation.Work} {mid : Bytes}
    (h : Observation.claimed j work mid = false)
    (hown : linked j (work.request.requestId, some work.position) = none) (k : SendKey) :
    linked j k ≠ some mid := by
  obtain ⟨id, n⟩ := k
  simp only [Observation.claimed, Bool.or_eq_false_iff, List.any_eq_false, Bool.and_eq_true,
    bne_iff_ne, ne_eq, decide_eq_true_eq, not_and, not_not] at h
  intro hlinked
  cases n with
  | none =>
    obtain ⟨row, hrow, hmessage⟩ := Option.bind_eq_some_iff.mp hlinked
    exact h.1 _ ((Table.get?_eq_some_iff _ _ _).mp hrow) hmessage
  | some n =>
    obtain ⟨row, hrow, hmessage⟩ := Option.bind_eq_some_iff.mp hlinked
    have hkey := h.2 _ ((Table.get?_eq_some_iff _ _ _).mp hrow) hmessage
    rw [Prod.mk.injEq] at hkey
    rw [hkey.1, hkey.2, hown] at hlinked
    exact nomatch hlinked

end Links

section Rivals

variable {j : Journal} {b : Boundary} {m : MessageRow}

theorem waiting_text {id : Bytes} (h : waiting j (id, none) = some b) :
    ∃ r, j.sendRequests.get? id = some r ∧ r.epoch = j.epoch ∧
      (r.state = .dispatching || r.state = .unknown || r.state = .submitted) = true ∧
      r.messageId.isNone = true ∧ r.dispatchMs = some b.time ∧ r.sourceFloor = some b.floor ∧
      r.mode = b.mode ∧ r.route = b.route := by
  simp only [waiting, Option.bind_eq_bind, Option.bind_eq_some_iff, Option.ite_none_right_eq_some,
    Option.some.injEq] at h
  obtain ⟨r, hr, hstate, time, htime, floor, hfloor, rfl⟩ := h
  simp only [Bool.and_eq_true, decide_eq_true_eq] at hstate
  exact ⟨r, hr, hstate.1.1, hstate.1.2, hstate.2, htime, hfloor, rfl, rfl⟩

theorem waiting_part {id : Bytes} {n : Nat} (h : waiting j (id, some n) = some b) :
    ∃ r p, j.sendRequests.get? id = some r ∧ j.sendParts.get? (id, n) = some p ∧
      r.epoch = j.epoch ∧
      (p.state = .dispatching || p.state = .invoked || p.state = .unknown ||
        p.state = .submitted) = true ∧
      p.messageId.isNone = true ∧ p.dispatchMs = some b.time ∧ p.sourceFloor = some b.floor ∧
      p.mode = some b.mode ∧ p.route = some b.route := by
  simp only [waiting, Option.bind_eq_bind, Option.bind_eq_some_iff, Option.ite_none_right_eq_some,
    Option.some.injEq] at h
  obtain ⟨r, hr, p, hp, hstate, time, htime, floor, hfloor, mode, hmode, route, hroute, rfl⟩ := h
  simp only [Bool.and_eq_true, decide_eq_true_eq] at hstate
  exact ⟨r, p, hr, hp, hstate.1.1, hstate.1.2, hstate.2, htime, hfloor, hmode, hroute⟩

theorem content_text {id : Bytes} {r : SendRequestRow} {c : Bytes}
    (hr : j.sendRequests.get? id = some r) (h : content j (id, none) = some (.text c)) :
    r.record.text = c := by
  simp only [content, hr, Option.bind_some, contentOf, Option.ite_none_right_eq_some,
    Option.some.injEq, Content.text.injEq] at h
  exact h.2

theorem content_part {id : Bytes} {n : Nat} {r : SendRequestRow} {c : Content}
    (hr : j.sendRequests.get? id = some r) (h : content j (id, some n) = some c) :
    ∃ part, r.record.parts[n]? = some part ∧ (part.kind = .text ∧ c = .text r.record.text ∨
      part.kind = .attachment ∧ ∃ file ∈ r.record.attachments, some file.id = part.attachmentId ∧
        c = .file file.name file.bytes file.sha256) := by
  simp only [content, hr, Option.bind_some, contentOf, Option.bind_eq_some_iff] at h
  obtain ⟨part, hpart, h⟩ := h
  refine ⟨part, hpart, ?_⟩
  cases hkind : part.kind with
  | text =>
    simp only [hkind, Option.some.injEq] at h
    exact Or.inl ⟨rfl, h.symm⟩
  | attachment =>
    simp only [hkind, Option.map_eq_some_iff] at h
    obtain ⟨file, hfile, rfl⟩ := h
    have hid := List.find?_some hfile
    exact Or.inr ⟨rfl, file, List.mem_of_find?_eq_some hfile, by simpa using hid, rfl⟩

theorem competes_text {v : SendRequest} {id c : Bytes} (hepoch : v.serverEpoch = j.epoch)
    (hne : id ≠ v.requestId) (hwaiting : waiting j (id, none) = some b)
    (hadmits : b.admits j m = true) (hcontent : content j (id, none) = some (.text c))
    (htext : m.text = c) : competingRequest j v m = true := by
  obtain ⟨r, hr, hrepoch, hstate, hnone, htime, hfloor, hmode, hroute⟩ := waiting_text hwaiting
  simp only [Boundary.admits, Bool.and_eq_true] at hadmits
  refine List.any_eq_true.mpr ⟨(id, r), (Table.get?_eq_some_iff _ _ _).mp hr, ?_⟩
  simp only [Bool.and_eq_true]
  refine ⟨⟨⟨⟨⟨⟨⟨bne_iff_ne.mpr hne, ?_⟩, hstate⟩, hnone⟩, ?_⟩, ?_⟩, ?_⟩, ?_⟩
  · exact decide_eq_true (hrepoch.trans hepoch.symm)
  · rw [hfloor]
    exact hadmits.1.1
  · exact decide_eq_true (htext.trans (content_text hr hcontent).symm)
  · rw [htime]
    exact hadmits.1.2
  · rw [hmode, hroute]
    exact hadmits.2

theorem competes_part {v : SendRequest} {id c : Bytes} {n : Nat} (hepoch : v.serverEpoch = j.epoch)
    (hwaiting : waiting j (id, some n) = some b) (hadmits : b.admits j m = true)
    (hcontent : content j (id, some n) = some (.text c)) (htext : m.text = c) :
    competingPart j v m = true := by
  obtain ⟨r, p, hr, hp, hrepoch, hstate, hnone, htime, hfloor, hmode, hroute⟩ :=
    waiting_part hwaiting
  obtain ⟨part, hpart, ⟨hkind, hc⟩ | ⟨-, _, -, -, hc⟩⟩ := content_part hr hcontent
  swap
  · exact nomatch hc
  rw [Content.text.injEq] at hc
  simp only [Boundary.admits, Bool.and_eq_true] at hadmits
  refine List.any_eq_true.mpr ⟨((id, n), p), (Table.get?_eq_some_iff _ _ _).mp hp, ?_⟩
  simp only [hr, hpart, htime, hfloor, hmode, hroute, Option.any_some, Bool.and_eq_true]
  refine ⟨⟨⟨⟨⟨⟨⟨?_, hstate⟩, hnone⟩, ?_⟩, ?_⟩, ?_⟩, ?_⟩, hadmits.2⟩
  · exact decide_eq_true (hrepoch.trans hepoch.symm)
  · exact decide_eq_true hkind
  · exact hadmits.1.1
  · exact decide_eq_true (htext.trans hc)
  · exact hadmits.1.2

/-- A message a text request was linked to had no other claimant. -/
theorem text_unrivalled {id mid : Bytes} {row : SendRequestRow} (hok : RowOk id row)
    (hrow : j.sendRequests.get? id = some row) (hepoch : row.epoch = j.epoch)
    (hnil : row.record.parts = []) (hecho : (mid, m) ∈ echoes j row)
    (halone : competingRequest j row.record m = false)
    (haloneParts : competingPart j row.record m = false) : Unrivalled j (id, none) m := by
  have hserver : row.record.serverEpoch = j.epoch := hok.serverEpoch.trans hepoch
  have htext : m.text = row.record.text := by
    have hecho := (Table.get?_select.mp hecho).2
    simp only [Bool.and_eq_true, decide_eq_true_eq] at hecho
    exact hecho.1.1.1.2
  refine ⟨.text row.record.text, by simp [content, contentOf, hrow, hnil], ?_⟩
  rintro ⟨id', n⟩ b hne hwaiting hadmits hcontent
  cases n with
  | none =>
    have hid : id' ≠ row.record.requestId := by
      rw [hok.requestId]
      exact fun heq => hne (by rw [heq])
    rw [competes_text hserver hid hwaiting hadmits hcontent htext] at halone
    cases halone
  | some n =>
    rw [competes_part hserver hwaiting hadmits hcontent htext] at haloneParts
    cases haloneParts

theorem contentOf_follow {v v' : SendRequest} (h : Follows v v') (n : Nat) :
    contentOf v' (some n) = contentOf v (some n) := by
  simp only [contentOf]
  cases hp : v.parts[n]? with
  | none =>
    rw [List.getElem?_eq_none_iff, ← h.parts, ← List.getElem?_eq_none_iff] at hp
    rw [hp]
    rfl
  | some p =>
    have hlt : n < v'.parts.length := by
      rw [h.parts]
      exact (List.getElem?_eq_some_iff.mp hp).1
    have hcontinues := h.part n p _ hp (List.getElem?_eq_getElem hlt)
    rw [List.getElem?_eq_getElem hlt, Option.bind_some, Option.bind_some, hcontinues.kind,
      hcontinues.attachmentId, h.text, h.attachments]

/-- The content of an observed part, and the file its echo is compared with. -/
theorem observed_content {work : Observation.Work} {part : SendPart}
    (hpart : work.request.parts[work.position]? = some part)
    (hfiles : part.kind = .attachment →
      ∃ file ∈ work.request.attachments, some file.id = part.attachmentId) :
    Observation.fileFor work = none ∧
        contentOf work.request (some work.position) = some (.text work.request.text) ∨
      ∃ file, Observation.fileFor work = some file ∧
        contentOf work.request (some work.position) =
          some (.file file.name file.bytes file.sha256) := by
  simp only [Observation.fileFor, contentOf, hpart, Option.bind_eq_bind, Option.bind_some]
  cases hkind : part.kind with
  | text => exact Or.inl ⟨rfl, rfl⟩
  | attachment =>
    right
    obtain ⟨file, hfile, hid⟩ := hfiles hkind
    rw [← hid]
    cases hfound : work.request.attachments.find? fun f => decide (some f.id = some file.id) with
    | none =>
      rw [List.find?_eq_none] at hfound
      exact absurd (decide_eq_true rfl) (hfound file hfile)
    | some found =>
      refine ⟨found, ?_, rfl⟩
      simpa using hfound

/-- A waiting text of the echo's words competes with an observed part. -/
theorem competes_observed {work : Observation.Work} {id c : Bytes}
    (hepoch : work.request.serverEpoch = j.epoch) (hwaiting : waiting j (id, none) = some b)
    (hadmits : b.admits j m = true) (hcontent : content j (id, none) = some (.text c))
    (htext : m.text = c) : Observation.competingText j work m = true := by
  obtain ⟨r, hr, hrepoch, hstate, hnone, htime, hfloor, hmode, hroute⟩ := waiting_text hwaiting
  simp only [Boundary.admits, Bool.and_eq_true] at hadmits
  refine List.any_eq_true.mpr ⟨(id, r), (Table.get?_eq_some_iff _ _ _).mp hr, ?_⟩
  simp only [Bool.and_eq_true]
  refine ⟨⟨⟨⟨⟨⟨?_, hstate⟩, hnone⟩, ?_⟩, ?_⟩, ?_⟩, ?_⟩
  · exact decide_eq_true (hrepoch.trans hepoch.symm)
  · rw [hfloor]
    exact hadmits.1.1
  · exact decide_eq_true (htext.trans (content_text hr hcontent).symm)
  · rw [htime]
    exact hadmits.1.2
  · rw [hmode, hroute]
    exact hadmits.2

/-- The other waiting parts on the message's route are compared by content. -/
theorem competes_parts {work : Observation.Work} {id : Bytes} {n : Nat}
    (hepoch : work.request.serverEpoch = j.epoch)
    (hne : (id, n) ≠ (work.request.requestId, work.position))
    (hwaiting : waiting j (id, some n) = some b) (hadmits : b.admits j m = true) :
    ∃ r p, j.sendRequests.get? id = some r ∧
      ((id, n), p) ∈ Observation.competingParts j work m := by
  obtain ⟨r, p, hr, hp, hrepoch, hstate, hnone, htime, hfloor, hmode, hroute⟩ :=
    waiting_part hwaiting
  simp only [Boundary.admits, Bool.and_eq_true] at hadmits
  refine ⟨r, p, hr, Table.get?_select.mpr ⟨hp, ?_⟩⟩
  simp only [hr, htime, hfloor, hmode, hroute, Option.any_some, Bool.and_eq_true]
  refine ⟨⟨⟨⟨⟨⟨?_, bne_iff_ne.mpr hne⟩, hstate⟩, hnone⟩, hadmits.1.1⟩, hadmits.1.2⟩, hadmits.2⟩
  exact decide_eq_true (hrepoch.trans hepoch.symm)

/-- A message a part was linked to had no other claimant either. -/
theorem part_unrivalled {work : Observation.Work} {echo : Observation.Candidate} {mid : Bytes}
    {row : SendRequestRow} (hshows : Observation.Shows work echo)
    (hrow : j.sendRequests.get? work.request.requestId = some row)
    (hfollows : Follows work.request row.record) (hepoch : work.request.serverEpoch = j.epoch)
    (hsound : SoundRow row) (hpart : work.position < row.record.parts.length)
    (htext : m.text = echo.text) (havailable : Observation.available j work echo mid m = true) :
    Unrivalled j (work.request.requestId, some work.position) m := by
  have hlt : work.position < work.request.parts.length := by
    rw [← hfollows.parts]
    exact hpart
  have hcontinues := hfollows.part work.position _ _ (List.getElem?_eq_getElem hlt)
    (List.getElem?_eq_getElem hpart)
  have hfiles (hkind : work.request.parts[work.position].kind = .attachment) :
      ∃ file ∈ work.request.attachments,
        some file.id = work.request.parts[work.position].attachmentId := by
    obtain ⟨file, hfile, hid⟩ :=
      hsound.files _ (List.getElem_mem hpart) (hcontinues.kind.trans hkind)
    exact ⟨file, hfollows.attachments ▸ hfile, hid.trans hcontinues.attachmentId⟩
  have hown : content j (work.request.requestId, some work.position) =
      contentOf work.request (some work.position) := by
    rw [content, hrow, Option.bind_some, contentOf_follow hfollows]
  simp only [Observation.available, Bool.and_eq_true, Bool.not_eq_true',
    List.any_eq_false] at havailable
  obtain ⟨⟨⟨-, hcompeting⟩, -⟩, hcontents⟩ := havailable
  have hpartNe {id : Bytes} {n : Nat}
      (hne : (id, some n) ≠ (work.request.requestId, some work.position)) :
      (id, n) ≠ (work.request.requestId, work.position) := by
    intro heq
    rw [Prod.mk.injEq] at heq
    exact hne (by rw [heq.1, heq.2])
  rcases observed_content (List.getElem?_eq_getElem hlt) hfiles with ⟨hnone, hc⟩ | ⟨file, hsome, hc⟩
  · rw [Observation.Shows, hnone] at hshows
    refine ⟨_, hown.trans hc, ?_⟩
    rintro ⟨id, n⟩ b hne hwaiting hadmits hcontent
    cases n with
    | none =>
      rw [competes_observed hepoch hwaiting hadmits hcontent (htext.trans hshows)] at hcompeting
      cases hcompeting
    | some n =>
      obtain ⟨r, p, hr, hmem⟩ := competes_parts hepoch (hpartNe hne) hwaiting hadmits
      obtain ⟨part, hpart, ⟨hkind, hc⟩ | ⟨-, _, -, -, hc⟩⟩ := content_part hr hcontent
      · rw [Content.text.injEq] at hc
        refine hcontents _ hmem ?_
        simp only [Observation.sameContent, hr, hpart, hkind, Option.map_some]
        exact decide_eq_true (hc.symm.trans hshows.symm)
      · cases hc
  · rw [Observation.Shows, hsome] at hshows
    refine ⟨_, hown.trans hc, ?_⟩
    rintro ⟨id, n⟩ b hne hwaiting hadmits hcontent
    cases n with
    | none =>
      obtain ⟨r, hr, -⟩ := waiting_text hwaiting
      simp [content, hr, contentOf] at hcontent
    | some n =>
      obtain ⟨r, p, hr, hmem⟩ := competes_parts hepoch (hpartNe hne) hwaiting hadmits
      obtain ⟨part, hpart, ⟨-, hc⟩ | ⟨hkind, other, hother, hid, hc⟩⟩ := content_part hr hcontent
      · cases hc
      · rw [Content.file.injEq] at hc
        refine hcontents _ hmem ?_
        simp only [Observation.sameContent, hr, hpart, hkind, hshows, hsome, Option.map_some,
          Bool.true_and]
        exact List.any_eq_true.mpr ⟨other, hother, by simp [hid, hc]⟩

end Rivals

section Relinks

variable {scope : Scope} {j j' : Journal}

/-- A step links text requests when it reconciles, and the part whose echo it
publishes. -/
def Scope.Credits (scope : Scope) (k : SendKey) : Prop :=
  k.2 = none ∧ scope.reconciles = true ∨
    ∃ work echo, scope.echo = some (work, echo) ∧
      k = (work.request.requestId, some work.position)

/-- The send has no message, and no other waiting send is a rival for this one. -/
def Alone (j : Journal) (k : SendKey) (mid : Bytes) : Prop :=
  linked j k = none ∧ ∃ m, j.messages.get? mid = some m ∧ Unrivalled j k m

/-- The change links nothing, or one free message to one send without one. -/
inductive Relinked (scope : Scope) (j j' : Journal) : Prop where
  | same (h : ∀ k, linked j' k = linked j k)
  | link (k : SendKey) (mid : Bytes) (credits : scope.Credits k) (alone : Alone j k mid)
      (free : ∀ k', linked j k' ≠ some mid)
      (after : ∀ k', linked j' k' = if k' = k then some mid else linked j k')

/-- What a step publishes was seen, and what it commits is not linked. -/
structure Sincere (scope : Scope) (j : Journal) : Prop where
  sent : ∀ v, scope.sent = some v → v.serverEpoch = j.epoch →
    v.messageId = none ∧ linked j (v.requestId, none) = none
  echo : ∀ work echo, scope.echo = some (work, echo) → work.request.serverEpoch = j.epoch →
    Observation.Shows work echo ∨
      (linked j (work.request.requestId, some work.position)).isSome = true

theorem Updated.relinked {v : SendRequest} {row : SendRequestRow} (h : Updated j v j')
    (hk : Keyed j) (hk' : Keyed j') (hm : Mirrored j) (hm' : Mirrored j') (hs : Sound j)
    (hsincere : Sincere scope j) (hrow : j.sendRequests.get? v.requestId = some row)
    (hfollows : Follows row.record v) (hlinks : Links scope j row v) : Relinked scope j j' := by
  have hok := hk _ _ hrow
  have hsound := hs _ _ hrow
  have hafter := h.linked_eq hk hk' hm hm' hrow
  have hbefore (n : Option Nat) : linked j (v.requestId, n) = linkOf row.record n := by
    rw [Relay.linked_eq hk hm, hrow]
    rfl
  have hsame (hlink : ∀ n, linkOf v n = linkOf row.record n) : Relinked scope j j' := by
    refine .same fun k => ?_
    rw [hafter]
    split_ifs with hid
    · rw [hlink, ← hbefore, ← hid]
    · rfl
  have hnew {n : Option Nat} {mid : Bytes} (hlink : ∀ n', linkOf v n' =
      if n' = n then some mid else linkOf row.record n') (k : SendKey) :
      linked j' k = if k = (v.requestId, n) then some mid else linked j k := by
    obtain ⟨id, n'⟩ := k
    rw [hafter, hlink]
    by_cases hid : id = v.requestId
    · by_cases hn : n' = n
      · simp [hid, hn]
      · simp [hid, hn, hbefore]
    · simp [hid]
  cases hlinks with
  | kept same live held current =>
    apply hsame
    intro n
    cases n with
    | none =>
      rcases same.message with hmessage | ⟨hne, hmessage⟩
      · exact hmessage
      · exact hmessage.trans (hsound.whole fun hnil => hne (hfollows.nil.mpr hnil)).symm
    | some n => rw [linkOf_part, linkOf_part, same.parts]
  | sent work sent empty message settled tracks current =>
    have hepoch : work.serverEpoch = j.epoch := by
      rw [← tracks.serverEpoch, hok.serverEpoch, current]
    obtain ⟨hnone, hunlinked⟩ := hsincere.sent work sent hepoch
    rw [← tracks.requestId, hok.requestId, hbefore] at hunlinked
    apply hsame
    intro n
    cases n with
    | none => exact (message.trans hnone).trans hunlinked.symm
    | some n => simp [linkOf, empty, hfollows.nil.mp empty]
  | text id m dispatched before after parts settled current echo alone aloneParts allowed =>
    have hselected := Table.get?_select.mp echo
    have hfree : unlinked j id = true := by
      have hselected := hselected.2
      simp only [Bool.and_eq_true] at hselected
      exact hselected.2
    have halone := text_unrivalled hok hrow current (hsound.bounded dispatched) echo alone aloneParts
    refine .link (v.requestId, none) id (Or.inl ⟨rfl, allowed⟩)
      ⟨(hbefore none).trans before, m, hselected.1, halone⟩ (unlinked_free hfree) (hnew fun n' => ?_)
    cases n' with
    | none => exact after
    | some n => simp [linkOf, parts]
  | part n id m work echo seen request position message before after current found alone =>
    have hid : work.request.requestId = v.requestId := by
      rw [← request.requestId, hok.requestId]
    have hepoch : work.request.serverEpoch = j.epoch := by
      rw [← request.serverEpoch, hok.serverEpoch, current]
    have hunlinked : linked j (v.requestId, some n) = none := by
      rw [hbefore, linkOf_part, before]
      rfl
    have hlt : work.position < row.record.parts.length := by
      rw [position]
      by_contra hout
      rw [List.getElem?_eq_none (Nat.le_of_not_lt hout)] at before
      cases before
    have hstored := List.find?_some found
    simp only [Bool.and_eq_true, decide_eq_true_eq] at hstored
    have hshows : Observation.Shows work echo := by
      refine (hsincere.echo work echo seen hepoch).resolve_right fun hsome => ?_
      rw [hid, position, hunlinked] at hsome
      cases hsome
    have halone := part_unrivalled hshows (hid ▸ hrow) request hepoch hsound hlt hstored.1.2 alone
    have hclaimed : Observation.claimed j work id = false := by
      simp only [Observation.available, Bool.and_eq_true, Bool.not_eq_true'] at alone
      exact alone.1.1.1
    have hmessage : j.messages.get? id = some m :=
      (Table.get?_eq_some_iff _ _ _).mpr (List.mem_of_find?_eq_some found)
    rw [hid, position] at halone
    refine .link (v.requestId, some n) id (Or.inr ⟨work, echo, seen, by rw [hid, position]⟩)
      ⟨hunlinked, m, hmessage, halone⟩ ?_ (hnew fun n' => ?_)
    · exact claimed_free hclaimed (by rw [hid, position]; exact hunlinked)
    · cases n' with
      | none =>
        have hwhole : row.record.messageId = none := hsound.whole fun hnil => by
          simp [hnil] at hlt
        simp [linkOf, message, hwhole]
      | some k =>
        rw [linkOf_part, after, linkOf_part]
        by_cases hk : k = n
        · simp [hk]
        · simp [hk]

theorem linked_of_columns
    (hrows : ∀ id, (j'.sendRequests.get? id).map SendRequestRow.messageId =
      (j.sendRequests.get? id).map SendRequestRow.messageId)
    (hparts : ∀ key, (j'.sendParts.get? key).map SendPartRow.messageId =
      (j.sendParts.get? key).map SendPartRow.messageId) (k : SendKey) : linked j' k = linked j k := by
  have hbind {ρ : Type} (o : Option ρ) (f : ρ → Option Bytes) : o.bind f = (o.map f).join := by
    cases o <;> rfl
  obtain ⟨id, n⟩ := k
  cases n with
  | none => simp only [linked, hbind, hrows]
  | some n => simp only [linked, hbind, hparts]

theorem Quiet.relinked (h : Quiet j j') : Relinked scope j j' := by
  refine .same (linked_of_columns (fun id => ?_) fun key => ?_)
  · have hcore := congrArg (Option.map fun core => core.2.2.2.2) (h.rows id)
    rw [Option.map_map, Option.map_map] at hcore
    exact hcore
  · have hcore := congrArg (Option.map Prod.snd) (h.parts key)
    rw [Option.map_map, Option.map_map] at hcore
    exact hcore

theorem init_unlinked {input : SendInput} (n : Nat) : linkOf (initialRequest input) (some n) = none := by
  simp only [linkOf, Option.bind_eq_none_iff]
  intro part hpart
  have hmem := List.mem_of_getElem? hpart
  change part ∈ Sends.init input at hmem
  unfold Sends.init at hmem
  split_ifs at hmem
  · exact absurd hmem List.not_mem_nil
  · obtain ⟨file, -, rfl⟩ := List.mem_map.mp hmem
    rfl
  · rcases List.mem_append.mp hmem with hmem | hmem
    · rw [List.mem_singleton.mp hmem]
    · obtain ⟨file, -, rfl⟩ := List.mem_map.mp hmem
      rfl

theorem Change.relinked (h : Change scope j j') (hfresh : scope.fresh = []) (hk : Keyed j)
    (hm : Mirrored j) (hs : Sound j) (hsincere : Sincere scope j) : Relinked scope j j' := by
  have hk' := h.keyed hk
  have hm' := h.mirrored hfresh hm
  cases h with
  | quiet h _ => exact h.relinked
  | published r _ h _ => exact h.relinked
  | request v row found follows _ links updated =>
    exact updated.relinked hk hk' hm hm' hs hsincere found follows links
  | accepted input owner v h =>
    obtain ⟨route, now, hrows⟩ := h.rows
    refine .same fun k => ?_
    rw [linked_eq hk' hm', linked_eq hk hm, hrows]
    split_ifs with hid
    · rw [hid, h.absent, h.record]
      obtain ⟨id, n⟩ := k
      cases n with
      | none => rfl
      | some n => exact init_unlinked n
    · rfl
  | pruned cut h =>
    rw [h.effect]
    exact .same fun _ => rfl
  | ledger _ h =>
    obtain ⟨uploads, rfl⟩ := h.only
    exact .same fun _ => rfl
  | reset _ drawn _ => exact absurd (hfresh ▸ drawn) List.not_mem_nil

theorem heldRequest_unlinked {v v' : SendRequest} (h : heldRequest v = some v') (n : Option Nat) :
    linkOf v' n = none := by
  cases n with
  | none => exact (heldRequest_follows h).2.2
  | some n =>
    rw [linkOf, heldRequest_parts h, Sends.interruptParts_get]
    cases v.parts[n]? with
    | none => rfl
    | some part =>
      change (Sends.skipPart _ (Sends.interruptPart true part)).messageId = none
      rw [skipPart_messageId]
      simp [Sends.interruptPart]

theorem ResetTo.linked {epoch : Bytes} (h : ResetTo epoch j j') (hk : Keyed j) (hk' : Keyed j')
    (hm : Mirrored j) (hm' : Mirrored j') (k : SendKey) :
    linked j' k = none ∨ linked j' k = linked j k := by
  rw [linked_eq hk' hm', linked_eq hk hm]
  cases h.requests k.1 with
  | absent _ after _ =>
    rw [after]
    exact Or.inl rfl
  | settled row before _ after _ =>
    rw [after, before]
    exact Or.inr rfl
  | written row v revision _ _ _ held after _ =>
    rw [after]
    left
    change linkOf { v with revision := revision } k.2 = none
    have hunlinked := heldRequest_unlinked held k.2
    obtain ⟨id, n⟩ := k
    cases n <;> exact hunlinked
  | legacy row v _ _ _ held after _ =>
    rw [after]
    exact Or.inl (heldRequest_unlinked held k.2)

/-- The invariant: the columns agree with the records, and no message is linked twice. -/
structure Attributed (j : Journal) : Prop where
  keyed : Keyed j
  mirrored : Mirrored j
  sound : Sound j
  injective : ∀ k k' mid, linked j k = some mid → linked j k' = some mid → k = k'

theorem Relinked.keeps (h : Relinked scope j j') {k : SendKey} {mid : Bytes}
    (hlinked : linked j k = some mid) : linked j' k = some mid := by
  cases h with
  | same hsame => rw [hsame, hlinked]
  | link k₀ mid₀ _ alone _ after =>
    rw [after, if_neg]
    · exact hlinked
    · rintro rfl
      rw [alone.1] at hlinked
      exact nomatch hlinked

/-- A link the change made was allowed to it, and made on the journal before it. -/
theorem Relinked.made (h : Relinked scope j j') {k : SendKey} {mid : Bytes}
    (hbefore : linked j k ≠ some mid) (hafter : linked j' k = some mid) :
    scope.Credits k ∧ Alone j k mid := by
  cases h with
  | same hsame => exact absurd (hsame k ▸ hafter) hbefore
  | link k₀ mid₀ credits alone free after =>
    have hlinked := after k
    split_ifs at hlinked with hk
    · rw [hafter, Option.some.injEq] at hlinked
      subst hk hlinked
      exact ⟨credits, alone⟩
    · exact absurd (hlinked ▸ hafter) hbefore

theorem Relinked.injective (h : Relinked scope j j')
    (hj : ∀ k k' mid, linked j k = some mid → linked j k' = some mid → k = k') :
    ∀ k k' mid, linked j' k = some mid → linked j' k' = some mid → k = k' := by
  intro k k' mid hlinked hlinked'
  cases h with
  | same hsame => exact hj k k' mid (hsame k ▸ hlinked) (hsame k' ▸ hlinked')
  | link k₀ mid₀ _ _ free after =>
    rw [after] at hlinked hlinked'
    split_ifs at hlinked hlinked' with h₁ h₂ h₂
    · exact h₁.trans h₂.symm
    · rw [hlinked] at free
      exact absurd hlinked' (free k')
    · rw [hlinked'] at free
      exact absurd hlinked (free k)
    · exact hj k k' mid hlinked hlinked'

theorem Attributed.change (ha : Attributed j) (h : Change scope j j') (hfresh : scope.fresh = [])
    (hsincere : Sincere scope j) : Attributed j' where
  keyed := h.keyed ha.keyed
  mirrored := h.mirrored hfresh ha.mirrored
  sound := h.sound ha.sound
  injective := (h.relinked hfresh ha.keyed ha.mirrored ha.sound hsincere).injective ha.injective

theorem Attributed.reset {epoch : Bytes} (ha : Attributed j) (h : ResetTo epoch j j') :
    Attributed j' := by
  have hchange : Change { fresh := [epoch] } j j' := .reset epoch (List.mem_singleton_self _) h
  have hk := hchange.keyed ha.keyed
  have hm := (h.mirrored_iff ha.keyed ha.mirrored).mpr ha.sound.withstands
  have hold {k : SendKey} {mid : Bytes} (hlinked : linked j' k = some mid) :
      linked j k = some mid := by
    rcases h.linked ha.keyed hk ha.mirrored hm k with hnone | hsame
    · rw [hnone] at hlinked
      exact nomatch hlinked
    · exact hsame ▸ hlinked
  exact ⟨hk, hm, hchange.sound ha.sound, fun k k' mid hlinked hlinked' =>
    ha.injective k k' mid (hold hlinked) (hold hlinked')⟩

structure Attributes (scope : Scope) (j j' : Journal) : Prop where
  attributed : Attributed j'
  keeps : ∀ k mid, linked j k = some mid → linked j' k = some mid
  credits : ∀ k mid, linked j k ≠ some mid → linked j' k = some mid → scope.Credits k

theorem Attributed.refl (ha : Attributed j) : Attributes scope j j :=
  ⟨ha, fun _ _ h => h, fun _ _ hnot h => absurd h hnot⟩

theorem Attributes.tail {i : Journal} (ha : Attributes scope j i) (h : Change scope i j')
    (hfresh : scope.fresh = []) (hsincere : Sincere scope i) : Attributes scope j j' := by
  have hi := ha.attributed
  have hrelinked := h.relinked hfresh hi.keyed hi.mirrored hi.sound hsincere
  refine ⟨hi.change h hfresh hsincere, fun k mid hlinked => hrelinked.keeps (ha.keeps k mid hlinked),
    fun k mid hnot hlinked => ?_⟩
  by_cases hearlier : linked i k = some mid
  · exact ha.credits k mid hnot hearlier
  · exact (hrelinked.made hearlier hlinked).1

theorem Attributed.changed (ha : Attributed j) (h : Changed scope j j') (hfresh : scope.fresh = [])
    (hsent : scope.sent = none) (hsincere : Sincere scope j) : Attributes scope j j' := by
  suffices hboth : Attributes scope j j' ∧ Sincere scope j' from hboth.1
  induction h with
  | refl => exact ⟨ha.refl, hsincere⟩
  | tail _ h ih =>
    obtain ⟨hattributes, hi⟩ := ih
    refine ⟨hattributes.tail h hfresh hi, ⟨fun v hv => ?_, fun work echo hwork hepoch => ?_⟩⟩
    · rw [hsent] at hv
      exact nomatch hv
    · rw [(h.grows hfresh).1] at hepoch
      refine (hi.echo work echo hwork hepoch).imp_right fun hsome => ?_
      obtain ⟨mid, hmid⟩ := Option.isSome_iff_exists.mp hsome
      have hj := hattributes.attributed
      rw [(h.relinked hfresh hj.keyed hj.mirrored hj.sound hi).keeps hmid]
      rfl

theorem sincere_silent (hsent : scope.sent = none) (hecho : scope.echo = none) : Sincere scope j where
  sent _ hv := by rw [hsent] at hv; exact nomatch hv
  echo _ _ hwork := by rw [hecho] at hwork; exact nomatch hwork

theorem Attributed.plain (ha : Attributed j) (h : Changed {} j j') :
    Attributed j' ∧ ∀ k mid, linked j' k = some mid ↔ linked j k = some mid := by
  have hattributes := ha.changed h rfl rfl (sincere_silent rfl rfl)
  refine ⟨hattributes.attributed, fun k mid => ⟨fun hlinked => ?_, hattributes.keeps k mid⟩⟩
  by_contra hnot
  rcases hattributes.credits k mid hnot hlinked with ⟨-, hreconciles⟩ | ⟨work, echo, hecho, -⟩
  · exact nomatch hreconciles
  · exact nomatch hecho

end Relinks

end Zimbr.Relay
