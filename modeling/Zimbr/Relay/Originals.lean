import Zimbr.Relay.Acceptance

set_option autoImplicit false

/-!
# The originals of attachments

A request owns the upload of each of its parts until the part is delivered or
is known never to have been executed; until then nothing retires the original.
-/
namespace Zimbr.Relay
open Library

def Unshared (parts : List SendPart) : Prop :=
  ∀ (i k : Nat) (p q : SendPart) (uploadId : Bytes), parts[i]? = some p → parts[k]? = some q →
    p.attachmentId = some uploadId → q.attachmentId = some uploadId → i = k

/-- Every part that still needs its original has it pinned under its request. -/
structure Originals (j : Journal) : Prop where
  owned : ∀ id row, j.sendRequests.get? id = some row → ∀ part ∈ row.record.parts,
    needsOriginal part = true → ∃ uploadId r, part.attachmentId = some uploadId ∧
      j.uploads.get? uploadId = some r ∧ r.state = .pinned ∧ r.requestId = some id
  unshared : ∀ id row, j.sendRequests.get? id = some row → Unshared row.record.parts

/-- An attachment part that needs no original is delivered, or was never executed. -/
theorem settled_of_not_needs {part : SendPart} (hkind : part.kind = .attachment)
    (h : needsOriginal part = false) : part.state = .delivered ∨
      (part.state = .failed ∨ part.state = .skipped) ∧
        ∃ err, part.errorInfo = some err ∧ err.outcome = .unstarted := by
  by_cases hdelivered : part.state = .delivered
  · exact Or.inl hdelivered
  · have hunstarted : unstartedAttachment part = true := by
      simpa [needsOriginal, hkind, hdelivered] using h
    simp only [unstartedAttachment, Bool.and_eq_true, Bool.or_eq_true, decide_eq_true_eq,
      Option.any_eq_true] at hunstarted
    exact Or.inr ⟨hunstarted.1.2, hunstarted.2⟩

theorem originals_new (epoch : Bytes) : Originals { epoch := epoch } where
  owned _ _ h := nomatch h
  unshared _ _ h := nomatch h

def Releases (j j' : Journal) : Prop :=
  ∀ id r, j.uploads.get? id = some r → r.state = .pinned → j'.uploads.get? id = some r ∨
    ∃ requestId, r.requestId = some requestId ∧ Finished j' requestId id

section Changes

variable {scope : Scope} {j j' : Journal}

theorem Spared.releases (h : Spared j j') : Releases j j' := by
  intro id r hr _
  rcases h id with hsame | ⟨r', requestId, hr', -, howner, hfinished, -⟩
  · exact Or.inl (hsame.trans hr)
  · rw [hr, Option.some.injEq] at hr'
    exact Or.inr ⟨requestId, hr' ▸ howner, hfinished⟩

theorem Kept.releases (h : Kept j j') : Releases j j' := fun id r hr hpinned =>
  Or.inl (h.pinned id r hr hpinned)

theorem Follows.before {v v' : SendRequest} (h : Follows v v') {i : Nat} {p' : SendPart}
    (hp' : v'.parts[i]? = some p') : ∃ p, v.parts[i]? = some p ∧ Continues p p' := by
  have hlt : i < v.parts.length := by
    rw [← h.parts]
    exact (List.getElem?_eq_some_iff.mp hp').1
  have hp := List.getElem?_eq_getElem hlt
  exact ⟨_, hp, h.part i _ p' hp hp'⟩

theorem Follows.unshared {v v' : SendRequest} (h : Follows v v') (hv : Unshared v.parts) :
    Unshared v'.parts := by
  intro i k p q uploadId hp hq hpid hqid
  obtain ⟨p₀, hp₀, hpc⟩ := h.before hp
  obtain ⟨q₀, hq₀, hqc⟩ := h.before hq
  exact hv i k p₀ q₀ uploadId hp₀ hq₀ (hpc.attachmentId ▸ hpid) (hqc.attachmentId ▸ hqid)

/-- What releases only originals of finished parts, while every record goes on
from the one before, keeps the originals of the others. -/
theorem Originals.follow (h : Originals j) (hreleases : Releases j j')
    (hrows : ∀ id row', j'.sendRequests.get? id = some row' →
      ∃ row, j.sendRequests.get? id = some row ∧ Follows row.record row'.record) :
    Originals j' := by
  have hunshared (id : Bytes) (row' : SendRequestRow)
      (hrow' : j'.sendRequests.get? id = some row') : Unshared row'.record.parts := by
    obtain ⟨row, hrow, hfollows⟩ := hrows id row' hrow'
    exact hfollows.unshared (h.unshared id row hrow)
  refine ⟨fun id row' hrow' part' hpart' hneeds => ?_, hunshared⟩
  obtain ⟨row, hrow, hfollows⟩ := hrows id row' hrow'
  obtain ⟨i, hi'⟩ := List.mem_iff_getElem?.mp hpart'
  obtain ⟨part, hi, hcontinues⟩ := hfollows.before hi'
  have hneeded : needsOriginal part = true := by
    by_contra hnot
    rw [hcontinues.original (by simpa using hnot)] at hneeds
    cases hneeds
  obtain ⟨uploadId, r, hid, hr, hpinned, howner⟩ :=
    h.owned id row hrow part (List.mem_of_getElem? hi) hneeded
  have hid' : part'.attachmentId = some uploadId := hcontinues.attachmentId.trans hid
  rcases hreleases uploadId r hr hpinned with hkept | ⟨requestId, howner', hfinished⟩
  · exact ⟨uploadId, r, hid', hkept, hpinned, howner⟩
  · -- The finished part would be another part of this request with this original.
    rw [howner, Option.some.injEq] at howner'
    obtain ⟨row'', other, hrow'', hother, hotherId, hdone⟩ := hfinished
    rw [← howner', hrow', Option.some.injEq] at hrow''
    rw [← hrow''] at hother
    obtain ⟨k, hk⟩ := List.mem_iff_getElem?.mp hother
    have hsame := hunshared id row' hrow' i k part' other uploadId hi' hk hid' hotherId
    rw [← hsame, hi', Option.some.injEq] at hk
    rw [← hk, hneeds] at hdone
    cases hdone

theorem Quiet.follows (h : Quiet j j') (id : Bytes) (row' : SendRequestRow)
    (hrow' : j'.sendRequests.get? id = some row') :
    ∃ row, j.sendRequests.get? id = some row ∧ Follows row.record row'.record := by
  obtain ⟨row, hrow, hcore⟩ := h.before hrow'
  simp only [SendRequestRow.core, Prod.mk.injEq] at hcore
  exact ⟨row, hrow, hcore.2.2.1 ▸ Follows.refl _⟩

theorem HeldAs.follows {id : Bytes} {row' : SendRequestRow} (h : HeldAs j j' id)
    (hrow' : j'.sendRequests.get? id = some row') :
    ∃ row, j.sendRequests.get? id = some row ∧ Follows row.record row'.record := by
  cases h with
  | absent _ after _ =>
    rw [after] at hrow'
    exact nomatch hrow'
  | settled row before _ after _ =>
    rw [after, Option.some.injEq] at hrow'
    exact ⟨row, before, hrow' ▸ Follows.refl _⟩
  | written row v revision before _ _ held after _ =>
    rw [after, Option.some.injEq] at hrow'
    exact ⟨row, before, hrow' ▸ (heldRequest_follows held).1.revision revision⟩
  | legacy row v before _ _ held after _ =>
    rw [after, Option.some.injEq] at hrow'
    exact ⟨row, before, hrow' ▸ (heldRequest_follows held).1⟩

/-- The attachment parts of a new request are its files, in their order. -/
theorem init_part {input : SendInput} {i : Nat} {p : SendPart} {uploadId : Bytes}
    (hp : (Sends.init input)[i]? = some p) (hid : p.attachmentId = some uploadId) :
    ∃ (n k : Nat) (file : Upload), i = n + k ∧ (n = if input.text = [] then 0 else 1) ∧
      input.attachments[k]? = some file ∧ file.id = uploadId := by
  have hfiles {k : Nat} (h : (input.attachments.map fun file : Upload =>
      ({ kind := .attachment, attachmentId := some file.id } : SendPart))[k]? = some p) :
      ∃ file, input.attachments[k]? = some file ∧ file.id = uploadId := by
    rw [List.getElem?_map, Option.map_eq_some_iff] at h
    obtain ⟨file, hfile, rfl⟩ := h
    exact ⟨file, hfile, Option.some.inj hid⟩
  unfold Sends.init at hp
  split_ifs at hp with hnil htext
  · simp at hp
  · obtain ⟨file, hfile, hfid⟩ := hfiles hp
    exact ⟨0, i, file, by omega, by simp [htext], hfile, hfid⟩
  · cases i with
    | zero =>
      rw [List.singleton_append, List.getElem?_cons_zero, Option.some.injEq] at hp
      rw [← hp] at hid
      exact nomatch hid
    | succ k =>
      obtain ⟨file, hfile, hfid⟩ := hfiles hp
      exact ⟨1, k, file, by omega, by simp [htext], hfile, hfid⟩

theorem init_needs {input : SendInput} {p : SendPart} (hp : p ∈ Sends.init input)
    (hneeds : needsOriginal p = true) : ∃ file ∈ input.attachments, p.attachmentId = some file.id := by
  have hkind : p.kind = .attachment := by
    simp only [needsOriginal, Bool.and_eq_true, decide_eq_true_eq] at hneeds
    exact hneeds.1.1
  have hfiles (h : p ∈ input.attachments.map fun file : Upload =>
      ({ kind := .attachment, attachmentId := some file.id } : SendPart)) :
      ∃ file ∈ input.attachments, p.attachmentId = some file.id := by
    obtain ⟨file, hfile, rfl⟩ := List.mem_map.mp h
    exact ⟨file, hfile, rfl⟩
  unfold Sends.init at hp
  split_ifs at hp
  · exact absurd hp List.not_mem_nil
  · exact hfiles hp
  · rcases List.mem_append.mp hp with hp | hp
    · rw [List.mem_singleton.mp hp] at hkind
      cases hkind
    · exact hfiles hp

theorem init_unshared {input : SendInput} (hvalid : validate input = .ok ()) :
    Unshared (Sends.init input) := by
  intro i k p q uploadId hp hq hpid hqid
  obtain ⟨n, a, f, hi, hn, hf, hfid⟩ := init_part hp hpid
  obtain ⟨m, b, g, hk, hm, hg, hgid⟩ := init_part hq hqid
  have hids := Attachments.validateSet_ids (validate_set hvalid)
  have ha : (input.attachments.map Upload.id)[a]? = some uploadId := by
    rw [List.getElem?_map, hf, Option.map_some, hfid]
  have hb : (input.attachments.map Upload.id)[b]? = some uploadId := by
    rw [List.getElem?_map, hg, Option.map_some, hgid]
  have hlt : a < (input.attachments.map Upload.id).length :=
    (List.getElem?_eq_some_iff.mp ha).1
  have hsame : a = b := (List.getElem?_inj hlt hids).mp (ha.trans hb.symm)
  omega

theorem AcceptedAs.originals {input : SendInput} {owner : Option Bytes} {v : SendRequest}
    (h : AcceptedAs j input owner v j') (ho : Originals j) : Originals j' := by
  obtain ⟨route, now, hrows⟩ := h.rows
  have hparts : v.parts = Sends.init input := by
    rw [h.record]
    rfl
  have hpinned {id : Bytes} {r : UploadRow} (hr : j.uploads.get? id = some r)
      (hstate : r.state = .pinned) : j'.uploads.get? id = some r := by
    rcases h.uploads id with ⟨-, hsame⟩ | ⟨file, -, r', -, hr', -, -, -, hready, -⟩
    · exact hsame.trans hr
    · rw [hr, Option.some.injEq] at hr'
      rw [← hr', hstate] at hready
      exact nomatch hready
  refine ⟨fun id row hrow part hpart hneeds => ?_, fun id row hrow => ?_⟩
  · rw [hrows] at hrow
    split_ifs at hrow with hid
    · rw [Option.some.injEq] at hrow
      rw [← hrow] at hpart
      change part ∈ v.parts at hpart
      rw [hparts] at hpart
      obtain ⟨file, hfile, hpartId⟩ := init_needs hpart hneeds
      rcases h.uploads file.id with ⟨hother, -⟩ | ⟨_, _, r, -, -, -, -, -, -, hafter⟩
      · exact absurd rfl (hother file hfile)
      · exact ⟨file.id, _, hpartId, hafter, rfl, by rw [hid]⟩
    · obtain ⟨uploadId, r, hpartId, hr, hstate, howner⟩ := ho.owned id row hrow part hpart hneeds
      exact ⟨uploadId, r, hpartId, hpinned hr hstate, hstate, howner⟩
  · rw [hrows] at hrow
    split_ifs at hrow
    · rw [Option.some.injEq] at hrow
      rw [← hrow]
      change Unshared v.parts
      rw [hparts]
      exact init_unshared h.valid
    · exact ho.unshared id row hrow

theorem Change.originals (h : Change scope j j') (ho : Originals j) : Originals j' := by
  cases h with
  | quiet h _ => exact ho.follow h.spared.releases h.follows
  | published r _ h _ => exact ho.follow h.spared.releases h.follows
  | request v row found follows _ _ updated =>
    refine ho.follow (updated.spared (by rw [found]; rfl)).releases fun id row' hrow' => ?_
    rw [updated.get?] at hrow'
    split_ifs at hrow' with hid
    · rw [hid] at hrow' ⊢
      rw [found, Option.map_some, Option.some.injEq] at hrow'
      exact ⟨row, found, hrow' ▸ follows⟩
    · exact ⟨row', hrow', Follows.refl _⟩
  | accepted input owner v h => exact h.originals ho
  | pruned cut h =>
    rw [h.effect]
    exact ⟨ho.owned, ho.unshared⟩
  | ledger _ h =>
    refine ho.follow h.releases fun id row' hrow' => ?_
    obtain ⟨uploads, rfl⟩ := h.only
    exact ⟨row', hrow', Follows.refl _⟩
  | reset epoch _ h =>
    exact ho.follow h.spared.releases fun id row' hrow' => (h.requests id).follows hrow'

theorem Change.releases (h : Change scope j j') : Releases j j' := by
  cases h with
  | quiet h _ => exact h.spared.releases
  | published r _ h _ => exact h.spared.releases
  | request v row found _ _ _ updated => exact (updated.spared (by rw [found]; rfl)).releases
  | accepted input owner v h =>
    intro id r hr hpinned
    rcases h.uploads id with ⟨-, hsame⟩ | ⟨file, -, r', -, hr', -, -, -, hready, -⟩
    · exact Or.inl (hsame.trans hr)
    · rw [hr, Option.some.injEq] at hr'
      rw [← hr', hpinned] at hready
      exact nomatch hready
  | pruned cut h =>
    rw [h.effect]
    exact fun _ _ hr _ => Or.inl hr
  | ledger _ h => exact h.releases
  | reset epoch _ h => exact h.spared.releases

theorem Changed.releases (h : Changed scope j j') : Releases j j' := by
  induction h with
  | refl => exact fun _ _ hr _ => Or.inl hr
  | tail _ h ih =>
    intro id r hr hpinned
    rcases ih id r hr hpinned with hkept | ⟨requestId, howner, hfinished⟩
    · exact h.releases id r hkept hpinned
    · refine Or.inr ⟨requestId, howner, hfinished.follow fun row hrow => ?_⟩
      obtain ⟨row', hrow', -, -, hfollows⟩ := h.evolves.rows requestId row hrow
      exact ⟨row', hrow', hfollows⟩

theorem Changed.originals (h : Changed scope j j') (ho : Originals j) : Originals j' := by
  induction h with
  | refl => exact ho
  | tail _ h ih => exact h.originals ih

end Changes

theorem run_originals {enc : Encoding} {p : Process} (h : p.Valid) (ho : Originals p.journal)
    (actions : List Action) : Originals ((relay enc).run p actions).journal :=
  ((relay enc).run_invariant (I := fun q => q.Valid ∧ Originals q.journal)
    (fun _ a hq => ⟨(hq.1.step a).1, (hq.1.step a).2.changed.originals hq.2⟩) p actions ⟨h, ho⟩).2

/-- In every run, the upload of every attachment part stays pinned by its
request until the part is delivered, or has failed or been skipped without
being executed; and no step retires a pinned original for any other reason. -/
theorem originals_retained (enc : Encoding) {p : Process} (initial : p.Initial)
    (originals : Originals p.journal) (actions : List Action) :
    let j := ((relay enc).run p actions).journal
    (∀ id row, j.sendRequests.get? id = some row → ∀ part ∈ row.record.parts,
      part.kind = .attachment → part.state = .delivered ∨
        ((part.state = .failed ∨ part.state = .skipped) ∧
          ∃ err, part.errorInfo = some err ∧ err.outcome = .unstarted) ∨
        ∃ uploadId r, part.attachmentId = some uploadId ∧ j.uploads.get? uploadId = some r ∧
          r.state = .pinned ∧ r.requestId = some id) ∧
    ∀ before a after, actions = before ++ a :: after → ∀ uploadId r,
      ((relay enc).run p before).journal.uploads.get? uploadId = some r → r.state = .pinned →
      ((relay enc).run p (before ++ [a])).journal.uploads.get? uploadId = some r ∨
        ∃ id, r.requestId = some id ∧
          Finished ((relay enc).run p (before ++ [a])).journal id uploadId := by
  intro j
  have horiginals : Originals j := run_originals initial.valid originals actions
  refine ⟨fun id row hrow part hpart hkind => ?_, fun before a after _ uploadId r hr hpinned => ?_⟩
  · by_cases hneeds : needsOriginal part = true
    · exact Or.inr (Or.inr (horiginals.owned id row hrow part hpart hneeds))
    · exact (settled_of_not_needs hkind (by simpa using hneeds)).imp_right Or.inl
  · rw [Machine.run_append]
    exact ((run_valid initial.valid before).step a).2.changed.releases uploadId r hr hpinned

namespace Sample

def device : Bytes := [1]
def token : Bytes := text "EAAAAAAAAAAAAAAAAAAAAA"

def lease : Uploads.Lease where
  serverEpoch := epoch
  file := file
  token := token

def sendPhoto : List Action := [
  .launch { now := 0 },
  .critical { now := 1 } (.reserve device epoch file),
  .critical { now := 2, fresh := [token] } (.claim device epoch file.id),
  .critical { now := 3 } (.complete lease),
  .critical { now := 4 } (.post helloFile true device)]

end Sample

theorem originals_retained_photo :
    let j := ((relay Sample.encoding).run (.new Sample.epoch) Sample.sendPhoto).journal
    ∃ uploadId r, j.uploads.get? uploadId = some r ∧ r.state = .pinned ∧
      r.requestId = some Sample.requestId := by
  intro j
  have hparts : ((j.sendRequests.get? Sample.requestId).map fun row => row.record.parts) =
      some (Sends.init Sample.helloFile) := by decide +kernel
  obtain ⟨row, hrow, hparts⟩ := Option.map_eq_some_iff.mp hparts
  have hpart : ({ kind := .attachment, attachmentId := some Sample.file.id } : SendPart) ∈
      row.record.parts := by
    rw [hparts]
    decide
  rcases (originals_retained Sample.encoding (Process.new_initial Sample.epoch)
    (originals_new Sample.epoch) Sample.sendPhoto).1 _ row hrow _ hpart rfl with
    hdelivered | ⟨hstopped | hstopped, -⟩ | ⟨uploadId, r, -, howned⟩
  · exact nomatch hdelivered
  · exact nomatch hstopped
  · exact nomatch hstopped
  · exact ⟨uploadId, r, howned⟩

end Zimbr.Relay
