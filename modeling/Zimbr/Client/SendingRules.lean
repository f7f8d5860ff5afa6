import Zimbr.Client.Related
import Zimbr.Client.Sending

set_option autoImplicit false

/-!
# What becomes of a pending send

A send that was saved keeps its payload. Apart from an outcome that the sender
records itself, its stage only changes when a record answers it or when it is
abandoned.
-/
namespace Zimbr.Client
open Library

/-- The same send, answered or abandoned in between or not. -/
structure OutboxRow.Follows (row' row : OutboxRow) : Prop where
  payload : row'.payload = row.payload
  epoch : row'.epoch = row.epoch
  answered : row.record.isSome = true → row'.record.isSome = true
  stage : row'.record.isSome = true ∨ row'.state = row.state ∨ row'.state = .unknown

namespace OutboxRow.Follows

variable {row row' row'' : OutboxRow}

theorem refl (row : OutboxRow) : row.Follows row := ⟨rfl, rfl, id, Or.inr (Or.inl rfl)⟩

theorem trans (h : row''.Follows row') (h' : row'.Follows row) : row''.Follows row where
  payload := h.payload.trans h'.payload
  epoch := h.epoch.trans h'.epoch
  answered := fun hrow => h.answered (h'.answered hrow)
  stage := by
    rcases h.stage with hrecord | hstate | hstate
    · exact Or.inl hrecord
    · rcases h'.stage with hrecord | hstate' | hstate'
      · exact Or.inl (h.answered hrecord)
      · exact Or.inr (Or.inl (hstate.trans hstate'))
      · exact Or.inr (Or.inr (hstate.trans hstate'))
    · exact Or.inr (Or.inr hstate)

theorem rekey (row : OutboxRow) (key : Bytes) : ({ row with draftKey := key } : OutboxRow).Follows row :=
  ⟨rfl, rfl, id, Or.inr (Or.inl rfl)⟩

theorem abandon (row : OutboxRow) {detail : String} :
    ({ row with state := .unknown, detail := detail } : OutboxRow).Follows row :=
  ⟨rfl, rfl, id, Or.inr (Or.inr rfl)⟩

theorem follow (v : Decoded SendRequest) (row : OutboxRow) : (row.follow v).Follows row :=
  ⟨rfl, rfl, fun _ => rfl, Or.inl rfl⟩

end OutboxRow.Follows

/-- Every send is still there, and none is new. -/
structure Continues (s s' : Store) : Prop where
  kept : ∀ id row, s.outbox.get? id = some row →
    ∃ row', s'.outbox.get? id = some row' ∧ row'.Follows row
  none_new : ∀ id, s.outbox.get? id = none → s'.outbox.get? id = none

namespace Continues

variable {s s' s'' : Store}

theorem refl (s : Store) : Continues s s := ⟨fun _ row h => ⟨row, h, .refl row⟩, fun _ h => h⟩

theorem trans (h : Continues s s') (h' : Continues s' s'') : Continues s s'' where
  kept := fun id row hrow => by
    obtain ⟨row₁, hrow₁, hfollows₁⟩ := h.kept id row hrow
    obtain ⟨row₂, hrow₂, hfollows₂⟩ := h'.kept id row₁ hrow₁
    exact ⟨row₂, hrow₂, hfollows₂.trans hfollows₁⟩
  none_new := fun id hid => h'.none_new id (h.none_new id hid)

instance continuesRefl : Std.Refl Continues where
  refl := refl

instance continuesTrans : IsTrans Store Continues where
  trans _ _ _ := trans

theorem of_outbox (h : s'.outbox = s.outbox) : Continues s s' := by
  refine ⟨fun id row hrow => ⟨row, ?_, .refl row⟩, fun id hid => ?_⟩
  · rw [h, hrow]
  · rw [h, hid]

theorem modifyWhere (s : Store) (p : Bytes → OutboxRow → Bool) {f : OutboxRow → OutboxRow}
    (hf : ∀ row, (f row).Follows row) :
    Continues s { s with outbox := s.outbox.modifyWhere p f } := by
  refine ⟨fun id row hrow => ?_, fun id hid => ?_⟩
  · rw [Table.get?_modifyWhere, hrow]
    refine ⟨_, rfl, ?_⟩
    dsimp only
    split_ifs
    · exact hf row
    · exact .refl row
  · rw [Table.get?_modifyWhere, hid]
    rfl

end Continues

section Writing

theorem requestState_continues {v : Decoded SendRequest} :
    Sql.Advances Continues (requestState v) := by
  refine .bind (.execute fun s => .modifyWhere s _ (.follow v)) fun _ => ?_
  split_ifs
  · exact .execute fun s => .of_outbox rfl
  · exact .pure

theorem followRequest_continues {record : Incoming} :
    Sql.Advances Continues (followRequest record) := by
  cases record with
  | request v => exact requestState_continues
  | _ => exact .pure

theorem mergeDrafts_outbox {canonical combined : Bytes} {aliases : List (Bytes × Bytes)} :
    Sql.Keeps Store.outbox (mergeDrafts canonical combined aliases) := by
  unfold mergeDrafts
  split_ifs
  · exact .bind (.execute fun _ => rfl) fun _ => .each fun _ _ => .execute fun _ => rfl
  · exact .pure

theorem mergeThreadState_continues {key : Bytes} :
    Sql.Advances Continues (mergeThreadState key) :=
  .bind .query fun _ => .bind .query fun _ => .bind .query fun _ =>
    .bind (.of_keeps mergeDrafts_outbox fun _ _ => .of_outbox) fun _ =>
    .bind (.execute fun s => .modifyWhere s _ fun row => .rekey row _) fun _ =>
    .execute fun _ => .of_outbox rfl

theorem regroupMoved_continues {record : Incoming} {existing : Option RecordRow} :
    Sql.Advances Continues (regroupMoved record existing) := by
  unfold regroupMoved
  split_ifs
  · exact .bind (.execute fun s => .of_outbox rfl) fun _ => mergeThreadState_continues
  · exact .pure

theorem writeStored_continues {record : Incoming} :
    Sql.Advances Continues (writeStored record) := by
  refine .bind .query fun existing => ?_
  split
  · exact .bind followRequest_continues fun _ => .pure
  · exact .bind (.execute fun s => .of_outbox rfl) fun _ =>
      .bind (.of_keeps (forgetEnrichment_keeps fun _ _ _ => rfl) fun _ _ => .of_outbox) fun _ =>
      .bind followRequest_continues fun _ => .bind regroupMoved_continues fun _ => .pure

theorem storeDraft_continues {key value : Bytes} : Sql.Advances Continues (storeDraft key value) := by
  have hupsert (key : Bytes) : Sql.Advances Continues (upsertDraft key value) :=
    .execute fun s => .of_outbox rfl
  refine .bind .query fun canonical => ?_
  split_ifs
  · exact .bind (hupsert key) fun _ => mergeThreadState_continues
  · exact hupsert canonical

theorem saveDraft_continues {autocommit : Bool} {key value : Bytes} :
    Sql.Advances Continues (saveDraft autocommit key value) := by
  refine .bind .require fun _ => ?_
  split_ifs
  · exact .transaction storeDraft_continues
  · exact storeDraft_continues

def stages (s : Store) (id : Bytes) : Option (SendInput × OutboxState × Option (Decoded SendRequest)) :=
  (s.outbox.get? id).map fun r => (r.payload, r.state, r.record)

theorem stages_rekey (s : Store) (p : Bytes → OutboxRow → Bool) (key : Bytes) :
    stages { s with outbox := s.outbox.modifyWhere p fun r => { r with draftKey := key } } =
      stages s := by
  funext id
  simp only [stages, Table.get?_modifyWhere, Option.map_map]
  congr 1
  funext r
  simp only [Function.comp_apply]
  split_ifs <;> rfl

theorem mergeThreadState_stages {key : Bytes} : Sql.Keeps stages (mergeThreadState key) :=
  .bind .query fun _ => .bind .query fun _ => .bind .query fun _ =>
    .bind (mergeDrafts_outbox.mono fun s s' h => by unfold stages; rw [h]) fun _ =>
    .bind (.execute fun s => stages_rekey s _ _) fun _ => .execute fun _ => rfl

theorem saveDraft_stages {autocommit : Bool} {key value : Bytes} :
    Sql.Keeps stages (saveDraft autocommit key value) := by
  have hupsert (key : Bytes) : Sql.Keeps stages (upsertDraft key value) := .execute fun _ => rfl
  have hstore : Sql.Keeps stages (storeDraft key value) := by
    refine .bind .query fun canonical => ?_
    split_ifs
    · exact .bind (hupsert key) fun _ => mergeThreadState_stages
    · exact hupsert canonical
  refine .bind .require fun _ => ?_
  split_ifs
  · exact .transaction hstore
  · exact hstore

theorem beginSync_continues {epoch cursor : Bytes} :
    Sql.Advances Continues (beginSync epoch cursor) := by
  refine .bind .require fun _ => .bind .lift fun _ => .transaction (.bind .query fun _ =>
    .bind ?_ fun _ => .bind (.execute fun _ => .of_outbox rfl) fun _ =>
    .bind (.execute fun s => .modifyWhere s _ fun row => .abandon row) fun _ => ?_)
  · unfold enterEpoch
    split_ifs
    · exact .pure
    · exact .execute fun _ => .of_outbox rfl
  · exact .bind (.execute fun _ => .of_outbox rfl) fun _ => .bind (.execute fun _ => .of_outbox rfl)
      fun _ => .bind (.execute fun _ => .of_outbox rfl) fun _ => .bind (.execute fun _ =>
      .of_outbox rfl) fun _ => .bind (.execute fun _ => .of_outbox rfl) fun _ =>
      .note fun _ => .of_outbox rfl

theorem writeRecord_continues {autocommit : Bool} {record : Incoming} :
    Sql.Advances Continues (writeRecord autocommit record) := by
  by_cases hkind : record.kind = .identity
  · cases record with
    | identity v =>
      refine .bind .require fun _ => .bind .require fun _ => .statement fun s changed s' h => ?_
      rw [upsertIdentity_only h]
      exact .of_outbox rfl
    | _ => cases hkind
  · rw [writeRecord_eq hkind]
    refine .bind (.of_reads checkRecord_reads) fun current => ?_
    split_ifs
    · exact .pure
    · exact .bind .require fun _ => .bind .require fun _ => .transaction writeStored_continues
    · exact .bind .require fun _ => .bind .require fun _ => writeStored_continues

theorem upsert_continues {dec : Decoder} {autocommit : Bool} {kind : Kind} {raw : Bytes} :
    Sql.Advances Continues (upsert dec autocommit kind raw) :=
  .bind .lift fun _ => .bind .lift fun _ => .bind writeRecord_continues fun _ => .pure

/-- A new row: a text is sent at once, files are uploaded first. -/
structure OutboxRow.New (row : OutboxRow) (input : SendInput) : Prop where
  payload : row.payload = input
  record : row.record = none
  state : row.state = if input.attachments.length = 0 then .sending else .uploading

/-- A send that was saved: the reviewed files of the draft became its own. -/
theorem persistSend_stored {sentAt : Int} {key : Bytes} {input : SendInput} {c c' : Conn Store Bytes}
    (h : (persistSend sentAt key input).run c = (.ok (), c')) :
    ∃ row outbox c₁ c₂, row.New input ∧ c.db.outbox.insert input.requestId row = some outbox ∧
      c.db.draftFiles key = input.attachments ∧
      c₁.db = { c.db with
        outgoingFiles := c.db.outgoingFiles.modifyWhere
          (fun _ f => f.draftKey = some (c.db.threadKey key))
          fun f => { f with draftKey := none, requestId := some input.requestId }
        outbox := outbox } ∧
      (saveDraft false key []).run c₁ = (.ok (), c₂) ∧ c₂.db = c'.db := by
  obtain ⟨_, d₁, hvalid, h⟩ := Sql.bind_ok h
  obtain ⟨_, d₂, hepoch, h⟩ := Sql.bind_ok h
  obtain ⟨_, d₃, hcurrent, h⟩ := Sql.bind_ok h
  obtain ⟨d₄, d₅, hbegin, -, hbody, hcommit⟩ := Sql.transaction_ok h
  have hdb₄ : d₄.db = c.db := by
    rw [hbegin, (Sql.require_ok hcurrent).2, (Sql.query_ok hepoch).2, (Sql.lift_ok hvalid).2]
  obtain ⟨_, d₆, htransfer, hbody⟩ := Sql.bind_ok hbody
  obtain ⟨files, d₇, hfiles, htransfer⟩ := Sql.bind_ok htransfer
  obtain ⟨_, d₈, hreviewed, htransfer⟩ := Sql.bind_ok htransfer
  obtain ⟨canonical, d₉, hcanonical, htransfer⟩ := Sql.bind_ok htransfer
  obtain ⟨rfl, hdb₇⟩ := Sql.query_ok hfiles
  obtain ⟨hreviewed, hdb₈⟩ := Sql.require_ok hreviewed
  obtain ⟨rfl, hdb₉⟩ := Sql.query_ok hcanonical
  have hdb₆ := Sql.execute_ok htransfer
  obtain ⟨_, d₁₀, hinsert, hsave⟩ := Sql.bind_ok hbody
  have hstored := Sql.execute?_ok hinsert
  obtain ⟨outbox, houtbox, hdb₁₀⟩ := Option.map_eq_some_iff.mp hstored
  rw [hdb₉, hdb₈, hdb₇, hdb₄] at hdb₆
  rw [hdb₆] at houtbox hdb₁₀
  refine ⟨_, outbox, d₁₀, d₅, ⟨rfl, rfl, rfl⟩, houtbox, ?_, ?_, hsave, hcommit.symm⟩
  · rw [← hdb₄]
    simpa using hreviewed
  · rw [← hdb₁₀]

section Calm

variable {R : Store → Store → Prop} [Std.Refl R]

/-- Unless a send was saved, an offer only writes its draft. -/
def Calm (R : Store → Store → Prop) (m : OutgoingTx (Option SendInput)) : Prop :=
  ∀ c r c', m.run c = (r, c') → (∀ input, r ≠ .ok (some input)) → R c.db c'.db

theorem Calm.bind {α : Type} {m : OutgoingTx α} {k : α → OutgoingTx (Option SendInput)}
    (hm : Sql.Reads m) (hk : ∀ a, Calm R (k a)) : Calm R (m >>= k) := by
  intro c r c' hrun hnone
  rw [Sql.bind_run] at hrun
  rcases hfirst : m.run c with ⟨e | a, c₁⟩
  · rw [hfirst] at hrun
    rw [← (Prod.mk.inj hrun).2]
    have hdb := hm c
    rw [hfirst] at hdb
    exact hdb ▸ Std.Refl.refl _
  · rw [hfirst] at hrun
    rw [← hm.ok hfirst]
    exact hk a c₁ r c' hrun hnone

theorem persistSend_fails {sentAt : Int} {key : Bytes} {input : SendInput} {c : Conn Store Bytes}
    {e : OutgoingError} {c' : Conn Store Bytes}
    (h : (persistSend sentAt key input).outgoing.run c = (.error e, c')) : c'.db = c.db := by
  have haborts : Sql.Aborts (persistSend sentAt key input) :=
    .bind .lift fun _ => .bind .query fun _ => .bind .require fun _ => .transaction
  obtain ⟨hresult, hconn⟩ := Prod.mk.inj h
  rcases hrun : (persistSend sentAt key input).run c with ⟨e' | u, c₁⟩
  · rw [hrun] at hconn
    rw [← hconn]
    exact haborts c e' c₁ hrun
  · rw [hrun] at hresult
    cases hresult

theorem saveSend_calm {fresh : Option Bytes} {offer : Offer} {target : Target} {files : List Upload} :
    Calm R (saveSend fresh offer target files) := by
  refine .bind .orThrow fun id => .bind .query fun epoch => ?_
  intro c r c' hrun hnone
  rw [Sql.bind_run] at hrun
  split at hrun
  · rw [← (Prod.mk.inj hrun).1] at hnone
    exact absurd rfl (hnone _)
  · next hfails =>
    rw [← (Prod.mk.inj hrun).2, persistSend_fails hfails]
    exact Std.Refl.refl _

variable (draft : ∀ key value, Sql.Advances R (saveDraft true key value))
include draft

omit [Std.Refl R] in
theorem keepDraft_calm {offer : Offer} : Calm R (keepDraft offer) := by
  intro c r c' hrun _
  rw [keepDraft, Sql.bind_run] at hrun
  have hsaved : R c.db ((saveDraft true offer.key offer.text).outgoing.run c).2.db :=
    draft offer.key offer.text c
  rcases hfirst : (saveDraft true offer.key offer.text).outgoing.run c with ⟨e | a, c₁⟩
  · rw [hfirst] at hrun hsaved
    rw [← (Prod.mk.inj hrun).2]
    exact hsaved
  · rw [hfirst] at hrun hsaved
    rw [← (Prod.mk.inj hrun).2]
    exact hsaved

theorem offered_calm {fresh : Option Bytes} {offer : Offer} : Calm R (offered fresh offer) := by
  refine .bind .query fun files => ?_
  split_ifs
  · exact keepDraft_calm draft
  · refine .bind .query fun unresolved => ?_
    split_ifs
    · exact keepDraft_calm draft
    · refine .bind ?_ fun target => ?_
      · unfold offeredTarget
        split_ifs
        · exact .pure
        · exact .query
      · split_ifs
        · exact keepDraft_calm draft
        · exact saveSend_calm

end Calm

theorem keepDraft_none {offer : Offer} {input : SendInput} {c c' : Conn Store Bytes}
    (h : (keepDraft offer).run c = (.ok (some input), c')) : False := by
  obtain ⟨_, c₁, -, hnone⟩ := Sql.bind_ok h
  cases (Sql.pure_ok hnone).1

theorem offered_saved {fresh : Option Bytes} {offer : Offer} {input : SendInput}
    {c c' : Conn Store Bytes} (h : (offered fresh offer).run c = (.ok (some input), c')) :
    fresh = some input.requestId ∧ ∃ d d', d.db = c.db ∧ d'.db = c'.db ∧
      (persistSend offer.sentAt offer.key input).run d = (.ok (), d') := by
  obtain ⟨files, c₁, hfiles, h⟩ := Sql.bind_ok h
  have hdb₁ := (Sql.query_ok hfiles).2
  split_ifs at h
  · exact (keepDraft_none h).elim
  · obtain ⟨unresolved, c₂, hunresolved, h⟩ := Sql.bind_ok h
    have hdb₂ := (Sql.query_ok hunresolved).2
    split_ifs at h
    · exact (keepDraft_none h).elim
    · obtain ⟨target, c₃, htarget, h⟩ := Sql.bind_ok h
      have hdb₃ : c₃.db = c₂.db := by
        unfold offeredTarget at htarget
        split_ifs at htarget
        · rw [(Sql.pure_ok htarget).2]
        · exact (Sql.query_ok htarget).2
      split_ifs at h
      · exact (keepDraft_none h).elim
      · obtain ⟨id, c₄, hid, h⟩ := Sql.bind_ok h
        obtain ⟨epoch, c₅, hepoch, h⟩ := Sql.bind_ok h
        obtain ⟨_, c₆, hpersist, h⟩ := Sql.bind_ok h
        obtain ⟨hinput, rfl⟩ := Sql.pure_ok h
        obtain ⟨hfresh, rfl⟩ := Sql.orThrow_ok hid
        have hinput := Option.some.inj hinput
        refine ⟨by rw [hfresh, hinput], c₅, c', ?_, rfl, ?_⟩
        · rw [(Sql.query_ok hepoch).2, hdb₃, hdb₂, hdb₁]
        · rw [hinput]
          exact Sql.mapError_ok hpersist

theorem Worker.step_continues {dec : Decoder} (w : Worker) (a : Action) (hclear : a ≠ .clear)
    (helsewhere : ∀ change, a ≠ .elsewhere change) :
    Continues w.store (w.step dec a).store := by
  cases a with
  | sync env epoch cursor => exact beginSync_continues (w.conn env)
  | clear => exact absurd rfl hclear
  | elsewhere change => exact absurd rfl (helsewhere change)
  | _ =>
    exact w.step_related (fun s s' h => .of_outbox (congrArg (·.2.2.2.2.2.1) h))
      (fun _ _ _ _ h => writeStored_continues.run h) _ (fun h => by cases h) (fun _ _ _ h => by cases h)
      (fun _ h => by cases h)

end Writing

end Zimbr.Client
