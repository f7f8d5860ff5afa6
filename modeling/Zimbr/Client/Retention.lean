import Zimbr.Client.Ownership
import Zimbr.Client.Submissions
import Zimbr.Library.Totals
import Zimbr.Protocol.AttachmentSets
import Mathlib.Order.RelClasses

set_option autoImplicit false

/-!
# Files over a run of the sender

An owned file keeps its owner and its original until its send is delivered, the
user removes it from its draft, or the cache is reset. A reset that fails takes
originals alone.
-/
namespace Zimbr.Client
open Library

section Moving

variable {inbox : Inbox}

theorem upsertRequest_custodial {dec : Decoder} {raw : Bytes}
    (hreceived : ∀ v, dec.request raw = .ok v →
      inbox.received (.request { value := v, raw := raw })) :
    Sql.Advances (Custodial inbox) (upsert dec true .request raw) := by
  refine .bind .lift fun _ => ?_
  rw [Decoder.incoming]
  cases hdecoded : dec.request raw with
  | error e => exact .throw
  | ok v =>
    change Sql.Advances _ (do
      let _ ← writeRecord true (.request { value := v, raw := raw })
      return Incoming.request { value := v, raw := raw })
    exact .bind (writeRequest_custodial (hreceived v hdecoded)) fun _ => .pure

namespace Lane

variable {dec : LaneDecoder} {net : Net} {reply : Reply}

abbrev Custodial (inbox : Inbox) : Polling → Polling → Prop :=
  Order.Preimage Polling.store (Client.Custodial inbox)

theorem cache_custodial {α : Type} {m : Tx α} (hm : Sql.Advances (Client.Custodial inbox) m) :
    Sql.Advances (Custodial inbox) (cache m) :=
  fun c => hm { db := c.db.store, faults := c.faults, fresh := c.fresh }

theorem assign_custodial {f : Lane → Lane} : Sql.Advances (Custodial inbox) (assign f) :=
  .note fun p => Std.Refl.refl p.store

theorem start_custodial {request : Request} :
    Sql.Advances (Custodial inbox) (start net request) :=
  .bind (.note fun p => Std.Refl.refl p.store) fun _ => .require

theorem reserve_custodial : Sql.Advances (Custodial inbox) (reserve net) :=
  .bind assign_custodial fun _ => .bind (.of_reads fun _ => rfl) fun _ =>
    .bind (.of_reads current_reads) fun _ => start_custodial

theorem ready_custodial {file : Upload} : Sql.Advances (Custodial inbox) (ready net file) := by
  refine .bind .lift fun _ => .bind assign_custodial fun _ => .bind (.of_reads fun _ => rfl) fun _ => ?_
  split_ifs
  · exact reserve_custodial
  · exact .bind (cache_custodial outcome_custodial) fun _ => .bind assign_custodial fun _ =>
      start_custodial

theorem poll_custodial (hreceived : ∀ v, dec.request reply.raw = .ok v →
      inbox.received (.request { value := v, raw := reply.raw })) :
    Sql.Advances (Custodial inbox) (poll dec net reply) := by
  refine .bind assign_custodial fun _ => .bind (.of_reads fun _ => rfl) fun phase => ?_
  split_ifs
  · refine .bind (.of_reads fun _ => rfl) fun lane => ?_
    split_ifs
    · exact .bind (cache_custodial outcome_custodial) fun _ => .pure
    · exact .bind reserve_custodial fun _ => .pure
  · exact .bind (.of_reads fun _ => rfl) fun lane => .bind (.of_reads uploadBusy_reads) fun busy =>
      .bind (cache_custodial outcome_custodial) fun _ => .pure
  · exact .bind .lift fun _ => .bind (.of_reads fun _ => rfl) fun lane => .bind .lift fun _ =>
      .bind .require fun _ => .bind (cache_custodial (upsertRequest_custodial hreceived)) fun _ => .pure
  · refine .bind .lift fun _ => .bind (.of_reads fun _ => rfl) fun lane => .bind .lift fun record =>
      .bind (.of_reads current_reads) fun file => .bind .require fun _ => ?_
    cases record.phase with
    | ready => exact .bind ready_custodial fun _ => .pure
    | reserved =>
      exact .bind (.bind (.of_reads fun _ => rfl) fun _ => .bind .require fun _ => .bind .lift fun _ =>
        .bind .require fun _ => .bind assign_custodial fun _ => start_custodial) fun _ => .pure
    | receiving => exact .bind (cache_custodial outcome_custodial) fun _ => .pure
    | pinned => exact .throw

end Lane

end Moving

namespace Sender

def Answers (dec : LaneDecoder) (record : Incoming) (reply : Reply) : Prop :=
  ∃ v, dec.request reply.raw = .ok v ∧ record = .request { value := v, raw := reply.raw }

def Receives (dec : LaneDecoder) (t : Sender) (record : Incoming) : SenderAction → Prop
  | .work a => t.worker.Receives dec.toDecoder record a
  | .complete _ reply => Answers dec record reply
  | .uploadFiles _ _ _ _ (some reply) => Answers dec record reply
  | _ => False

def inbox (dec : LaneDecoder) (t : Sender) (a : SenderAction) : Inbox where
  before := t.store
  received record := t.Receives dec record a

/-- What a step leaves beside the cache: it may end the task of the file worker. -/
structure Beside (t t' : Sender) : Prop where
  disk : t'.disk = t.disk
  issued : t'.issued = t.issued
  lost : t'.lost = t.lost
  task : t'.task = t.task ∨ t'.task = .idle

structure Moves (inbox : Inbox) (t t' : Sender) : Prop where
  store : Custodial inbox t.store t'.store
  beside : t.Beside t'

namespace Moves

variable {inbox : Inbox} {t t' t'' : Sender} {env : Env}

theorem refl (t : Sender) : Moves inbox t t := ⟨Std.Refl.refl _, rfl, rfl, rfl, Or.inl rfl⟩

theorem trans (h : Moves inbox t t') (h' : Moves inbox t' t'') : Moves inbox t t'' := by
  refine ⟨IsTrans.trans _ _ _ h.store h'.store, h'.beside.disk.trans h.beside.disk,
    h'.beside.issued.trans h.beside.issued, h'.beside.lost.trans h.beside.lost, ?_⟩
  rcases h'.beside.task with hsame | hidle
  · exact h.beside.task.imp hsame.trans hsame.trans
  · exact Or.inr hidle

theorem moved {s : Store} (h : Custodial inbox t.store s) : Moves inbox t (t.moved s) :=
  ⟨h, rfl, rfl, rfl, Or.inl rfl⟩

theorem ended (h : Moves inbox t t') : Moves inbox t t'.ended :=
  ⟨h.store, h.beside.disk, h.beside.issued, h.beside.lost, Or.inr rfl⟩

theorem locked {α : Type} {m : Tx α} {k : α → Sender → Sender}
    (hm : Sql.Advances (Custodial inbox) m) (hk : ∀ a t', Moves inbox t' (k a t')) :
    Moves inbox t (t.locked env m k) := by
  unfold Sender.locked
  split
  · next hrun => exact (moved (hm.run hrun)).trans (hk _ _)
  · next hrun => exact (moved (hm.run hrun)).ended

theorem locked_only {α : Type} {m : Tx α} (hm : Sql.Advances (Custodial inbox) m) :
    Moves inbox t (t.locked env m fun _ t => t) := locked hm fun _ => .refl

theorem hand {r : Request} {starts : Bool} : Moves inbox t (t.hand r starts) := by
  have hhanded : Moves inbox t { t with
      started := t.started ++ [{ request := r, saved := t.store.outbox.get? r.id }] } :=
    ⟨Std.Refl.refl t.store, rfl, rfl, rfl, Or.inl rfl⟩
  unfold Sender.hand
  split_ifs
  · exact hhanded
  · exact hhanded.ended

section Steps

variable {dec : LaneDecoder}

theorem work {a : Action} (hclear : a ≠ .clear)
    (hreceived : ∀ record, t.worker.Receives dec.toDecoder record a → inbox.received record) :
    Moves inbox t (t.work dec a) := by
  have hstep (helsewhere : ∀ change, a ≠ .elsewhere change) :
      Custodial inbox t.store (t.worker.step dec.toDecoder a).store :=
    t.worker.step_custodial a hclear helsewhere hreceived
  cases a with
  | restart => exact ⟨hstep fun _ h => (by cases h), rfl, rfl, rfl, Or.inr rfl⟩
  | clear => exact absurd rfl hclear
  | elsewhere change => exact .refl t
  | _ => exact ⟨hstep fun _ h => (by cases h), rfl, rfl, rfl, Or.inl rfl⟩

theorem recover {id : Bytes} {starts : Bool} : Moves inbox t (t.recover id starts) := by
  have hjob : Moves inbox t { t with job := .recover id } :=
    ⟨Std.Refl.refl t.store, rfl, rfl, rfl, Or.inl rfl⟩
  unfold Sender.recover
  split_ifs
  · exact hjob.trans hand
  · exact .refl t

theorem complete {reply : Reply} (hreceived : ∀ v, dec.request reply.raw = .ok v →
      inbox.received (.request { value := v, raw := reply.raw })) :
    Moves inbox t (t.complete dec env reply) := by
  have hrecord : Sql.Advances (Custodial inbox) (do
      Sql.lift ((JsonInput.check reply.raw (8 * 1024 * 1024) (512 * 1024)).mapError .ofCheck)
      let _ ← upsert dec.toDecoder true .request reply.raw : Tx Unit) :=
    .bind .lift fun _ => .bind (upsertRequest_custodial hreceived) fun _ => .pure
  have hnext : Moves inbox t { t with job := .idle } :=
    ⟨Std.Refl.refl t.store, rfl, rfl, rfl, Or.inl rfl⟩
  unfold Sender.complete
  cases t.job with
  | send id =>
    dsimp only
    split_ifs
    · exact hnext.trans (locked_only outcome_custodial)
    · exact hnext.trans (locked_only outcome_custodial)
    · split
      · next hrun => exact hnext.trans (moved (hrecord.run hrun))
      · next hrun =>
        exact (hnext.trans (moved (hrecord.run hrun))).trans (locked_only outcome_custodial)
  | recover id =>
    dsimp only
    split_ifs
    · exact hnext.trans (locked_only outcome_custodial)
    · exact hnext
    · exact hnext.trans (moved (hrecord { db := t.store, faults := env.faults }))
  | _ => exact hnext

theorem pollUpload {net : Net} {lane : Lane} {reply : Reply}
    (hreceived : ∀ v, dec.request reply.raw = .ok v →
      inbox.received (.request { value := v, raw := reply.raw })) :
    Moves inbox t (t.pollUpload dec env net lane reply) := by
  have hpoll := @Lane.poll_custodial inbox dec net reply hreceived
  unfold Sender.pollUpload
  split
  · next finished c hrun => exact ⟨hpoll.run hrun, rfl, rfl, rfl, Or.inl rfl⟩
  · next c hrun =>
    have hpolled : Moves inbox t { t.moved c.db.store with
        upload := none, started := c.db.started } := ⟨hpoll.run hrun, rfl, rfl, rfl, Or.inl rfl⟩
    exact hpolled.trans (locked_only outcome_custodial)

theorem openUpload {net : Net} : Moves inbox t (t.openUpload env net) := by
  refine locked .query fun next t' => ?_
  cases next with
  | none => exact .refl t'
  | some found =>
    dsimp only
    split
    · exact (refl t').ended
    · next lane hlane =>
      have hopened : Moves inbox t' { t' with upload := some lane } :=
        ⟨Std.Refl.refl t'.store, rfl, rfl, rfl, Or.inl rfl⟩
      exact hopened.trans hand

theorem uploadFiles {active ready : Bool} {net : Net} {reply : Option Reply}
    (hreceived : ∀ r ∈ reply, ∀ v, dec.request r.raw = .ok v →
      inbox.received (.request { value := v, raw := r.raw })) :
    Moves inbox t (t.uploadFiles dec env active ready net reply) := by
  have hclosed : Moves inbox t { t with upload := none } :=
    ⟨Std.Refl.refl t.store, rfl, rfl, rfl, Or.inl rfl⟩
  unfold Sender.uploadFiles
  cases t.upload with
  | none =>
    split_ifs
    · exact hclosed
    · exact openUpload
    · exact .refl t
  | some lane =>
    dsimp only
    split_ifs
    · exact hclosed
    · exact hclosed
    · cases reply with
      | none => exact .refl t
      | some reply => exact pollUpload (hreceived reply rfl)

theorem cancelUpload {id : Bytes} : Moves inbox t (t.cancelUpload env id) := by
  have hclosed : Moves inbox t { t with
      upload := t.upload.filter fun lane => lane.input.requestId ≠ id } :=
    ⟨Std.Refl.refl t.store, rfl, rfl, rfl, Or.inl rfl⟩
  unfold Sender.cancelUpload
  split_ifs
  · exact hclosed.trans (locked_only outcome_custodial)
  · exact .refl t

theorem disconnect {detail : String} : Moves inbox t (t.disconnect env detail) := by
  have hclosed : Moves inbox t { t with job := .idle, upload := none } :=
    ⟨Std.Refl.refl t.store, rfl, rfl, rfl, Or.inl rfl⟩
  unfold Sender.disconnect
  cases t.job with
  | send id => exact hclosed.trans (locked_only outcome_custodial)
  | _ => exact hclosed

end Steps

end Moves

/-- The steps of the user and of the file worker; the others move the cache alone. -/
def ofFiles : SenderAction → Bool
  | .work .clear => true
  | .send _ _ _ _ => true
  | .removeAttachment _ _ _ => true
  | .stage _ _ _ _ _ _ _ => true
  | .publish _ _ _ => true
  | .inspect _ _ _ => true
  | .collect _ _ => true
  | .failClear _ => true
  | _ => false

theorem apply_moves {sha256 : Bytes → Vector UInt8 32} {dec : LaneDecoder} (t : Sender)
    (a : SenderAction) (ha : ofFiles a = false) :
    Moves (t.inbox dec a) t (t.apply sha256 dec a) := by
  cases a with
  | work a =>
    refine .work (fun hclear => ?_) fun _ hrecord => hrecord
    rw [hclear] at ha
    cases ha
  | enrich change => exact .moved (.of_held rfl)
  | draft env key text => exact .locked_only saveDraft_custodial
  | request cancellable =>
    change Moves _ t (if t.job = .idle then { t with job := .background cancellable } else t)
    split_ifs
    · exact ⟨Std.Refl.refl t.store, rfl, rfl, rfl, Or.inl rfl⟩
    · exact .refl t
  | cancelRequest =>
    cases hjob : t.job with
    | background cancellable =>
      simp only [Sender.apply, hjob]
      exact ⟨Std.Refl.refl t.store, rfl, rfl, rfl, Or.inl rfl⟩
    | _ =>
      simp only [Sender.apply, hjob]
      exact .refl t
  | recover id starts => exact .recover
  | complete env reply => exact .complete fun v hv => ⟨v, hv, rfl⟩
  | uploadFiles env active ready net reply =>
    refine .uploadFiles fun r hr v hv => ?_
    rw [Option.mem_def.mp hr]
    exact ⟨v, hv, rfl⟩
  | cancelUpload env id => exact .cancelUpload
  | disconnect env detail => exact .disconnect
  | expireUnknown env now => exact .locked_only expireUnknown_custodial
  | resolveDirect env chat =>
    exact .locked_only (.execute fun s => .modifyOutbox s _ fun _ => rfl)
  | send env fresh offer starts => cases ha
  | removeAttachment env key id => cases ha
  | stage env fresh key name content whole removed => cases ha
  | publish env cancelled removed => cases ha
  | inspect env id retired => cases ha
  | collect env removed => cases ha
  | failClear gone => cases ha

theorem unlink_store {t : Sender} {id : Bytes} {removed : Bool} :
    (t.unlink id removed).store = t.store := by
  unfold Sender.unlink
  split_ifs <;> rfl

section Stocked

variable (sha256 : Bytes → Vector UInt8 32)

def Original (t : Sender) (file : Upload) (bytes : Nat) : Prop :=
  ∃ content, t.disk.get? file.id = some content ∧ content.length = bytes ∧
    digest sha256 content = file.sha256

structure Stocked (t : Sender) : Prop where
  custody : Custody t.store
  named : ∀ id f, t.store.outgoingFiles.get? id = some f → f.record.id = id ∧ id ∈ t.issued
  originals : ∀ id f, t.store.outgoingFiles.get? id = some f → f.owned = true →
    id ∈ t.lost ∨ t.Original sha256 f.record f.bytes
  count : t.store.outgoingFiles.rows.length ≤ maxStoredFiles
  total : t.store.outgoingFiles.total (·.bytes) ≤ maxStoredBytes
  staging : ∀ key file, t.task = .staging key file → file.id ∈ t.issued ∧
    t.store.outgoingFiles.get? file.id = none ∧ t.Original sha256 file (spelled file.bytes)
  removing : ∀ id retired, t.task = .removing id retired →
    ∀ f, t.store.outgoingFiles.get? id = some f → f.owned = false

namespace Stocked

variable {sha256} {t t' : Sender} {env : Env}

theorem inherits (h : t.Stocked sha256) (hcustody : Custody t'.store)
    (hinherits : Inherits t.store t'.store) (hdisk : t'.disk = t.disk) (hlost : t'.lost = t.lost)
    (hissued : t.issued ⊆ t'.issued)
    (htask : t'.task = t.task ∨ t'.task = .idle) : t'.Stocked sha256 := by
  have hwithin : Table.Within (·.bytes) t'.store.outgoingFiles t.store.outgoingFiles := by
    intro id f' hf'
    obtain ⟨f, hf, hafter⟩ := hinherits id f' hf'
    exact ⟨f, hf, hafter.bytes⟩
  refine ⟨hcustody, fun id f' hf' => ?_, fun id f' hf' howned => ?_, hwithin.count_le.trans h.count,
    hwithin.total_le.trans h.total, fun key file hstaging => ?_, fun id retired hremoving f' hf' => ?_⟩
  · obtain ⟨f, hf, hafter⟩ := hinherits id f' hf'
    rw [hafter.record]
    exact ⟨(h.named id f hf).1, hissued (h.named id f hf).2⟩
  · obtain ⟨f, hf, hafter⟩ := hinherits id f' hf'
    rw [Original, hdisk, hlost, hafter.record, hafter.bytes]
    exact h.originals id f hf (hafter.owned howned)
  · rcases htask with htask | htask
    · obtain ⟨hmem, hnone, horiginal⟩ := h.staging key file (htask ▸ hstaging)
      refine ⟨hissued hmem, ?_, ?_⟩
      · rw [Option.eq_none_iff_forall_ne_some]
        intro f' hf'
        obtain ⟨f, hf, -⟩ := hinherits _ f' hf'
        rw [hnone] at hf
        cases hf
      · rw [Original, hdisk]
        exact horiginal
    · rw [htask] at hstaging
      cases hstaging
  · rcases htask with htask | htask
    · obtain ⟨f, hf, hafter⟩ := hinherits id f' hf'
      have hunowned := h.removing id retired (htask ▸ hremoving) f hf
      by_contra howned
      rw [Bool.not_eq_false] at howned
      rw [hafter.owned howned] at hunowned
      cases hunowned
    · rw [htask] at hremoving
      cases hremoving

theorem moves {received : Incoming → Prop} (h : t.Stocked sha256)
    (hmoves : Moves { before := t.store, received := received } t t') : t'.Stocked sha256 := by
  obtain ⟨hcustody, -, hretains⟩ := hmoves.store h.custody Inbox.covers_before
  exact h.inherits hcustody hretains.inherits hmoves.beside.disk hmoves.beside.lost
    (fun id hid => hmoves.beside.issued ▸ hid) hmoves.beside.task

theorem unlink (h : t.Stocked sha256) {id : Bytes} {removed : Bool} (htask : t.task = .idle)
    (hunowned : ∀ f, t.store.outgoingFiles.get? id = some f → f.owned = false) :
    (t.unlink id removed).Stocked sha256 := by
  unfold Sender.unlink
  split_ifs
  · refine ⟨h.custody, h.named, fun k f hf howned => ?_, h.count, h.total, fun key file hstaging => ?_,
      fun k retired hremoving => ?_⟩
    · refine (h.originals k f hf howned).imp_right ?_
      rintro ⟨content, hcontent, hsize, hdigest⟩
      refine ⟨content, ?_, hsize, hdigest⟩
      have hother : f.record.id ≠ id := by
        rw [(h.named k f hf).1]
        rintro rfl
        rw [hunowned f hf] at howned
        cases howned
      dsimp only
      rw [Table.get?_deleteWhere, hcontent, Option.filter_some, decide_eq_false hother,
        Bool.not_false, if_pos rfl]
    · dsimp only at hstaging
      rw [htask] at hstaging
      cases hstaging
    · dsimp only at hremoving
      rw [htask] at hremoving
      cases hremoving
  · exact h

theorem of_empty (hstore : t.store = {}) (htask : t.task = .idle) : t.Stocked sha256 := by
  refine ⟨⟨?_, ?_, ?_, ?_⟩, ?_, ?_, ?_, ?_, ?_, ?_⟩
  all_goals first | rw [htask] | rw [hstore]
  · exact fun _ _ hrow => by cases hrow
  · exact fun _ _ hf => by cases hf
  · exact fun _ _ _ hf => by cases hf
  · exact fun _ _ _ hrow => by cases hrow
  · exact fun _ _ hf => by cases hf
  · exact fun _ _ hf => by cases hf
  · exact Nat.zero_le _
  · exact Nat.zero_le _
  · exact fun _ _ hstaging => by cases hstaging
  · exact fun _ _ hremoving => by cases hremoving

theorem idle (h : t.Stocked sha256) : ({ t with task := .idle } : Sender).Stocked sha256 :=
  h.inherits h.custody (.of_files rfl) rfl rfl (fun _ hid => hid) (Or.inr rfl)

theorem issue (h : t.Stocked sha256) (fresh : List Bytes) :
    ({ t with issued := fresh ++ t.issued } : Sender).Stocked sha256 :=
  h.inherits h.custody (.of_files rfl) rfl rfl (List.subset_append_right _ _) (Or.inl rfl)

/-- The originals that a failed reset removed are lost; the cache stays. -/
theorem failClear (h : t.Stocked sha256) (gone : List Bytes) :
    (t.failClear gone).Stocked sha256 := by
  refine ⟨h.custody, h.named, fun k f hf howned => ?_, h.count, h.total,
    fun _ _ hstaging => (by cases hstaging), fun _ _ hremoving => (by cases hremoving)⟩
  have hid : f.record.id = k := (h.named k f hf).1
  by_cases hgone : k ∈ gone
  · exact Or.inl (List.mem_append_left _ hgone)
  · refine (h.originals k f hf howned).imp (List.mem_append_right _) ?_
    rintro ⟨content, hcontent, hcopied⟩
    refine ⟨content, ?_, hcopied⟩
    change (t.disk.deleteWhere fun id _ => gone.contains id).get? f.record.id = some content
    rw [Table.get?_deleteWhere, hcontent, Option.filter_some, hid, if_pos]
    simpa using hgone

theorem stage {fresh : Option Bytes} {key name content : Bytes} {whole removed : Bool}
    (h : t.Stocked sha256) (hfresh : ∀ id, fresh = some id → id ∉ t.issued) :
    (t.stage sha256 env fresh key name content whole removed).Stocked sha256 := by
  have hissued := h.issue fresh.toList
  unfold Sender.stage
  split
  · next id htask =>
    have hnone : t.store.outgoingFiles.get? id = none := by
      rw [Option.eq_none_iff_forall_ne_some]
      exact fun f hf => hfresh id rfl (h.named id f hf).2
    dsimp only
    split
    · exact hissued
    · split
      · exact hissued
      · next disk hinsert =>
        have hcopied : ({ t with
            issued := (some id).toList ++ t.issued, disk := disk } : Sender).Stocked sha256 := by
          refine ⟨hissued.custody, hissued.named, fun k f hf howned => ?_, hissued.count,
            hissued.total, fun key file hstaging => ?_, fun k retired hremoving => ?_⟩
          · refine (h.originals k f hf howned).imp_right ?_
            rintro ⟨old, hold, horiginal⟩
            refine ⟨old, ?_, horiginal⟩
            have hother : f.record.id ≠ id := by
              rintro rfl
              rw [Table.get?_of_insert hinsert] at hold
              cases hold
            dsimp only
            rw [Table.get?_insert hinsert, if_neg hother]
            exact hold
          · dsimp only at hstaging
            rw [htask] at hstaging
            cases hstaging
          · dsimp only at hremoving
            rw [htask] at hremoving
            cases hremoving
        split_ifs
        · refine ⟨hcopied.custody, hcopied.named, hcopied.originals, hcopied.count, hcopied.total,
            fun key' file hstaging => ?_, fun k retired hremoving => by cases hremoving⟩
          obtain ⟨-, rfl⟩ := FileTask.staging.inj hstaging
          refine ⟨List.mem_append_left _ (List.mem_singleton_self id), hnone, content, ?_, ?_, rfl⟩
          · exact (Table.get?_insert hinsert id).trans (if_pos rfl)
          · exact (spelled_decimal content.length).symm
        · refine hcopied.unlink htask fun f hf => ?_
          have hf : t.store.outgoingFiles.get? id = some f := hf
          rw [hnone] at hf
          cases hf
  · exact hissued

theorem publish {cancelled removed : Bool} (h : t.Stocked sha256) :
    (t.publish env cancelled removed).Stocked sha256 := by
  unfold Sender.publish
  split
  · next key file htask =>
    obtain ⟨hissued, hnone, content, hcontent, hsize, hdigest⟩ := h.staging key file htask
    have habsent (f : OutgoingFile) (hf : t.store.outgoingFiles.get? file.id = some f) :
        f.owned = false := by
      rw [hnone] at hf
      cases hf
    split_ifs
    · exact h.idle.unlink rfl habsent
    · split
      · next c hrun =>
        obtain ⟨hcustody, bytes, files, hbytes, hinsert, hdb, hcount, htotal⟩ :=
          addDraft_custody h.custody hrun
        have hbytes : content.length = bytes := by
          rw [hsize, (Attachments.validate_iff.mp hbytes).2]
        have hget {id : Bytes} {f : OutgoingFile} (hf : c.db.outgoingFiles.get? id = some f) :
            (id = file.id ∧ f.record = file ∧ f.bytes = bytes) ∨
              t.store.outgoingFiles.get? id = some f := by
          rw [hdb] at hf
          dsimp only at hf
          rw [Table.get?_insert hinsert] at hf
          split_ifs at hf with hid
          · rw [← Option.some.inj hf]
            exact Or.inl ⟨hid, rfl, rfl⟩
          · exact Or.inr hf
        have hfiles : c.db.outgoingFiles = files := by rw [hdb]
        refine ⟨hcustody, fun id f hf => ?_, fun id f hf howned => ?_, ?_, ?_,
          fun _ _ hstaging => (by cases hstaging), fun _ _ hremoving => (by cases hremoving)⟩
        · rcases hget hf with ⟨rfl, hrecord, -⟩ | hf
          · rw [hrecord]
            exact ⟨rfl, hissued⟩
          · exact h.named id f hf
        · rcases hget hf with ⟨rfl, hrecord, hlength⟩ | hf
          · rw [hrecord, hlength]
            exact Or.inr ⟨content, hcontent, hbytes, hdigest⟩
          · exact h.originals id f hf howned
        · change c.db.outgoingFiles.rows.length ≤ maxStoredFiles
          rw [hfiles, Table.count_insert hinsert]
          exact hcount
        · change c.db.outgoingFiles.total (·.bytes) ≤ maxStoredBytes
          rw [hfiles, Table.total_insert _ hinsert]
          exact htotal
      · next c hrun =>
        have hdb : c.db = t.store := Sql.Aborts.transaction _ _ _ hrun
        have hmoved : (t.moved c.db).Stocked sha256 := hdb ▸ h
        exact hmoved.idle.unlink rfl fun f hf => habsent f (hdb ▸ hf)
  · exact h

theorem inspect {id : Bytes} {retired : Bool} (h : t.Stocked sha256) :
    (t.inspect env id retired).Stocked sha256 := by
  unfold Sender.inspect
  split_ifs
  · split
    · next hrun =>
      have hunowned := (Sql.query_ok hrun).1
      refine ⟨h.custody, h.named, h.originals, h.count, h.total,
        fun _ _ hstaging => (by cases hstaging), fun k r hremoving f hf => ?_⟩
      obtain ⟨rfl, -⟩ := FileTask.removing.inj hremoving
      have hf : t.store.outgoingFiles.get? id = some f := hf
      dsimp only at hunowned
      rw [hf] at hunowned
      exact hunowned.symm
    · exact h
  · exact h

theorem collect {removed : Bool} (h : t.Stocked sha256) : (t.collect env removed).Stocked sha256 := by
  unfold Sender.collect
  split
  · next id retired htask =>
    have hnext : (({ t with task := .idle } : Sender).unlink id removed).Stocked sha256 :=
      h.idle.unlink rfl (h.removing id retired htask)
    dsimp only
    split_ifs
    · refine hnext.moves (show Moves { before := _, received := fun _ => False } _ _ from .moved ?_)
      rw [unlink_store]
      exact forgetFile_custodial { db := t.store, faults := env.faults }
    · exact hnext
  · exact h

end Stocked

/-- What became of a file with an owner in a step. -/
inductive Fate (dec : LaneDecoder) (t t' : Sender) (a : SenderAction) (id : Bytes)
    (f : OutgoingFile) : Prop where
  | kept {f' : OutgoingFile} (hrow : t'.store.outgoingFiles.get? id = some f')
      (hsame : f'.SameOwner (t.inbox dec a) f)
  | sent {env : Env} {req : Bytes} {offer : Offer} {starts : Bool} {f' : OutgoingFile}
      (ha : a = .send env (some req) offer starts) (hrow : t'.store.outgoingFiles.get? id = some f')
      (hsent : f'.SentFrom t.store offer.key req f)
  | removed {env : Env} {key : Bytes} (ha : a = .removeAttachment env key id)
      (hdraft : f.draftKey = some (t.store.threadKey key))
  | delivered (hdelivers : (t.inbox dec a).Delivers f)
  | cleared (ha : a = .work .clear)

section Fates

variable {dec : LaneDecoder} {t t' : Sender} {a : SenderAction} {env : Env} {id : Bytes}
  {f : OutgoingFile}

theorem Fate.of_files (h : t'.store.outgoingFiles = t.store.outgoingFiles)
    (hf : t.store.outgoingFiles.get? id = some f) : Fate dec t t' a id f :=
  .kept (by rw [h, hf]) (.refl f)

theorem Fate.of_custodial (h : Custodial (t.inbox dec a) t.store t'.store)
    (hcustody : Custody t.store) (hf : t.store.outgoingFiles.get? id = some f)
    (howned : f.owned = true) : Fate dec t t' a id f := by
  rcases (h hcustody Inbox.covers_before).2.2.owned id f hf howned with ⟨f', hf', hsame⟩ | hdelivers
  · exact .kept hf' hsame
  · exact .delivered hdelivers

theorem hand_store {r : Request} {starts : Bool} : (t.hand r starts).store = t.store := by
  unfold Sender.hand
  split_ifs <;> rfl

/-- An offer keeps the files where they are, or hands those of its draft to its send. -/
theorem send_stocked {sha256 : Bytes → Vector UInt8 32} {fresh : Option Bytes} {offer : Offer}
    {starts : Bool} (h : t.Stocked sha256)
    (hfresh : ∀ id, fresh = some id → t.store.records.contains (.request, id) = false) :
    (t.send env fresh offer starts).Stocked sha256 ∧ ∀ id f,
      t.store.outgoingFiles.get? id = some f → f.owned = true →
      Fate dec t (t.send env fresh offer starts) (.send env fresh offer starts) id f := by
  have hcalm {r : Except OutgoingError (Option SendInput)} {c : Conn Store Bytes}
      (hrun : (offered fresh offer).run { db := t.store, faults := env.faults } = (r, c))
      (hnone : ∀ input, r ≠ .ok (some input)) :=
    offered_calm (R := Custodial (t.inbox dec (.send env fresh offer starts)))
      (fun _ _ => saveDraft_custodial) _ _ _ hrun hnone
  have hnext : ({ t with job := .idle, issued := fresh.toList ++ t.issued } : Sender).Stocked sha256 :=
    h.inherits h.custody (.of_files rfl) rfl rfl (List.subset_append_right _ _) (Or.inl rfl)
  unfold Sender.send
  split_ifs
  · exact ⟨h, fun id f hf _ => .of_files rfl hf⟩
  · dsimp only
    split
    · next c hrun =>
      have hmoved := hcalm hrun fun input hsome => by cases hsome
      exact ⟨hnext.moves (.moved hmoved), fun id f hf howned => .of_custodial hmoved h.custody hf howned⟩
    · next input c hrun =>
      obtain ⟨hdrawn, d, d', hd, hd', hpersist⟩ := offered_saved hrun
      have hcustody : Custody d.db := hd ▸ h.custody
      have hcovers : (t.inbox dec (.send env fresh offer starts)).Covers d.db := by
        rw [hd]
        exact Inbox.covers_before
      obtain ⟨hcustody', hinherits, hfates⟩ := persistSend_custody hcustody hcovers (fun _ hr => hr)
        (hd ▸ hfresh _ hdrawn) hpersist
      rw [hd'] at hcustody' hinherits hfates
      rw [hd] at hinherits hfates
      dsimp only at hinherits hfates
      have hsaved : (({ t with job := .idle, issued := fresh.toList ++ t.issued } : Sender).moved
          c.db).Stocked sha256 :=
        hnext.inherits hcustody' hinherits rfl rfl (fun _ hid => hid) (Or.inl rfl)
      have hfate {t' : Sender} (hstore : t'.store = c.db) (id : Bytes) (f : OutgoingFile)
          (hf : t.store.outgoingFiles.get? id = some f) (howned : f.owned = true) :
          Fate dec t t' (.send env fresh offer starts) id f := by
        obtain ⟨f', hf', hsame | hsent⟩ := hfates id f hf howned
        · exact .kept (hstore ▸ hf') hsame
        · exact .sent (by rw [hdrawn]) (hstore ▸ hf') hsent
      split_ifs
      · refine ⟨?_, hfate hand_store⟩
        have hjob : ({ ({ t with job := .idle, issued := fresh.toList ++ t.issued } : Sender).moved
            c.db with job := .send input.requestId } : Sender).Stocked sha256 :=
          hsaved.inherits hsaved.custody (.of_files rfl) rfl rfl (fun _ hid => hid) (Or.inl rfl)
        exact hjob.moves (show Moves { before := _, received := fun _ => False } _ _ from .hand)
      · exact ⟨hsaved, hfate rfl⟩
    · next e c hrun =>
      have hmoved := hcalm hrun fun input hsome => by cases hsome
      exact ⟨hnext.moves (Moves.ended (.moved hmoved)),
        fun id f hf howned => .of_custodial hmoved h.custody hf howned⟩

theorem removeAttachment_stocked {sha256 : Bytes → Vector UInt8 32} {key removed : Bytes}
    (h : t.Stocked sha256) :
    (t.locked env (removeDraft key removed) fun _ t => t).Stocked sha256 ∧ ∀ id f,
      t.store.outgoingFiles.get? id = some f →
      Fate dec t (t.locked env (removeDraft key removed) fun _ t => t)
        (.removeAttachment env key removed) id f := by
  unfold Sender.locked
  split
  · next u c hrun =>
    obtain ⟨hcustody, hinherits, hfates⟩ := removeDraft_custody h.custody hrun
    refine ⟨h.inherits hcustody hinherits rfl rfl (fun _ hid => hid) (Or.inl rfl), fun id f hf => ?_⟩
    rcases hfates id f hf with ⟨rfl, hdraft⟩ | hsame
    · exact .removed rfl hdraft
    · exact .kept hsame (.refl f)
  · next e c hrun =>
    have haborts : Sql.Aborts (removeDraft key removed) := .bind .query fun _ => .execute
    have hdb : c.db = t.store := haborts _ _ _ hrun
    have hended : (t.moved c.db).ended.store.outgoingFiles = t.store.outgoingFiles :=
      congrArg Store.outgoingFiles hdb
    refine ⟨h.inherits ?_ (.of_files hended) rfl rfl (fun _ hid => hid) (Or.inr rfl),
      fun id f hf => .of_files hended hf⟩
    exact hdb ▸ h.custody

end Fates

section FileWorker

variable {sha256} {t : Sender} {env : Env} {id : Bytes}

theorem stage_store {fresh : Option Bytes} {key name content : Bytes} {whole removed : Bool} :
    (t.stage sha256 env fresh key name content whole removed).store = t.store := by
  unfold Sender.stage
  split
  · dsimp only
    split
    · rfl
    · split
      · rfl
      · split_ifs
        · rfl
        · exact unlink_store
  · rfl

theorem inspect_store {retired : Bool} : (t.inspect env id retired).store = t.store := by
  unfold Sender.inspect
  split_ifs
  · split <;> rfl
  · rfl

theorem collect_custodial {inbox : Inbox} {removed : Bool} :
    Custodial inbox t.store (t.collect env removed).store := by
  unfold Sender.collect
  split
  · next id retired htask =>
    dsimp only
    split_ifs
    · exact forgetFile_custodial { db := t.store, faults := env.faults }
    · rw [unlink_store]
      exact Std.Refl.refl t.store
  · exact Std.Refl.refl t.store

theorem publish_keeps {cancelled removed : Bool} {f : OutgoingFile} (h : Custody t.store)
    (hf : t.store.outgoingFiles.get? id = some f) :
    (t.publish env cancelled removed).store.outgoingFiles.get? id = some f := by
  unfold Sender.publish
  split
  · next key file htask =>
    split_ifs
    · rw [unlink_store]
      exact hf
    · split
      · next c hrun =>
        obtain ⟨-, bytes, files, -, hinsert, hdb, -⟩ := addDraft_custody h hrun
        have hother : id ≠ file.id := by
          rintro rfl
          rw [Table.get?_of_insert hinsert] at hf
          cases hf
        change c.db.outgoingFiles.get? id = some f
        rw [hdb]
        exact (Table.get?_insert hinsert id).trans ((if_neg hother).trans hf)
      · next c hrun =>
        have hdb : c.db = t.store := Sql.Aborts.transaction _ _ _ hrun
        rw [unlink_store]
        exact hdb ▸ hf
  · exact hf

end FileWorker

variable {sha256} {dec : LaneDecoder} {t : Sender}

/-- One step keeps the originals, and gives each owned file a known fate. -/
theorem Stocked.step (h : t.Stocked sha256) (a : SenderAction) :
    (t.step sha256 dec a).Stocked sha256 ∧ ∀ id f, t.store.outgoingFiles.get? id = some f →
      f.owned = true → Fate dec t (t.step sha256 dec a) a id f := by
  unfold Sender.step
  split_ifs with henabled
  · cases hkind : ofFiles a with
    | false =>
      have hmoves := @apply_moves sha256 dec t a hkind
      exact ⟨h.moves hmoves, fun id f hf howned => .of_custodial hmoves.store h.custody hf howned⟩
    | true =>
      have hfresh (id : Bytes) (hid : drawn a = some id) :
          id ∉ t.issued ∧ t.store.records.contains (.request, id) = false := by
        rw [enabled, hid, Option.all_some, Bool.and_eq_true, Bool.not_eq_true', Bool.not_eq_true']
          at henabled
        exact ⟨fun hmem => by simp [hmem] at henabled, henabled.2⟩
      cases a with
      | work a =>
        cases a with
        | clear =>
          exact ⟨.of_empty rfl rfl, fun id f _ _ => .cleared rfl⟩
        | _ => cases hkind
      | send env fresh offer starts => exact send_stocked h fun id hid => (hfresh id hid).2
      | removeAttachment env key id =>
        obtain ⟨hstocked, hfates⟩ := @removeAttachment_stocked dec t env sha256 key id h
        exact ⟨hstocked, fun k f hf _ => hfates k f hf⟩
      | stage env fresh key name content whole removed =>
        refine ⟨h.stage fun id hid => (hfresh id hid).1, fun id f hf _ => .of_files ?_ hf⟩
        exact congrArg Store.outgoingFiles stage_store
      | publish env cancelled removed =>
        exact ⟨h.publish, fun id f hf howned => .kept (publish_keeps h.custody hf) (.refl f)⟩
      | inspect env id retired =>
        refine ⟨h.inspect, fun id f hf _ => .of_files ?_ hf⟩
        exact congrArg Store.outgoingFiles inspect_store
      | collect env removed =>
        exact ⟨h.collect, fun id f hf howned =>
          .of_custodial collect_custodial h.custody hf howned⟩
      | failClear gone => exact ⟨h.failClear gone, fun id f hf _ => .of_files rfl hf⟩
      | _ => cases hkind
  · exact ⟨h, fun id f hf _ => .of_files rfl hf⟩

theorem run_stocked (actions : List SenderAction) :
    ((sender sha256 dec).run {} actions).Stocked sha256 := by
  exact (sender sha256 dec).run_invariant (fun t a h => (h.step a).1) {} actions (.of_empty rfl rfl)

def Accounted (dec : LaneDecoder) (t t' : Sender) (a : SenderAction) : Prop :=
  ∀ id f, t.store.outgoingFiles.get? id = some f → f.owned = true → Fate dec t t' a id f

/-- What the cache and the disk hold of the files together. -/
structure Retained (sha256 : Bytes → Vector UInt8 32) (t : Sender) : Prop where
  originals : ∀ id f, t.store.outgoingFiles.get? id = some f → f.owned = true →
    f.record.id = id ∧ (id ∈ t.lost ∨ t.Original sha256 f.record f.bytes)
  exclusive : ∀ id f, t.store.outgoingFiles.get? id = some f → f.draftKey = none ∨ f.requestId = none
  carried : ∀ id f req, t.store.outgoingFiles.get? id = some f → f.requestId = some req →
    ∃ row, t.store.outbox.get? req = some row ∧ f.record ∈ row.payload.attachments
  count : t.store.outgoingFiles.rows.length ≤ maxStoredFiles
  total : t.store.outgoingFiles.total (·.bytes) ≤ maxStoredBytes

end Stocked

end Sender

/-- Over any run, with connections lost, restarts and statements of the cache that fail, no
step takes a file from its owner but the ones named by its fate. -/
theorem files_accounted (sha256 : Bytes → Vector UInt8 32) (dec : LaneDecoder)
    (actions : List SenderAction) (a : SenderAction) :
    Sender.Accounted dec ((sender sha256 dec).run {} actions)
      (((sender sha256 dec).run {} actions).step sha256 dec a) a :=
  ((Sender.run_stocked actions).step a).2

/-- In every state the original of each owned file is on disk as it was copied, it has one
owner, a send that owns it lists it, and the files are within the limits of the device. -/
theorem outgoing_files_stocked (sha256 : Bytes → Vector UInt8 32) (dec : LaneDecoder)
    (actions : List SenderAction) : ((sender sha256 dec).run {} actions).Retained sha256 := by
  have h := @Sender.run_stocked sha256 dec actions
  refine ⟨fun id f hf howned => ⟨(h.named id f hf).1, h.originals id f hf howned⟩,
    h.custody.exclusive, fun id f req hf hreq => ?_, h.count, h.total⟩
  obtain ⟨input, hinput, hlisted⟩ := h.custody.carried id f req hf hreq
  obtain ⟨row, hrow, rfl⟩ := Option.map_eq_some_iff.mp hinput
  exact ⟨row, hrow, hlisted⟩

namespace Sample

/-- A file is copied, becomes a draft, and is sent. -/
def attaching : List SenderAction :=
  let epoch := text "AAAAAAAAAAAAAAAAAAAAAA"
  [.work (.sync {} epoch (epoch ++ text ":0")),
    .stage {} (some fileId) peer (text "a.txt") (text "content") true true,
    .publish {} false true, .send {} (some sendId) (offer "hi") true]

/-- The send owns the file, whose original is kept, also by a restart. -/
example :
    let t := (sender (fun _ => Vector.replicate 32 0) noReplies).run {} (attaching ++ [.work .restart])
    t.store.outgoingFiles.rows.map (fun f => (f.1, f.2.draftKey, f.2.requestId)) =
        [(fileId, none, some sendId)] ∧
      t.disk.rows = [(fileId, text "content")] ∧ t.started = [] := by
  decide +kernel

end Sample

end Zimbr.Client
