import Zimbr.Client.Filed
import Zimbr.Client.Records
import Zimbr.Client.SendingRules

set_option autoImplicit false

/-!
# Who owns an original

A file belongs to a draft or to one send. Of the records of the relay only one that
shows the send delivered, with all its parts and with this file among them, takes the
file from its send.
-/
namespace Zimbr.Client
open Library

def payloads (s : Store) (id : Bytes) : Option SendInput := (s.outbox.get? id).map (·.payload)

def held (s : Store) : Table (Kind × Bytes) RecordRow × Table Bytes OutboxRow ×
    Table Bytes OutgoingFile := (s.records, s.outbox, s.outgoingFiles)

/-- A file has one owner. A send that owns it lists it, and is not stored as delivered. -/
structure Custody (s : Store) : Prop where
  filed : Filed s
  exclusive : ∀ id f, s.outgoingFiles.get? id = some f → f.draftKey = none ∨ f.requestId = none
  carried : ∀ id f req, s.outgoingFiles.get? id = some f → f.requestId = some req →
    ∃ input, payloads s req = some input ∧ f.record ∈ input.attachments
  released : ∀ key row v, s.records.get? key = some row → row.record = .request v →
    v.value.state = .delivered → ∀ id f, s.outgoingFiles.get? id = some f →
    f.requestId ≠ some v.value.requestId

structure Delivers (v : SendRequest) (f : OutgoingFile) : Prop where
  request : f.requestId = some v.requestId
  delivered : v.state = .delivered
  parts : ∀ part ∈ v.parts, part.state = .delivered
  listed : f.record ∈ v.attachments

def Store.Threads (s : Store) (id thread : Bytes) : Prop :=
  ∃ row, s.conversation? id = some row ∧ row.chat = thread

/-- What a step goes by: the cache before it, and the records it receives. -/
structure Inbox where
  before : Store
  received : Incoming → Prop

namespace Inbox

/-- A conversation that is cached or received puts the chat in the thread. -/
def Joins (inbox : Inbox) (id thread : Bytes) : Prop :=
  inbox.before.Threads id thread ∨ ∃ v, inbox.received (.conversation v) ∧ v.value.id = id ∧
    (Incoming.conversation v).chat = thread

/-- The keys are of one thread. -/
def Together (inbox : Inbox) : Bytes → Bytes → Prop := Relation.EqvGen inbox.Joins

def Delivers (inbox : Inbox) (f : OutgoingFile) : Prop :=
  ∃ v, inbox.received (.request v) ∧ Client.Delivers v.value f

/-- The step stored no conversation but those it received. -/
def Covers (inbox : Inbox) (s : Store) : Prop :=
  ∀ id thread, s.Threads id thread → inbox.Joins id thread

variable {inbox : Inbox} {s s' : Store}

theorem covers_before : inbox.Covers inbox.before := fun _ _ => Or.inl

theorem Covers.of_conversations (h : inbox.Covers s)
    (hsame : ∀ id row, s'.conversation? id = some row → s.conversation? id = some row) :
    inbox.Covers s' := fun id thread ⟨row, hrow, hchat⟩ => h id thread ⟨row, hsame id row hrow, hchat⟩

theorem Covers.together (h : inbox.Covers s) {key id : Bytes} (hmember : s.isMember key id = true) :
    inbox.Together key id := by
  rw [Store.isMember, Bool.or_eq_true, decide_eq_true_eq, Option.any_eq_true] at hmember
  rcases hmember with rfl | ⟨row, hrow, hchat⟩
  · exact .refl id
  · have hjoins : inbox.Joins id row.chat := h id _ ⟨row, hrow, rfl⟩
    rw [decide_eq_true_eq] at hchat
    cases hkey : s.conversation? key with
    | none =>
      rw [hchat, hkey] at hjoins
      exact (Relation.EqvGen.rel _ _ hjoins).symm
    | some other =>
      rw [hchat, hkey] at hjoins
      exact (Relation.EqvGen.rel _ _ (h key _ ⟨other, hkey, rfl⟩)).trans _ _ _
        ((Relation.EqvGen.rel _ _ hjoins).symm)

end Inbox

structure OutgoingFile.SameOwner (inbox : Inbox) (f' f : OutgoingFile) : Prop where
  record : f'.record = f.record
  bytes : f'.bytes = f.bytes
  request : f'.requestId = f.requestId
  draft : Option.Rel inbox.Together f'.draftKey f.draftKey

namespace OutgoingFile.SameOwner

variable {inbox : Inbox} {f f' f'' : OutgoingFile}

theorem refl (f : OutgoingFile) : f.SameOwner inbox f where
  record := rfl
  bytes := rfl
  request := rfl
  draft := by
    cases f.draftKey with
    | none => exact .none
    | some key => exact .some (.refl key)

theorem trans (h : f''.SameOwner inbox f') (h' : f'.SameOwner inbox f) : f''.SameOwner inbox f where
  record := h.record.trans h'.record
  bytes := h.bytes.trans h'.bytes
  request := h.request.trans h'.request
  draft := by
    obtain ⟨-, -, -, hdraft⟩ := h
    obtain ⟨-, -, -, hdraft'⟩ := h'
    generalize f.draftKey = key at hdraft'
    generalize f'.draftKey = key' at hdraft hdraft'
    generalize f''.draftKey = key'' at hdraft
    cases hdraft with
    | none => exact hdraft'
    | some htogether =>
      cases hdraft' with
      | some htogether' => exact .some (htogether.trans _ _ _ htogether')

theorem draft_isSome (h : f'.SameOwner inbox f) : f'.draftKey.isSome = f.draftKey.isSome := by
  obtain ⟨-, -, -, hdraft⟩ := h
  generalize f.draftKey = key at hdraft
  generalize f'.draftKey = key' at hdraft
  cases hdraft <;> rfl

theorem draft_none (h : f'.SameOwner inbox f) : f'.draftKey = none ↔ f.draftKey = none := by
  rw [← Option.not_isSome_iff_eq_none, h.draft_isSome, Option.not_isSome_iff_eq_none]

theorem owned (h : f'.SameOwner inbox f) : f'.owned = f.owned := by
  rw [OutgoingFile.owned, h.request, h.draft_isSome, OutgoingFile.owned]

end OutgoingFile.SameOwner

/-- What is left of a file: it keeps its content, and without an owner it finds none. -/
structure OutgoingFile.After (f' f : OutgoingFile) : Prop where
  record : f'.record = f.record
  bytes : f'.bytes = f.bytes
  owned : f'.owned = true → f.owned = true

theorem OutgoingFile.SameOwner.after {inbox : Inbox} {f' f : OutgoingFile}
    (h : f'.SameOwner inbox f) : f'.After f :=
  ⟨h.record, h.bytes, fun howned => h.owned ▸ howned⟩

def Inherits (s s' : Store) : Prop :=
  ∀ id f', s'.outgoingFiles.get? id = some f' → ∃ f, s.outgoingFiles.get? id = some f ∧ f'.After f

theorem Inherits.of_files {s s' : Store} (h : s'.outgoingFiles = s.outgoingFiles) : Inherits s s' :=
  fun _ f' hf' => ⟨f', h ▸ hf', rfl, rfl, id⟩

theorem Inherits.trans {s s' s'' : Store} (h : Inherits s s') (h' : Inherits s' s'') :
    Inherits s s'' := by
  intro id f'' hf''
  obtain ⟨f', hf', hafter'⟩ := h' id f'' hf''
  obtain ⟨f, hf, hafter⟩ := h id f' hf'
  exact ⟨f, hf, hafter'.record.trans hafter.record, hafter'.bytes.trans hafter.bytes,
    fun howned => hafter.owned (hafter'.owned howned)⟩

/-- Each owned file stays with its owner unless one of the received records delivers it. -/
structure Retains (inbox : Inbox) (s s' : Store) : Prop where
  owned : ∀ id f, s.outgoingFiles.get? id = some f → f.owned = true →
    (∃ f', s'.outgoingFiles.get? id = some f' ∧ f'.SameOwner inbox f) ∨ inbox.Delivers f
  inherits : Inherits s s'

namespace Retains

variable {inbox : Inbox} {s s' s'' : Store}

theorem of_files (h : s'.outgoingFiles = s.outgoingFiles) : Retains inbox s s' where
  owned := fun id f hf _ => Or.inl ⟨f, by rw [h, hf], .refl f⟩
  inherits := .of_files h

theorem trans (h : Retains inbox s s') (h' : Retains inbox s' s'') : Retains inbox s s'' where
  owned := fun id f hf howned => by
    rcases h.owned id f hf howned with ⟨f', hf', hsame⟩ | hdelivers
    · rcases h'.owned id f' hf' (hsame.owned.trans howned) with ⟨f'', hf'', hsame'⟩ |
        ⟨v, hv, hdelivers⟩
      · exact Or.inl ⟨f'', hf'', hsame'.trans hsame⟩
      · refine Or.inr ⟨v, hv, ?_, hdelivers.delivered, hdelivers.parts, ?_⟩
        · rw [← hsame.request]
          exact hdelivers.request
        · rw [← hsame.record]
          exact hdelivers.listed
    · exact Or.inr hdelivers
  inherits := h.inherits.trans h'.inherits

end Retains

/-- The files are rewritten; each file of a send was one of it before. -/
theorem Custody.refiled {s : Store} (h : Custody s) {files : Table Bytes OutgoingFile}
    (hfiles : ∀ id f', files.get? id = some f' → (f'.draftKey = none ∨ f'.requestId = none) ∧
      ∀ req, f'.requestId = some req → ∃ k f, s.outgoingFiles.get? k = some f ∧
        f.requestId = some req ∧ f'.record = f.record) :
    Custody { s with outgoingFiles := files } := by
  refine ⟨h.filed, fun id f' hf' => (hfiles id f' hf').1, fun id f' req hf' hreq => ?_,
    fun key row v hrow hv hdelivered id f' hf' hreq => ?_⟩
  · obtain ⟨k, f, hf, hrequest, hrecord⟩ := (hfiles id f' hf').2 req hreq
    rw [hrecord]
    exact h.carried k f req hf hrequest
  · obtain ⟨k, f, hf, hrequest, -⟩ := (hfiles id f' hf').2 _ hreq
    exact h.released key row v hrow hv hdelivered k f hf hrequest

/-- What the transactions of the worker do to the files. -/
def Custodial (inbox : Inbox) (s s' : Store) : Prop :=
  Custody s → inbox.Covers s → Custody s' ∧ inbox.Covers s' ∧ Retains inbox s s'

namespace Custodial

variable {inbox : Inbox} {s s' : Store}

instance custodialRefl : Std.Refl (Custodial inbox) where
  refl _ h hcovers := ⟨h, hcovers, .of_files rfl⟩

instance custodialTrans : IsTrans Store (Custodial inbox) where
  trans _ _ _ h h' hcustody hcovers := by
    obtain ⟨hcustody, hcovers, hretains⟩ := h hcustody hcovers
    obtain ⟨hcustody', hcovers', hretains'⟩ := h' hcustody hcovers
    exact ⟨hcustody', hcovers', hretains.trans hretains'⟩

/-- The files, what was sent and the records of requests stay as they are. -/
theorem of_same (hfiled : Filed s → Filed s') (hcovers : inbox.Covers s → inbox.Covers s')
    (hfiles : s'.outgoingFiles = s.outgoingFiles) (hpayloads : payloads s' = payloads s)
    (hrequests : ∀ id row, s'.records.get? (.request, id) = some row →
      s.records.get? (.request, id) = some row) : Custodial inbox s s' := by
  refine fun h hbefore => ⟨⟨hfiled h.filed, ?_, ?_, fun key row v hrow hv => ?_⟩, hcovers hbefore,
    .of_files hfiles⟩
  · rw [hfiles]
    exact h.exclusive
  · rw [hfiles, hpayloads]
    exact h.carried
  · obtain rfl : (Incoming.request v).key = key := hv ▸ (hfiled h.filed key row hrow).1
    rw [hfiles]
    exact h.released _ row v (hrequests _ row hrow) hv

theorem of_held (h : held s' = held s) : Custodial inbox s s' := by
  have hrecords : s'.records = s.records := congrArg (·.1) h
  have houtbox : s'.outbox = s.outbox := congrArg (·.2.1) h
  have hcovers (hcovers : inbox.Covers s) : inbox.Covers s' :=
    hcovers.of_conversations fun id row hrow => by rwa [Store.conversation?, ← hrecords]
  refine of_same (Files.of_records hrecords) hcovers (congrArg (·.2.2) h) ?_ fun id row hrow => ?_
  · unfold payloads
    rw [houtbox]
  · rw [← hrecords]
    exact hrow

theorem payloads_modifyWhere (s : Store) (p : Bytes → OutboxRow → Bool) {f : OutboxRow → OutboxRow}
    (hf : ∀ row, (f row).payload = row.payload) :
    payloads { s with outbox := s.outbox.modifyWhere p f } = payloads s := by
  funext id
  simp only [payloads, Table.get?_modifyWhere, Option.map_map]
  congr 1
  funext row
  simp only [Function.comp_apply]
  split_ifs
  · exact hf row
  · rfl

theorem modifyOutbox (s : Store) (p : Bytes → OutboxRow → Bool) {f : OutboxRow → OutboxRow}
    (hf : ∀ row, (f row).payload = row.payload) :
    Custodial inbox s { s with outbox := s.outbox.modifyWhere p f } :=
  of_same (fun h => h) (fun h => h) rfl (payloads_modifyWhere s p hf) fun _ _ h => h

theorem rekeyFiles (s : Store) {p : Bytes → OutgoingFile → Bool} {key : Bytes}
    (hp : inbox.Covers s → ∀ id f, p id f = true → ∃ k, f.draftKey = some k ∧ inbox.Together key k) :
    Custodial inbox s { s with
      outgoingFiles := s.outgoingFiles.modifyWhere p fun f => { f with draftKey := some key } } := by
  intro h hcovers
  have hget (id : Bytes) (f' : OutgoingFile) (hf' : (s.outgoingFiles.modifyWhere p
      fun f => { f with draftKey := some key }).get? id = some f') :
      ∃ f, s.outgoingFiles.get? id = some f ∧ f'.SameOwner inbox f := by
    rw [Table.get?_modifyWhere] at hf'
    obtain ⟨f, hf, rfl⟩ := Option.map_eq_some_iff.mp hf'
    refine ⟨f, hf, ?_⟩
    split_ifs with hid
    · obtain ⟨k, hk, htogether⟩ := hp hcovers id f hid
      exact ⟨rfl, rfl, rfl, hk ▸ .some htogether⟩
    · exact .refl f
  refine ⟨h.refiled fun id f' hf' => ?_, hcovers, fun id f hf _ => Or.inl ?_, fun id f' hf' => ?_⟩
  · obtain ⟨f, hf, hsame⟩ := hget id f' hf'
    rw [hsame.request, hsame.draft_none]
    exact ⟨h.exclusive id f hf, fun req hreq => ⟨id, f, hf, hreq, hsame.record⟩⟩
  · obtain ⟨f', hf'⟩ : ∃ f', (s.outgoingFiles.modifyWhere p
        fun f => { f with draftKey := some key }).get? id = some f' := by
      rw [Table.get?_modifyWhere, hf]
      exact ⟨_, rfl⟩
    obtain ⟨f₀, hf₀, hsame⟩ := hget id f' hf'
    rw [hf] at hf₀
    exact ⟨f', hf', Option.some.inj hf₀ ▸ hsame⟩
  · obtain ⟨f, hf, hsame⟩ := hget id f' hf'
    exact ⟨f, hf, hsame.after⟩

end Custodial

section Writing

variable {inbox : Inbox}

/-- The stored record of a request released its files when it was stored. -/
theorem followStored_custodial {s : Store} {key : Kind × Bytes} {old : RecordRow} {c c' : Conn Store Bytes}
    {u : Unit} (hdb : c.db = s) (hold : s.records.get? key = some old)
    (h : (followRequest old.record).run c = (.ok u, c')) : Custodial inbox s c'.db := by
  rw [← hdb] at hold ⊢
  intro hcustody hcovers
  cases hrecord : old.record with
  | request v =>
    rw [hrecord] at h
    obtain ⟨_, c₁, hfollow, h⟩ := Sql.bind_ok h
    have hfollowed : Custodial inbox c.db c₁.db := by
      rw [Sql.execute_ok hfollow]
      exact .modifyOutbox c.db _ fun _ => rfl
    split_ifs at h with hdelivered
    · have hfiles : c₁.db.outgoingFiles = c.db.outgoingFiles := by rw [Sql.execute_ok hfollow]
      have hnone : c₁.db.outgoingFiles.modifyWhere (fun _ f => f.requestId = some v.value.requestId)
          (fun f => { f with requestId := none }) = c₁.db.outgoingFiles := by
        refine Table.modifyWhere_eq_self fun id f hf => decide_eq_false ?_
        rw [hfiles] at hf
        exact hcustody.released key old v hold hrecord hdelivered id f hf
      rw [Sql.execute_ok h, hnone]
      exact hfollowed hcustody hcovers
    · rw [(Sql.pure_ok h).2]
      exact hfollowed hcustody hcovers
  | _ =>
    rw [hrecord] at h
    rw [(Sql.pure_ok h).2]
    exact ⟨hcustody, hcovers, .of_files rfl⟩

theorem mergeDrafts_custodial {canonical combined : Bytes} {aliases : List (Bytes × Bytes)} :
    Sql.Advances (Custodial inbox) (mergeDrafts canonical combined aliases) := by
  unfold mergeDrafts
  split_ifs
  · exact .bind (.execute fun _ => .of_held rfl) fun _ => .each fun _ _ =>
      .execute fun _ => .of_held rfl
  · exact .pure

theorem mergeThreadState_custodial {key : Bytes} :
    Sql.Advances (Custodial inbox) (mergeThreadState key) := by
  refine .bind .query fun canonical => .bind .query fun _ => .bind .query fun _ =>
    .bind mergeDrafts_custodial fun _ => .bind (.execute fun s => .modifyOutbox s _ fun _ => rfl)
    fun _ => .execute fun s => .rekeyFiles s fun hcovers id f hf => ?_
  rw [Option.any_eq_true] at hf
  obtain ⟨k, hk, hmember⟩ := hf
  exact ⟨k, hk, hcovers.together hmember⟩

theorem regroupMoved_custodial {record : Incoming} {existing : Option RecordRow} :
    Sql.Advances (Custodial inbox) (regroupMoved record existing) := by
  unfold regroupMoved
  split_ifs
  · exact .bind (.execute fun _ => .of_held rfl) fun _ => mergeThreadState_custodial
  · exact .pure

theorem insertRecord_custodial {record : Incoming} (hreceived : inbox.received record)
    (hkind : record.kind ≠ .request) : Sql.Advances (Custodial inbox) (insertRecord record) := by
  intro c
  have hfiled : Files c.db ((insertRecord record).run c).2.db := insertRecord_files c
  have hrest : Sql.Keeps (fun s => (s.outgoingFiles, payloads s))
      (insertRecord record : Tx Unit) := .execute fun _ => rfl
  have hrequests : ∀ id, ((insertRecord record).run c).2.db.records.get? (.request, id) =
      c.db.records.get? (.request, id) := fun id => by
    refine Sql.Keeps.execute (f := fun s : Store => s.records.get? (.request, id)) (fun s => ?_) c
    rw [Table.get?_upsert, if_neg]
    exact fun hkey => hkind (congrArg Prod.fst hkey).symm
  have hcovers (hcovers : inbox.Covers c.db) : inbox.Covers ((insertRecord record).run c).2.db := by
    rcases hrun : (insertRecord record).run c with ⟨e | u, c'⟩
    · have haborts : Sql.Aborts (insertRecord record) := .execute
      rw [haborts _ _ _ hrun]
      exact hcovers
    · rw [Sql.execute_ok hrun]
      rintro id thread ⟨row, hrow, rfl⟩
      change (c.db.records.upsert record.key _ _).get? (.conversation, id) = some row at hrow
      rw [Table.get?_upsert] at hrow
      split_ifs at hrow with hkey
      · obtain rfl : row = .of record := by
          cases hold : c.db.records.get? record.key <;> rw [hold] at hrow <;>
            exact (Option.some.inj hrow).symm
        obtain ⟨hrecord, hid⟩ := Prod.mk.inj hkey
        cases record with
        | conversation v => exact Or.inr ⟨v, hreceived, hid.symm, rfl⟩
        | message v => cases hrecord
        | request v => cases hrecord
        | identity v => cases hrecord
      · exact hcovers id _ ⟨row, hrow, rfl⟩
  exact .of_same hfiled hcovers (congrArg Prod.fst (hrest c)) (congrArg Prod.snd (hrest c))
    fun id row hrow => by
      rw [← hrequests id]
      exact hrow

/-- What the client checks before it stores a record of a request. -/
structure Admitted (s : Store) (v : SendRequest) : Prop where
  valid : Validation.request v = .ok ()
  permitted : ∀ input, payloads s v.requestId = some input → permits input v = true

theorem Admitted.delivers {s : Store} {v : SendRequest} (h : Admitted s v) (hcustody : Custody s)
    {id : Bytes} {f : OutgoingFile} (hf : s.outgoingFiles.get? id = some f)
    (hrequest : f.requestId = some v.requestId) (hdelivered : v.state = .delivered) :
    Delivers v f := by
  obtain ⟨input, hinput, hlisted⟩ := hcustody.carried id f _ hf hrequest
  have hfiles : input.attachments.length ≠ 0 := fun hnone => by
    rw [List.length_eq_zero_iff.mp hnone] at hlisted
    cases hlisted
  have hpermits := h.permitted input hinput
  simp only [permits, hfiles, decide_false, Bool.false_and, Bool.false_or, Bool.and_eq_true,
    decide_eq_true_eq] at hpermits
  have hattachments : input.attachments = v.attachments := hpermits.2
  have hvalid := h.valid
  rw [Validation.request, if_neg (hattachments ▸ hfiles)] at hvalid
  split at hvalid
  · cases hvalid
  · split_ifs at hvalid with hparts
    refine ⟨hrequest, hdelivered, fun part hpart => ?_, hattachments ▸ hlisted⟩
    simp only [Validation.partsMatch, Bool.and_eq_true, List.all_eq_true] at hparts
    obtain ⟨i, hi⟩ := List.mem_iff_getElem?.mp hpart
    have hpaired := (hparts.2 (part, i) (List.mem_zipIdx_iff_getElem?.mpr hi)).2
    simpa [hdelivered] using hpaired

theorem releaseFiles {s : Store} {v : Decoded SendRequest} (hreceived : inbox.received (.request v))
    (hdelivers : ∀ id f, s.outgoingFiles.get? id = some f → f.requestId = some v.value.requestId →
      Delivers v.value f) :
    Retains inbox s { s with
      outgoingFiles := s.outgoingFiles.modifyWhere (fun _ f => f.requestId = some v.value.requestId)
        fun f => { f with requestId := none } } := by
  refine ⟨fun id f hf howned => ?_, fun id f' hf' => ?_⟩
  · dsimp only
    rw [Table.get?_modifyWhere, hf]
    by_cases hrequest : f.requestId = some v.value.requestId
    · exact Or.inr ⟨v, hreceived, hdelivers id f hf hrequest⟩
    · refine Or.inl ⟨f, ?_, .refl f⟩
      rw [Option.map_some, if_neg (by simpa using hrequest)]
  · dsimp only at hf'
    rw [Table.get?_modifyWhere] at hf'
    obtain ⟨f, hf, rfl⟩ := Option.map_eq_some_iff.mp hf'
    refine ⟨f, hf, ?_⟩
    split_ifs
    · refine ⟨rfl, rfl, fun howned => ?_⟩
      rw [OutgoingFile.owned, Option.isSome_none, Bool.or_false] at howned
      rw [OutgoingFile.owned, howned, Bool.true_or]
    · exact ⟨rfl, rfl, fun howned => howned⟩

/-- An admitted record of a request is stored, and its send follows it. -/
theorem storeRequest_custodial {v : Decoded SendRequest} {c c₁ c' : Conn Store Bytes} {u u' : Unit}
    (hreceived : inbox.received (.request v)) (hadmitted : Admitted c.db v.value)
    (hinsert : (insertRecord (.request v)).run c = (.ok u, c₁))
    (hfollow : (requestState v).run c₁ = (.ok u', c')) : Custodial inbox c.db c'.db := by
  intro hcustody hcovers
  have hfiled : Filed c₁.db := insertRecord_files.run hinsert hcustody.filed
  have hstored := Sql.execute_ok hinsert
  have hcovers₁ : inbox.Covers c₁.db := by
    refine hcovers.of_conversations fun id row hrow => ?_
    rw [hstored] at hrow
    change (c.db.records.upsert _ _ _).get? (.conversation, id) = some row at hrow
    rw [Table.get?_upsert, if_neg (fun h => by cases h)] at hrow
    exact hrow
  have hrow {key : Kind × Bytes} {row : RecordRow} {w : Decoded SendRequest}
      (hrow : c₁.db.records.get? key = some row) (hw : row.record = .request w) :
      w = v ∨ c.db.records.get? key = some row := by
    rw [hstored] at hrow
    dsimp only at hrow
    rw [Table.get?_upsert] at hrow
    split_ifs at hrow
    · left
      cases hold : c.db.records.get? (Incoming.request v).key with
      | none =>
        rw [hold] at hrow
        rw [← Option.some.inj hrow] at hw
        exact (Incoming.request.inj hw).symm
      | some old =>
        rw [hold] at hrow
        rw [← Option.some.inj hrow] at hw
        exact (Incoming.request.inj hw).symm
    · exact Or.inr hrow
  obtain ⟨_, c₂, hmodify, hfollow⟩ := Sql.bind_ok hfollow
  have hmodified := Sql.execute_ok hmodify
  have hfiles : c₂.db.outgoingFiles = c.db.outgoingFiles := by rw [hmodified, hstored]
  have hrecords : c₂.db.records = c₁.db.records := by rw [hmodified]
  have hpayloads : payloads c₂.db = payloads c.db := by
    rw [hmodified, hstored]
    exact Custodial.payloads_modifyWhere c.db _ fun _ => rfl
  split_ifs at hfollow with hdelivered
  · have hreleased := Sql.execute_ok hfollow
    have hretains : Retains inbox c₂.db c'.db := by
      rw [hreleased]
      refine releaseFiles hreceived fun id f hf hrequest => ?_
      rw [hfiles] at hf
      exact hadmitted.delivers hcustody hf hrequest hdelivered
    have hget {id : Bytes} {f' : OutgoingFile} (hf' : c'.db.outgoingFiles.get? id = some f') :
        ∃ f, c.db.outgoingFiles.get? id = some f ∧ f'.record = f.record ∧ f'.draftKey = f.draftKey ∧
          f'.requestId ≠ some v.value.requestId ∧
          (f'.requestId = none ∨ f'.requestId = f.requestId) := by
      rw [hreleased] at hf'
      dsimp only at hf'
      rw [Table.get?_modifyWhere, hfiles] at hf'
      obtain ⟨f, hf, rfl⟩ := Option.map_eq_some_iff.mp hf'
      refine ⟨f, hf, ?_⟩
      split_ifs with hrequest
      · exact ⟨rfl, rfl, fun h => (by cases h), Or.inl rfl⟩
      · exact ⟨rfl, rfl, by simpa using hrequest, Or.inr rfl⟩
    refine ⟨⟨?_, fun id f' hf' => ?_, fun id f' req hf' hreq => ?_,
      fun key row w hkey hw hdone id f' hf' => ?_⟩, ?_, (Retains.of_files hfiles).trans hretains⟩
    · rw [hreleased]
      exact fun key row hkey => hfiled key row (hrecords ▸ hkey)
    · obtain ⟨f, hf, -, hdraft, -, hrequest⟩ := hget hf'
      rcases hrequest with hnone | hrequest
      · exact Or.inr hnone
      · rw [hdraft, hrequest]
        exact hcustody.exclusive id f hf
    · obtain ⟨f, hf, hrecord, -, -, hrequest⟩ := hget hf'
      rw [hreleased]
      change ∃ input, payloads c₂.db req = some input ∧ _
      rw [hpayloads, hrecord]
      refine hcustody.carried id f req hf ?_
      rcases hrequest with hnone | hrequest
      · rw [hnone] at hreq
        cases hreq
      · rw [← hrequest, hreq]
    · obtain ⟨f, hf, -, -, hother, hrequest⟩ := hget hf'
      have hkey : c₁.db.records.get? key = some row := by
        rw [hreleased] at hkey
        exact hrecords ▸ hkey
      rcases hrow hkey hw with rfl | hkey
      · exact hother
      · rcases hrequest with hnone | hrequest
        · rw [hnone]
          exact fun h => (by cases h)
        · rw [hrequest]
          exact hcustody.released key row w hkey hw hdone id f hf
    · refine hcovers₁.of_conversations fun id row hrow => ?_
      rw [hreleased] at hrow
      rw [Store.conversation?, ← hrecords]
      exact hrow
  · rw [(Sql.pure_ok hfollow).2]
    refine ⟨⟨fun key row hkey => hfiled key row (hrecords ▸ hkey), ?_, ?_,
      fun key row w hkey hw hdone => ?_⟩, ?_, .of_files hfiles⟩
    · rw [hfiles]
      exact hcustody.exclusive
    · rw [hfiles, hpayloads]
      exact hcustody.carried
    · rw [hfiles]
      rcases hrow (hrecords ▸ hkey) hw with rfl | hkey
      · exact absurd hdone hdelivered
      · exact hcustody.released key row w hkey hw hdone
    · refine hcovers₁.of_conversations fun id row hrow => ?_
      rw [Store.conversation?, ← hrecords]
      exact hrow

theorem writeStored_custodial {record : Incoming} {stored : Bool} {c c' : Conn Store Bytes}
    (hreceived : inbox.received record)
    (hadmitted : ∀ v, record = .request v → Admitted c.db v.value)
    (h : (writeStored record).run c = (.ok stored, c')) : Custodial inbox c.db c'.db := by
  obtain ⟨existing, c₁, hexisting, h⟩ := Sql.bind_ok h
  obtain ⟨rfl, hdb₁⟩ := Sql.query_ok hexisting
  split at h
  · next old hold =>
    obtain ⟨_, c₂, hfollow, h⟩ := Sql.bind_ok h
    rw [(Sql.pure_ok h).2]
    exact followStored_custodial hdb₁ (Option.filter_eq_some_iff.mp hold).1 hfollow
  · obtain ⟨_, c₂, hinsert, h⟩ := Sql.bind_ok h
    obtain ⟨_, c₃, hforget, h⟩ := Sql.bind_ok h
    obtain ⟨_, c₄, hfollow, h⟩ := Sql.bind_ok h
    obtain ⟨_, c₅, hregroup, h⟩ := Sql.bind_ok h
    have hregrouped : Custodial inbox c₄.db c'.db := by
      rw [(Sql.pure_ok h).2]
      exact regroupMoved_custodial.run hregroup
    rw [← hdb₁] at hadmitted ⊢
    refine IsTrans.trans _ _ _ ?_ hregrouped
    cases hkind : record with
    | request v =>
      rw [hkind] at hinsert hforget hfollow hreceived
      obtain rfl := (Sql.pure_ok hforget).2
      exact storeRequest_custodial hreceived (hadmitted v hkind) hinsert hfollow
    | _ =>
      have hother : record.kind ≠ .request := by
        rw [hkind]
        exact fun h => (by cases h)
      have hforgot : Custodial inbox c₂.db c₃.db :=
        .of_held ((forgetEnrichment_keeps fun _ _ _ => rfl).run hforget)
      rw [hkind] at hfollow
      rw [(Sql.pure_ok hfollow).2]
      exact IsTrans.trans _ _ _ ((insertRecord_custodial hreceived hother).run hinsert) hforgot

theorem checkRecord_admitted {v : Decoded SendRequest} {c c' : Conn Store Bytes}
    (h : (checkRecord (.request v)).run c = (.ok true, c')) : Admitted c.db v.value := by
  obtain ⟨_, c₁, hvalid, h⟩ := Sql.bind_ok h
  obtain ⟨hvalid, hc₁⟩ := Sql.lift_ok hvalid
  obtain ⟨epoch, c₂, hepoch, h⟩ := Sql.bind_ok h
  have hdb₂ : c₂.db = c.db := by rw [(Sql.query_ok hepoch).2, hc₁]
  refine ⟨hvalid, fun input hinput => ?_⟩
  split_ifs at h
  · cases (Sql.pure_ok h).1
  · obtain ⟨_, c₃, hchecked, h⟩ := Sql.bind_ok h
    obtain ⟨row, c₄, hrow, hchecked⟩ := Sql.bind_ok hchecked
    obtain ⟨rfl, -⟩ := Sql.query_ok hrow
    rw [hdb₂] at hchecked
    obtain ⟨row, hrow, rfl⟩ := Option.map_eq_some_iff.mp hinput
    rw [hrow] at hchecked
    dsimp only at hchecked
    split_ifs at hchecked with htexts
    · unfold permits
      rw [htexts, Bool.true_or]
    · unfold permits
      rw [(Sql.require_ok hchecked).1, Bool.or_true]

/-- A record that is written takes a file from its send only if it was received. -/
theorem writeRecord_custodial {autocommit : Bool} {record : Incoming}
    (hreceived : inbox.received record) :
    Sql.Yields (Custodial inbox) (writeRecord autocommit record) := by
  by_cases hkind : record.kind = .identity
  · cases record with
    | identity v =>
      refine .bind (.of_reads .require) fun _ => .bind (.of_reads .require) fun _ =>
        .of_keeps (f := held) (.statement fun s changed s' h => ?_) fun s s' => .of_held
      rw [upsertIdentity_only h]
      rfl
    | _ => cases hkind
  · rw [writeRecord_eq hkind]
    intro c stored c' h
    obtain ⟨current, c₁, hcheck, h⟩ := Sql.bind_ok h
    have hdb₁ := checkRecord_reads.ok hcheck
    split_ifs at h with hcurrent
    · rw [(Sql.pure_ok h).2, hdb₁]
      exact Std.Refl.refl _
    all_goals
      rw [Bool.not_eq_true, Bool.not_eq_false'] at hcurrent
      obtain ⟨_, c₂, hrevision, h⟩ := Sql.bind_ok h
      obtain ⟨_, c₃, hnamed, h⟩ := Sql.bind_ok h
      have hdb₃ : c₃.db = c.db := by
        rw [(Sql.require_ok hnamed).2, (Sql.require_ok hrevision).2, hdb₁]
      have hadmitted (v : Decoded SendRequest) (hv : record = .request v) : Admitted c.db v.value := by
        rw [hv, hcurrent] at hcheck
        exact checkRecord_admitted hcheck
      rw [← hdb₃] at hadmitted ⊢
    · obtain ⟨c₄, c₅, hbegin, -, hbody, hcommit⟩ := Sql.transaction_ok h
      rw [← hbegin] at hadmitted ⊢
      rw [hcommit]
      exact writeStored_custodial hreceived hadmitted hbody
    · exact writeStored_custodial hreceived hadmitted h

theorem writeRequest_custodial {v : Decoded SendRequest} (hreceived : inbox.received (.request v)) :
    Sql.Advances (Custodial inbox) (writeRecord true (.request v)) := by
  refine .of_yields ?_ (writeRecord_custodial hreceived)
  have hkind : (Incoming.request v).kind ≠ .identity := fun h => (by cases h)
  rw [writeRecord_eq hkind]
  refine .bind checkRecord_reads fun current => ?_
  split_ifs
  · exact Sql.Reads.aborts .pure
  · exact .bind .require fun _ => .bind .require fun _ => .transaction
  · next h => exact absurd rfl h

theorem saveDraft_custodial {autocommit : Bool} {key value : Bytes} :
    Sql.Advances (Custodial inbox) (saveDraft autocommit key value) := by
  have hupsert (key : Bytes) : Sql.Advances (Custodial inbox) (upsertDraft key value) :=
    .execute fun _ => .of_held rfl
  have hstore : Sql.Advances (Custodial inbox) (storeDraft key value) := by
    refine .bind .query fun canonical => ?_
    split_ifs
    · exact .bind (hupsert key) fun _ => mergeThreadState_custodial
    · exact hupsert canonical
  refine .bind .require fun _ => ?_
  split_ifs
  · exact .transaction hstore
  · exact hstore

theorem outcome_custodial {id : Bytes} {state : OutboxState} {detail : String} :
    Sql.Advances (Custodial inbox) (outcome id state detail) :=
  .execute fun s => .modifyOutbox s _ fun _ => rfl

theorem expireUnknown_custodial {now : Int} :
    Sql.Advances (Custodial inbox) (expireUnknown now) := by
  refine .statement fun s removed s' hs h hcovers => ?_
  obtain rfl := (Prod.mk.inj (Option.some.inj hs)).2
  refine ⟨⟨h.filed, h.exclusive, fun id f req hf hrequest => ?_, h.released⟩, hcovers, .of_files rfl⟩
  obtain ⟨input, hinput, hlisted⟩ := h.carried id f req hf hrequest
  obtain ⟨row, hrow, rfl⟩ := Option.map_eq_some_iff.mp hinput
  have hfiles : row.payload.attachments.length ≠ 0 := fun hnone => by
    rw [List.length_eq_zero_iff.mp hnone] at hlisted
    cases hlisted
  refine ⟨row.payload, ?_, hlisted⟩
  unfold payloads
  rw [Table.get?_deleteWhere, hrow, Option.filter_some, if_pos]
  · rfl
  · simp [OutboxRow.expired, hfiles]

theorem forgetFile_custodial {id : Bytes} : Sql.Advances (Custodial inbox) (forgetFile id) := by
  refine .execute fun s h hcovers => ?_
  have hget {k : Bytes} {f : OutgoingFile}
      (hf : (s.outgoingFiles.deleteWhere fun k f => k = id && !f.owned).get? k = some f) :
      s.outgoingFiles.get? k = some f := by
    rw [Table.get?_deleteWhere] at hf
    exact (Option.filter_eq_some_iff.mp hf).1
  refine ⟨h.refiled fun k f hf => ?_, hcovers, fun k f hf howned => Or.inl ⟨f, ?_, .refl f⟩,
    fun k f hf => ?_⟩
  · exact ⟨h.exclusive k f (hget hf), fun req hreq => ⟨k, f, hget hf, hreq, rfl⟩⟩
  · dsimp only
    rw [Table.get?_deleteWhere, hf, Option.filter_some, howned, Bool.not_true, Bool.and_false,
      Bool.not_false, if_pos rfl]
  · have hsame : f.SameOwner inbox f := .refl f
    exact ⟨f, hget hf, hsame.after⟩

/-- A new epoch forgets the records; drafts and sends with their files survive. -/
theorem beginSync_custodial {epoch cursor : Bytes} :
    Sql.Advances (Custodial inbox) (beginSync epoch cursor) := by
  refine .bind .require fun _ => .bind .lift fun _ => .transaction (.bind .query fun _ =>
    .bind ?_ fun _ => .bind (.execute fun _ => .of_held rfl) fun _ =>
    .bind (.execute fun s => .modifyOutbox s _ fun _ => rfl) fun _ => ?_)
  · unfold enterEpoch
    split_ifs
    · exact .pure
    · exact .execute fun s => .of_same (fun _ _ _ hrow => by cases hrow)
        (fun _ _ _ ⟨_, hrow, _⟩ => by cases hrow) rfl rfl fun _ _ hrow => by cases hrow
  · exact .bind (.execute fun _ => .of_held rfl) fun _ => .bind (.execute fun _ => .of_held rfl)
      fun _ => .bind (.execute fun _ => .of_held rfl) fun _ => .bind (.execute fun _ =>
      .of_held rfl) fun _ => .bind (.execute fun _ => .of_held rfl) fun _ =>
      .note fun _ => .of_held rfl

theorem Worker.step_custodial {dec : Decoder} (w : Worker) (a : Action) (hclear : a ≠ .clear)
    (helsewhere : ∀ change, a ≠ .elsewhere change)
    (hreceived : ∀ record, w.Receives dec record a → inbox.received record) :
    Custodial inbox w.store (w.step dec a).store := by
  cases a with
  | sync env epoch cursor => exact beginSync_custodial (w.conn env)
  | clear => exact absurd rfl hclear
  | elsewhere change => exact absurd rfl (helsewhere change)
  | _ =>
    refine w.step_written (P := inbox.received) (fun s s' h => .of_held ?_)
      (fun record hrecord => writeRecord_custodial hrecord) _
      (fun v hv => writeRequest_custodial hv) (fun h => by cases h)
      (fun _ _ _ h => by cases h) (fun _ h => by cases h) hreceived
    exact congrArg (fun c => (c.2.1, c.2.2.2.2.2.1, c.2.2.2.2.2.2)) h

end Writing

section Commands

variable {s s' : Store} {c c' : Conn Store Bytes} {key : Bytes}

/-- The file of the draft of `key` is now a file of its send. -/
structure OutgoingFile.SentFrom (s : Store) (key req : Bytes) (f' f : OutgoingFile) : Prop where
  record : f'.record = f.record
  bytes : f'.bytes = f.bytes
  draft : f.draftKey = some (s.threadKey key)
  none_left : f'.draftKey = none
  request : f'.requestId = some req

theorem persistSend_custody {inbox : Inbox} {sentAt : Int} {input : SendInput} (h : Custody c.db)
    (hcovers : inbox.Covers c.db) (hnothing : ∀ record, ¬ inbox.received record)
    (hfresh : c.db.records.contains (.request, input.requestId) = false)
    (hrun : (persistSend sentAt key input).run c = (.ok (), c')) :
    Custody c'.db ∧ Inherits c.db c'.db ∧
      ∀ id f, c.db.outgoingFiles.get? id = some f → f.owned = true →
        ∃ f', c'.db.outgoingFiles.get? id = some f' ∧
          (f'.SameOwner inbox f ∨ f'.SentFrom c.db key input.requestId f) := by
  obtain ⟨row, outbox, c₁, c₂, hnew, hinsert, hlisted, hdb₁, hsave, hdb₂⟩ := persistSend_stored hrun
  have hget {id : Bytes} {f₁ : OutgoingFile} (hf₁ : c₁.db.outgoingFiles.get? id = some f₁) :
      ∃ f, c.db.outgoingFiles.get? id = some f ∧
        (f₁ = f ∨ f₁.SentFrom c.db key input.requestId f ∧ f.record ∈ input.attachments) := by
    rw [hdb₁] at hf₁
    dsimp only at hf₁
    rw [Table.get?_modifyWhere] at hf₁
    obtain ⟨f, hf, rfl⟩ := Option.map_eq_some_iff.mp hf₁
    refine ⟨f, hf, ?_⟩
    split_ifs with hdraft
    · refine Or.inr ⟨⟨rfl, rfl, of_decide_eq_true hdraft, rfl, rfl⟩, ?_⟩
      rw [← hlisted, Store.draftFiles]
      exact List.mem_map.mpr ⟨(id, f), Table.get?_select.mpr ⟨hf, hdraft⟩, rfl⟩
    · exact Or.inl rfl
  have hfree : c.db.outbox.get? input.requestId = none := Table.get?_of_insert hinsert
  have hcustody : Custody c₁.db := by
    refine ⟨by rw [hdb₁]; exact h.filed, fun id f₁ hf₁ => ?_, fun id f₁ req hf₁ hreq => ?_,
      fun k r v hk hv hdelivered id f₁ hf₁ => ?_⟩
    · obtain ⟨f, hf, rfl | ⟨hsent, -⟩⟩ := hget hf₁
      · exact h.exclusive id f₁ hf
      · exact Or.inl hsent.none_left
    · unfold payloads
      rw [hdb₁]
      dsimp only
      rw [Table.get?_insert hinsert]
      obtain ⟨f, hf, rfl | ⟨hsent, hmem⟩⟩ := hget hf₁
      · obtain ⟨saved, hsaved, hmem⟩ := h.carried id f₁ req hf hreq
        refine ⟨saved, ?_, hmem⟩
        rw [if_neg]
        · exact hsaved
        · rintro rfl
          rw [payloads, hfree] at hsaved
          cases hsaved
      · rw [hsent.request, Option.some.injEq] at hreq
        rw [if_pos hreq.symm, Option.map_some, hnew.payload, hsent.record]
        exact ⟨input, rfl, hmem⟩
    · rw [hdb₁] at hk
      obtain ⟨f, hf, rfl | ⟨hsent, -⟩⟩ := hget hf₁
      · exact h.released k r v hk hv hdelivered id f₁ hf
      · rw [hsent.request]
        intro hsame
        have hkey : (Incoming.request v).key = k := hv ▸ (h.filed k r hk).1
        rw [← hkey, Incoming.key, Incoming.kind, Incoming.id, ← Option.some.inj hsame] at hk
        rw [Table.contains, hk] at hfresh
        cases hfresh
  have hcovers₁ : inbox.Covers c₁.db := hcovers.of_conversations fun id row hrow => by
    rwa [hdb₁] at hrow
  have hsaved : Custodial inbox c₁.db c'.db := hdb₂ ▸ saveDraft_custodial.run hsave
  obtain ⟨hcustody', -, hretains⟩ := hsaved hcustody hcovers₁
  refine ⟨hcustody', Inherits.trans ?_ hretains.inherits, fun id f hf howned => ?_⟩
  · intro id f₁ hf₁
    obtain ⟨f, hf, rfl | ⟨hsent, -⟩⟩ := hget hf₁
    · exact ⟨f₁, hf, rfl, rfl, fun howned => howned⟩
    · refine ⟨f, hf, hsent.record, hsent.bytes, fun _ => ?_⟩
      rw [OutgoingFile.owned, hsent.draft, Option.isSome_some, Bool.true_or]
  · obtain ⟨f₁, hf₁⟩ : ∃ f₁, c₁.db.outgoingFiles.get? id = some f₁ := by
      rw [hdb₁]
      dsimp only
      rw [Table.get?_modifyWhere, hf]
      exact ⟨_, rfl⟩
    have hkept (howned₁ : f₁.owned = true) :
        ∃ f', c'.db.outgoingFiles.get? id = some f' ∧ f'.SameOwner inbox f₁ := by
      rcases hretains.owned id f₁ hf₁ howned₁ with hkept | ⟨v, hv, -⟩
      · exact hkept
      · exact absurd hv (hnothing _)
    obtain ⟨f₀, hf₀, hcase⟩ := hget hf₁
    rw [hf] at hf₀
    obtain rfl := Option.some.inj hf₀
    rcases hcase with rfl | ⟨hsent, -⟩
    · obtain ⟨f', hf', hsame⟩ := hkept howned
      exact ⟨f', hf', Or.inl hsame⟩
    · obtain ⟨f', hf', hsame⟩ := hkept (by
        rw [OutgoingFile.owned, hsent.request, Option.isSome_some, Bool.or_true])
      refine ⟨f', hf', Or.inr ⟨hsame.record.trans hsent.record, hsame.bytes.trans hsent.bytes,
        hsent.draft, hsame.draft_none.mpr hsent.none_left, hsame.request.trans hsent.request⟩⟩

theorem removeDraft_custody {id : Bytes} (h : Custody c.db)
    (hrun : (removeDraft key id).run c = (.ok (), c')) :
    Custody c'.db ∧ Inherits c.db c'.db ∧
      ∀ k f, c.db.outgoingFiles.get? k = some f →
        (k = id ∧ f.draftKey = some (c.db.threadKey key)) ∨ c'.db.outgoingFiles.get? k = some f := by
  obtain ⟨canonical, c₁, hcanonical, hrun⟩ := Sql.bind_ok hrun
  obtain ⟨rfl, hdb₁⟩ := Sql.query_ok hcanonical
  have hdb := Sql.execute_ok hrun
  rw [hdb₁] at hdb
  rw [hdb]
  have hget {k : Bytes} {f' : OutgoingFile} (hf' : (c.db.outgoingFiles.modifyWhere
      (fun k f => k = id && f.draftKey = some (c.db.threadKey key) && f.requestId.isNone)
      fun f => { f with draftKey := none }).get? k = some f') :
      ∃ f, c.db.outgoingFiles.get? k = some f ∧ f'.record = f.record ∧ f'.bytes = f.bytes ∧
        f'.requestId = f.requestId ∧ (f'.draftKey = none ∨ f'.draftKey = f.draftKey) := by
    rw [Table.get?_modifyWhere] at hf'
    obtain ⟨f, hf, rfl⟩ := Option.map_eq_some_iff.mp hf'
    refine ⟨f, hf, ?_⟩
    split_ifs
    · exact ⟨rfl, rfl, rfl, Or.inl rfl⟩
    · exact ⟨rfl, rfl, rfl, Or.inr rfl⟩
  refine ⟨h.refiled fun k f' hf' => ?_, fun k f' hf' => ?_, fun k f hf => ?_⟩
  · obtain ⟨f, hf, hrecord, -, hrequest, hdraft⟩ := hget hf'
    refine ⟨?_, fun req hreq => ⟨k, f, hf, hrequest ▸ hreq, hrecord⟩⟩
    rcases hdraft with hnone | hdraft
    · exact Or.inl hnone
    · rw [hdraft, hrequest]
      exact h.exclusive k f hf
  · obtain ⟨f, hf, hrecord, hbytes, hrequest, hdraft⟩ := hget hf'
    refine ⟨f, hf, hrecord, hbytes, fun howned => ?_⟩
    rw [OutgoingFile.owned, Bool.or_eq_true] at howned ⊢
    rcases hdraft with hnone | hdraft
    · rw [hnone, hrequest] at howned
      exact Or.inr (howned.resolve_left (by decide))
    · rw [hdraft, hrequest] at howned
      exact howned
  · dsimp only
    rw [Table.get?_modifyWhere, hf, Option.map_some]
    split_ifs with hremoved
    · simp only [Bool.and_eq_true, decide_eq_true_eq] at hremoved
      exact Or.inl hremoved.1
    · exact Or.inr rfl

theorem checkAdd_ok {file : Upload} (h : (checkAdd key file).run c = (.ok (), c')) :
    ∃ bytes, Attachments.validate file = .ok bytes ∧ c'.db = c.db ∧
      c.db.outgoingFiles.rows.length < maxStoredFiles ∧
      c.db.outgoingFiles.total (·.bytes) + bytes ≤ maxStoredBytes := by
  obtain ⟨bytes, c₁, hbytes, h⟩ := Sql.bind_ok h
  obtain ⟨canonical, c₂, hcanonical, h⟩ := Sql.bind_ok h
  obtain ⟨use, c₃, huse, h⟩ := Sql.bind_ok h
  obtain ⟨_, c₄, hstored, h⟩ := Sql.bind_ok h
  obtain ⟨_, c₅, hcount, hsize⟩ := Sql.bind_ok h
  obtain ⟨hbytes, hc₁⟩ := Sql.lift_mapError_ok hbytes
  have hdb₂ : c₂.db = c.db := by rw [(Sql.query_ok hcanonical).2, hc₁]
  obtain ⟨huse, hdb₃⟩ := Sql.query_ok huse
  obtain ⟨hfits, hc₄⟩ := Sql.require_ok hstored
  rw [huse, hdb₂] at hfits
  simp only [Bool.not_eq_true', Bool.or_eq_false_iff, decide_eq_false_iff_not, not_le, not_lt] at hfits
  refine ⟨bytes, hbytes, ?_, hfits.1, hfits.2⟩
  rw [(Sql.require_ok hsize).2, (Sql.require_ok hcount).2, hc₄, hdb₃, hdb₂]

theorem addDraft_custody {file : Upload} (h : Custody c.db)
    (hrun : (addDraft key file).run c = (.ok (), c')) :
    Custody c'.db ∧ ∃ bytes files, Attachments.validate file = .ok bytes ∧
      c.db.outgoingFiles.insert file.id {
        draftKey := some (c.db.threadKey key)
        requestId := none
        record := file
        bytes := bytes } = some files ∧ c'.db = { c.db with outgoingFiles := files } ∧
      c.db.outgoingFiles.rows.length < maxStoredFiles ∧
      c.db.outgoingFiles.total (·.bytes) + bytes ≤ maxStoredBytes := by
  obtain ⟨c₁, c₂, hbegin, -, hbody, hcommit⟩ := Sql.transaction_ok hrun
  obtain ⟨_, c₃, hcheck, hbody⟩ := Sql.bind_ok hbody
  obtain ⟨canonical, c₄, hcanonical, hbody⟩ := Sql.bind_ok hbody
  obtain ⟨bytes, c₅, hbytes, hinsert⟩ := Sql.bind_ok hbody
  obtain ⟨checked, hchecked, hdb₃, hcount, htotal⟩ := checkAdd_ok hcheck
  obtain ⟨rfl, hdb₄⟩ := Sql.query_ok hcanonical
  obtain ⟨hbytes, hc₅⟩ := Sql.lift_mapError_ok hbytes
  have hstored := Sql.execute?_ok hinsert
  obtain ⟨files, hinsert, hdb⟩ := Option.map_eq_some_iff.mp hstored
  rw [hbytes, Except.ok.injEq] at hchecked
  have hdb₅ : c₅.db = c.db := by rw [hc₅, hdb₄, hdb₃, hbegin]
  rw [hdb₅, hdb₃, hbegin] at hinsert
  rw [hdb₅] at hdb
  rw [hbegin, ← hchecked] at htotal
  rw [hbegin] at hcount
  refine ⟨?_, bytes, files, hbytes, hinsert, by rw [hcommit, ← hdb], hcount, htotal⟩
  rw [hcommit, ← hdb]
  refine h.refiled fun id f' hf' => ?_
  rw [Table.get?_insert hinsert] at hf'
  split_ifs at hf'
  · rw [← Option.some.inj hf']
    exact ⟨Or.inr rfl, fun req hreq => by cases hreq⟩
  · exact ⟨h.exclusive id f' hf', fun req hreq => ⟨id, f', hf', hreq, rfl⟩⟩

end Commands

end Zimbr.Client
