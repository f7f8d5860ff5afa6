import Zimbr.Client.Store
import Zimbr.Library.Register
import Zimbr.Library.Weakest

set_option autoImplicit false

/-!
# Stored records are registers

`writeRecord` keeps the record of the greatest revision, and the full form of a
message over its text projection. The stored row therefore depends on the
records that arrived, not on their order.
-/
namespace Zimbr.Client
open Library

/-- A greater revision is newer; at one revision, the full form is. -/
def Incoming.rank (r : Incoming) : Nat ×ₗ Bool := toLex (r.revision, !r.metadataDeferred)

inductive Row where
  | record (r : RecordRow)
  | identity (r : IdentityRow)
  deriving DecidableEq, Repr

def Row.of : Incoming → Row
  | .identity v => .identity (.of v)
  | r => .record (.of r)

def Store.row? (s : Store) (key : Kind × Bytes) : Option Row :=
  match key.1 with
  | .identity => (s.identities.get? key.2).map .identity
  | _ => (s.records.get? key).map .record

/-- The payload saved for a request permits the record, unless both are texts. -/
def permits (saved : SendInput) (value : SendRequest) : Bool :=
  (saved.attachments.length = 0 && value.attachments.length = 0) ||
    (saved.serverEpoch = value.serverEpoch && saved.text = value.text &&
      saved.target = value.target && saved.attachments = value.attachments)

/-- What the client checks of a record of its epoch. -/
structure Admissible (s : Store) (r : Incoming) : Prop where
  revision : r.revision ≤ maxInt
  named : r.id ≠ []
  message : ∀ v, r = .message v → Validation.message v.value = .ok ()
  request : ∀ v, r = .request v → Validation.request v.value = .ok () ∧
    v.value.serverEpoch = s.epoch ∧
    ∀ row, s.outbox.get? v.value.requestId = some row → permits row.payload v.value = true
  identity : ∀ v, r = .identity v → v.value.service ≠ [] ∧ v.value.address ≠ [] ∧
    ∀ id row, s.identities.get? id = some row → row.service = v.value.service →
      row.address = v.value.address → id = v.value.id

/-- Valid records of one id in one epoch: a revision has one full form and, for
a message, one text projection; and an identity has one service and address. -/
structure OneRecord (s : Store) (key : Kind × Bytes) (records : List Incoming) : Prop where
  keyed : ∀ r ∈ records, r.key = key
  admissible : ∀ r ∈ records, Admissible s r
  forms : ∀ r ∈ records, ∀ r' ∈ records, r.rank = r'.rank → r = r'
  identity : ∀ v v', .identity v ∈ records → .identity v' ∈ records →
    v.value.service = v'.value.service ∧ v.value.address = v'.value.address

section Rank

theorem Incoming.rank_le {r m : Incoming} : r.rank ≤ m.rank ↔ r.revision < m.revision ∨
    r.revision = m.revision ∧ (r.metadataDeferred = false → m.metadataDeferred = false) := by
  rw [rank, rank, Prod.Lex.toLex_le_toLex]
  cases r.metadataDeferred <;> cases m.metadataDeferred <;> simp

theorem Incoming.deferred_kind {r : Incoming} (h : r.metadataDeferred = true) :
    r.kind = .message := by
  cases r with
  | message v => rfl
  | _ => exact nomatch h

theorem superseded_of {r m : Incoming} (hkind : m.kind = r.kind) :
    superseded r (.of m) = decide (r.rank ≤ m.rank) := by
  have hupgrades : upgrades r (.of m) =
      (!r.metadataDeferred && decide (m.revision = r.revision) && m.metadataDeferred) := by
    unfold upgrades
    by_cases hm : m.metadataDeferred = true
    · have hr : r.kind = .message := hkind ▸ Incoming.deferred_kind hm
      rw [decide_eq_true hr, Bool.true_and]
      rfl
    · simp [RecordRow.of, hm]
  rw [superseded, hupgrades, Bool.eq_iff_iff, decide_eq_true_iff, Incoming.rank_le]
  simp only [RecordRow.of]
  grind

theorem keep_eq {r : Incoming} {stored : Option Incoming}
    (hkind : ∀ m, stored = some m → m.kind = r.kind) :
    Register.keep Incoming.rank stored r =
      if (stored.map RecordRow.of).any (superseded r) then stored else some r := by
  cases stored with
  | none => rfl
  | some m =>
    rw [Register.keep_some, Option.map_some, Option.any_some, superseded_of (hkind m rfl)]
    by_cases h : m.rank < r.rank
    · rw [if_pos h, if_neg (by simpa using h)]
    · rw [if_neg h, if_pos (by simpa using h)]

end Rank

/-- What writing a record never changes outside its own row. -/
structure Framed (s s' : Store) : Prop where
  epoch : s'.epoch = s.epoch
  payloads : ∀ id, (s'.outbox.get? id).map (·.payload) = (s.outbox.get? id).map (·.payload)

namespace Framed

variable {s s' s'' : Store}

theorem refl (s : Store) : Framed s s := ⟨rfl, fun _ => rfl⟩

theorem trans (h : Framed s s') (h' : Framed s' s'') : Framed s s'' :=
  ⟨h'.epoch.trans h.epoch, fun id => (h'.payloads id).trans (h.payloads id)⟩

end Framed

section Writes

variable {s : Store} {fresh : List Bytes}

structure Apart (s s' : Store) : Prop extends Framed s s' where
  records : s'.records = s.records
  identities : s'.identities = s.identities

theorem Apart.refl (s : Store) : Apart s s := ⟨Framed.refl s, rfl, rfl⟩

theorem Apart.trans {s₁ s₂ s₃ : Store} (h : Apart s₁ s₂) (h' : Apart s₂ s₃) : Apart s₁ s₃ :=
  ⟨h.toFramed.trans h'.toFramed, h'.records.trans h.records, h'.identities.trans h.identities⟩

theorem Apart.of_eq {s s' : Store} (hepoch : s'.epoch = s.epoch) (houtbox : s'.outbox = s.outbox)
    (hrecords : s'.records = s.records) (hidentities : s'.identities = s.identities) :
    Apart s s' :=
  ⟨⟨hepoch, fun _ => by rw [houtbox]⟩, hrecords, hidentities⟩

theorem mergeDrafts_apart (canonical combined : Bytes) (aliases : List (Bytes × Bytes)) :
    Sql.wp (mergeDrafts canonical combined aliases) (fun _ s' _ => Apart s s') s fresh := by
  unfold mergeDrafts
  split_ifs
  · rw [Sql.wp_bind, Sql.wp_execute]
    apply Sql.wp_each (I := fun s' _ => Apart s s')
    · intro a _ s₁ fresh₁ h
      rw [Sql.wp_execute]
      exact h.trans (.of_eq rfl rfl rfl rfl)
    · exact .of_eq rfl rfl rfl rfl
  · exact Sql.wp_pure.mpr (Apart.refl s)

theorem mergeThreadState_apart (key : Bytes) :
    Sql.wp (mergeThreadState key) (fun _ s' _ => Apart s s') s fresh := by
  unfold mergeThreadState
  simp only [Sql.wp_bind, Sql.wp_query]
  refine Sql.wp_mono (mergeDrafts_apart _ _ _) fun _ s₁ fresh₁ h => ?_
  simp only [Sql.wp_bind, Sql.wp_execute]
  refine h.trans ⟨⟨rfl, fun id => ?_⟩, rfl, rfl⟩
  simp only [Table.get?_modifyWhere, Option.map_map]
  congr 1
  funext r
  rw [Function.comp_apply]
  split_ifs <;> rfl

theorem regroup_apart (id : Bytes) :
    Sql.wp (regroup id) (fun _ s' _ => Apart s s') s fresh := by
  unfold regroup
  rw [Sql.wp_bind, Sql.wp_execute]
  have hpages : Apart s { s with pages := s.pages.deleteWhere fun chat _ => s.isMember id chat } :=
    .of_eq rfl rfl rfl rfl
  exact Sql.wp_mono (mergeThreadState_apart id) fun _ s' _ h => hpages.trans h

theorem forgetEnrichment_apart (record : Incoming) (upgrade : Bool) :
    Sql.wp (forgetEnrichment record upgrade)
      (fun _ s' _ => Apart s s' ∧ s'.outbox = s.outbox) s fresh := by
  cases record with
  | message v =>
    simp only [forgetEnrichment, Sql.wp_bind, Sql.wp_execute]
    split_ifs
    · rw [Sql.wp_execute?]
      obtain ⟨cache, hcache⟩ := Table.insert_isSome
        (s.enrichmentCache.deleteWhere fun id _ => id = v.value.id) v.value.id
        { revision := v.value.revision, record := v, serial := 1 } (by
          rw [Table.get?_deleteWhere]
          simp)
      simp only [hcache, Option.map_some, Option.some.injEq, exists_eq_left']
      exact ⟨.of_eq rfl rfl rfl rfl, trivial⟩
    · rw [Sql.wp_pure]
      exact ⟨.of_eq rfl rfl rfl rfl, rfl⟩
  | _ => exact Sql.wp_pure.mpr ⟨Apart.refl s, rfl⟩

theorem requestState_apart (v : Decoded SendRequest) : Sql.wp (requestState v)
    (fun _ s' _ => Apart s s' ∧
      s'.outbox = s.outbox.modify v.value.requestId (.follow v)) s fresh := by
  have hpayloads : ∀ id, ((s.outbox.modify v.value.requestId (.follow v)).get? id).map
      (·.payload) = (s.outbox.get? id).map (·.payload) := by
    intro id
    rw [Table.get?_modify]
    split_ifs with hid
    · rw [hid, Option.map_map]
      rfl
    · rfl
  simp only [requestState, Sql.wp_bind, Sql.wp_execute]
  split_ifs
  · rw [deliveredFiles, Sql.wp_execute]
    exact ⟨⟨⟨rfl, hpayloads⟩, rfl, rfl⟩, rfl⟩
  · rw [Sql.wp_pure]
    exact ⟨⟨⟨rfl, hpayloads⟩, rfl, rfl⟩, rfl⟩

/-- What writing a record does: its row keeps the newer record, and the outbox
row of a request shows the record that is stored. -/
structure Written (s : Store) (r : Incoming) (kept : Option Incoming) (s' : Store) : Prop
    extends Framed s s' where
  row : s'.row? r.key = kept.map Row.of
  others : ∀ id, id ≠ r.id → s'.identities.get? id = s.identities.get? id
  follows : ∀ v, kept = some (.request v) → ∀ row, s.outbox.get? r.id = some row →
    s'.outbox.get? r.id = some (row.follow v)

theorem row?_record {r : Incoming} (hkind : r.kind ≠ .identity) {stored : Option Incoming}
    (hstored : ∀ m, stored = some m → m.kind = r.kind) :
    s.row? r.key = stored.map Row.of ↔ s.records.get? r.key = stored.map RecordRow.of := by
  have hrow : s.row? r.key = (s.records.get? r.key).map .record := by
    unfold Store.row?
    split
    · next h => exact absurd h hkind
    · rfl
  have hof : stored.map Row.of = (stored.map RecordRow.of).map .record := by
    cases hm : stored with
    | none => rfl
    | some m =>
      have hne : m.kind ≠ .identity := hstored m hm ▸ hkind
      cases m with
      | identity v => exact absurd rfl hne
      | _ => rfl
  rw [hrow, hof]
  exact (Option.map_injective fun _ _ h => Row.record.inj h).eq_iff

theorem followRequest_apart (r : Incoming) :
    Sql.wp (followRequest r) (fun _ s' _ => Apart s s' ∧
      ∀ v, r = .request v → s'.outbox = s.outbox.modify v.value.requestId (.follow v)) s fresh := by
  cases r with
  | request v =>
    refine Sql.wp_mono (requestState_apart v) fun _ s' _ h => ⟨h.1, fun v' hv => ?_⟩
    rw [← Incoming.request.inj hv]
    exact h.2
  | _ => exact Sql.wp_pure.mpr ⟨Apart.refl s, fun _ hv => nomatch hv⟩

theorem regroupMoved_apart (r : Incoming) (existing : Option RecordRow) :
    Sql.wp (regroupMoved r existing) (fun _ s' _ => Apart s s' ∧
      (r.kind ≠ .conversation → s'.outbox = s.outbox)) s fresh := by
  unfold regroupMoved
  split_ifs with h
  · simp only [Bool.and_eq_true, decide_eq_true_eq] at h
    exact Sql.wp_mono (regroup_apart r.id) fun _ s' _ h' => ⟨h', fun hne => absurd h.1 hne⟩
  · exact Sql.wp_pure.mpr ⟨Apart.refl s, fun _ => rfl⟩

theorem follows_of {v : Decoded SendRequest} {s₁ s' : Store} (houtbox : s₁.outbox = s.outbox)
    (hfollowed : s'.outbox = s₁.outbox.modify v.value.requestId (.follow v)) {row : OutboxRow}
    (hrow : s.outbox.get? v.value.requestId = some row) :
    s'.outbox.get? v.value.requestId = some (row.follow v) := by
  rw [hfollowed, houtbox, Table.get?_modify, if_pos rfl, hrow]
  rfl

theorem writeStored_written {r : Incoming} (hkind : r.kind ≠ .identity)
    {stored : Option Incoming} (hstored : ∀ m, stored = some m → m.key = r.key)
    (hrow : s.row? r.key = stored.map Row.of) :
    Sql.wp (writeStored r)
      (fun _ s' _ => Written s r (Register.keep Incoming.rank stored r) s') s fresh := by
  have hkinds : ∀ m, stored = some m → m.kind = r.kind := fun m hm =>
    congrArg Prod.fst (hstored m hm)
  have hrecords := (row?_record hkind hkinds).mp hrow
  unfold writeStored
  rw [Sql.wp_bind, Sql.wp_query, hrecords, keep_eq hkinds]
  by_cases hsuperseded : (stored.map RecordRow.of).any (superseded r) = true
  · obtain ⟨m, hm⟩ : ∃ m, stored = some m := by
      cases stored with
      | none => cases hsuperseded
      | some m => exact ⟨m, rfl⟩
    rw [if_pos hsuperseded]
    rw [hm, Option.map_some, Option.any_some] at hsuperseded
    simp only [hm, Option.map_some, Option.filter_some, hsuperseded, if_true]
    rw [Sql.wp_bind]
    refine Sql.wp_mono (followRequest_apart m) fun _ s' _ hafter => ?_
    obtain ⟨hapart, hfollows⟩ := hafter
    rw [Sql.wp_pure]
    refine ⟨hapart.toFramed, ?_, fun id _ => by rw [hapart.identities], fun v hv row hrow' => ?_⟩
    · rw [row?_record hkind fun m' hm' => hkinds m' (hm.trans hm'), hapart.records, hrecords, hm]
    · have hv : m = .request v := Option.some.inj hv
      have hid : r.id = v.value.requestId := by
        have hsame : m.id = r.id := congrArg Prod.snd (hstored m hm)
        rw [← hsame, hv]
        rfl
      rw [hid] at hrow' ⊢
      exact follows_of rfl (hfollows v hv) hrow'
  · rw [if_neg hsuperseded]
    have hnone : (stored.map RecordRow.of).filter (superseded r) = none := by
      cases stored with
      | none => rfl
      | some m => simpa using hsuperseded
    simp only [hnone, Sql.wp_bind, insertRecord, Sql.wp_execute]
    refine Sql.wp_mono (forgetEnrichment_apart r _) fun _ s₁ _ hafter => ?_
    obtain ⟨hapart₁, houtbox₁⟩ := hafter
    rw [Sql.wp_bind]
    refine Sql.wp_mono (followRequest_apart r) fun _ s₂ _ hafter => ?_
    obtain ⟨hapart₂, hfollows₂⟩ := hafter
    rw [Sql.wp_bind]
    refine Sql.wp_mono (regroupMoved_apart r _) fun _ s₃ _ hafter => ?_
    obtain ⟨hapart₃, houtbox₃⟩ := hafter
    rw [Sql.wp_pure]
    have hapart := (hapart₁.trans hapart₂).trans hapart₃
    refine ⟨⟨hapart.epoch, hapart.payloads⟩, ?_, fun id _ => by rw [hapart.identities],
      fun v hv row hrow' => ?_⟩
    · have hself : ∀ m, some r = some m → m.kind = r.kind := fun m hm => by rw [Option.some.inj hm]
      rw [row?_record hkind hself, hapart.records, Table.get?_upsert, if_pos rfl]
      cases s.records.get? r.key <;> rfl
    · have hv : r = .request v := Option.some.inj hv
      have hne : r.kind ≠ .conversation := by
        rw [hv]
        exact fun h => by cases h
      rw [hv] at hrow' ⊢
      rw [houtbox₃ hne]
      exact follows_of houtbox₁ (hfollows₂ v hv) hrow'

theorem checkRecord_current {r : Incoming} (h : Admissible s r) :
    Sql.wp (checkRecord r) (fun current s' _ => current = true ∧ s' = s) s fresh := by
  cases r with
  | conversation v => exact Sql.wp_pure.mpr ⟨rfl, rfl⟩
  | identity v => exact Sql.wp_pure.mpr ⟨rfl, rfl⟩
  | message v =>
    rw [checkRecord, Sql.wp_bind, Sql.wp_lift]
    exact ⟨(), h.message v rfl, Sql.wp_pure.mpr ⟨rfl, rfl⟩⟩
  | request v =>
    obtain ⟨hvalid, hepoch, hpermits⟩ := h.request v rfl
    rw [checkRecord, Sql.wp_bind, Sql.wp_lift]
    refine ⟨(), hvalid, ?_⟩
    rw [Sql.wp_bind, Sql.wp_query, hepoch, if_neg (by simp), Sql.wp_bind, validateRequest,
      Sql.wp_bind, Sql.wp_query]
    cases hrow : s.outbox.get? v.value.requestId with
    | none => simp
    | some row =>
      have hrowPermits := hpermits row hrow
      unfold permits at hrowPermits
      dsimp only
      split_ifs with htexts
      · simp
      · rw [Sql.wp_require, Sql.wp_pure]
        rw [Bool.or_eq_true] at hrowPermits
        exact ⟨hrowPermits.resolve_left htexts, rfl, rfl⟩

theorem writeIdentity_written {v : Decoded Identity} (h : Admissible s (.identity v))
    {stored : Option Incoming} (hstored : ∀ m, stored = some m → m.key = (Incoming.identity v).key)
    (hrow : s.row? (Incoming.identity v).key = stored.map Row.of)
    (hagree : ∀ old, stored = some (.identity old) →
      old.value.service = v.value.service ∧ old.value.address = v.value.address) :
    Sql.wp (writeIdentity v) (fun _ s' _ =>
      Written s (.identity v) (Register.keep Incoming.rank stored (.identity v)) s') s fresh := by
  obtain ⟨hservice, haddress, hunique⟩ := h.identity v rfl
  have hnamed : v.value.id ≠ [] := h.named
  have hrevision : v.value.revision ≤ maxInt := h.revision
  have hget : (s.identities.get? v.value.id).map Row.identity = stored.map Row.of := hrow
  simp only [writeIdentity, parseRevision, Sql.wp_bind, Sql.wp_require, Sql.wp_statement]
  refine ⟨decide_eq_true hrevision, by simp [hnamed, hservice, haddress], ?_⟩
  cases hstoredEq : stored with
  | none =>
    rw [hstoredEq, Option.map_none, Option.map_eq_none_iff] at hget
    obtain ⟨identities, hinsert⟩ := Table.insert_isSome s.identities v.value.id (.of v) hget
    have hfree : (s.identities.select fun _ r =>
        r.service = v.value.service && r.address = v.value.address) = [] := by
      rw [List.eq_nil_iff_forall_not_mem]
      intro q hq
      obtain ⟨hq, hsame⟩ := Table.get?_select.mp hq
      simp only [Bool.and_eq_true, decide_eq_true_eq] at hsame
      rw [hunique q.1 q.2 hq hsame.1 hsame.2, hget] at hq
      cases hq
    refine ⟨true, { s with identities := identities }, ?_, ⟨rfl, fun _ => rfl⟩, ?_,
      fun id hid => ?_, fun v' hv' => by cases hv'⟩
    · simp [upsertIdentity, hget, hfree, hinsert]
    · change (identities.get? v.value.id).map Row.identity = some (Row.of (.identity v))
      rw [Table.get?_insert hinsert, if_pos rfl]
      rfl
    · have hne : id ≠ v.value.id := hid
      rw [Table.get?_insert hinsert, if_neg hne]
  | some m =>
    obtain ⟨old, rfl⟩ : ∃ old, m = .identity old := by
      have hkind : m.kind = .identity := congrArg Prod.fst (hstored m hstoredEq)
      cases m with
      | identity old => exact ⟨old, rfl⟩
      | _ => cases hkind
    rw [hstoredEq, Option.map_some, Option.map_eq_some_iff] at hget
    obtain ⟨row, hrow', hrowOf⟩ := hget
    have hrowOf : row = .of old := Row.identity.inj hrowOf
    obtain ⟨hsameService, hsameAddress⟩ := hagree old hstoredEq
    have hnewer : (Incoming.identity old).rank < (Incoming.identity v).rank ↔
        old.value.revision < v.value.revision := by
      rw [← not_le, Incoming.rank_le]
      simp only [Incoming.revision, Incoming.metadataDeferred, imp_self, and_true]
      omega
    rw [Register.keep_some]
    simp only [upsertIdentity, hrow', hrowOf, IdentityRow.of, hsameService, hsameAddress,
      decide_true, Bool.and_true, decide_eq_true_eq, gt_iff_lt, hnewer]
    by_cases hlt : old.value.revision < v.value.revision
    · simp only [if_pos hlt]
      refine ⟨true, _, rfl, ⟨rfl, fun _ => rfl⟩, ?_, fun id hid => ?_, fun v' hv' => by cases hv'⟩
      · change ((s.identities.modify v.value.id _).get? v.value.id).map Row.identity =
          some (Row.of (.identity v))
        rw [Table.get?_modify, if_pos rfl, hrow', hrowOf]
        simp [IdentityRow.of, Row.of, hsameService, hsameAddress]
      · have hne : id ≠ v.value.id := hid
        rw [Table.get?_modify, if_neg hne]
    · simp only [if_neg hlt]
      refine ⟨false, s, rfl, Framed.refl s, ?_, fun _ _ => rfl, fun v' hv' => by cases hv'⟩
      rw [hrow, hstoredEq]

/-- Writing an admissible record succeeds and keeps the newer one. -/
theorem writeRecord_written {r : Incoming} (autocommit : Bool) (h : Admissible s r)
    {stored : Option Incoming} (hstored : ∀ m, stored = some m → m.key = r.key)
    (hrow : s.row? r.key = stored.map Row.of)
    (hagree : ∀ old v, stored = some (.identity old) → r = .identity v →
      old.value.service = v.value.service ∧ old.value.address = v.value.address) :
    Sql.wp (writeRecord autocommit r)
      (fun _ s' _ => Written s r (Register.keep Incoming.rank stored r) s') s fresh := by
  by_cases hkind : r.kind = .identity
  · obtain ⟨v, rfl⟩ : ∃ v, r = .identity v := by
      cases r with
      | identity v => exact ⟨v, rfl⟩
      | _ => exact nomatch hkind
    exact writeIdentity_written h hstored hrow fun old hold => hagree old v hold rfl
  · have hbody : writeRecord autocommit r = (do
        let current ← checkRecord r
        if !current then return false
        else do
          parseRevision r.revision
          Sql.require (r.id.length != 0) .invalidRecord
          if r.kind = .request && autocommit then Sql.transaction (writeStored r)
          else writeStored r) := by
      cases r with
      | identity v => exact absurd rfl hkind
      | _ => rfl
    rw [hbody, Sql.wp_bind]
    refine Sql.wp_mono (checkRecord_current h) fun current s₁ _ ⟨hcurrent, hs₁⟩ => ?_
    rw [hcurrent, hs₁, if_neg (by simp)]
    simp only [parseRevision, Sql.wp_bind, Sql.wp_require]
    refine ⟨decide_eq_true h.revision, by simp [h.named], ?_⟩
    split_ifs
    · rw [Sql.wp_transaction]
      exact writeStored_written hkind hstored hrow
    · exact writeStored_written hkind hstored hrow

end Writes

/-- The cache after a call, when the storage does not fail. -/
def Store.write (autocommit : Bool) (s : Store) (r : Incoming) : Store :=
  ((writeRecord autocommit r).run { db := s }).2.db

def Store.writes (autocommit : Bool) (s : Store) (records : List Incoming) : Store :=
  records.foldl (Store.write autocommit) s

section Runs

variable (autocommit : Bool) {s : Store} {key : Kind × Bytes} {stored : Option Incoming}
  {records : List Incoming}

theorem write_of_wp {r : Incoming} {Q : Bool → Store → Prop}
    (h : Sql.wp (writeRecord autocommit r) (fun b s' _ => Q b s') s []) :
    (∃ b, ((writeRecord autocommit r).run { db := s }).1 = .ok b) ∧
      ∃ b, Q b (s.write autocommit r) := by
  obtain ⟨b, s', fresh', hrun, hq⟩ := h
  have hrun : (writeRecord autocommit r).run { db := s } = (.ok b, ⟨s', [], fresh'⟩) := hrun
  refine ⟨⟨b, by rw [hrun]⟩, b, ?_⟩
  rw [Store.write, hrun]
  exact hq

theorem OneRecord.mono {records' : List Incoming} (h : OneRecord s key records)
    (hsub : ∀ r ∈ records', r ∈ records) : OneRecord s key records' where
  keyed r hr := h.keyed r (hsub r hr)
  admissible r hr := h.admissible r (hsub r hr)
  forms r hr r' hr' := h.forms r (hsub r hr) r' (hsub r' hr')
  identity v v' hv hv' := h.identity v v' (hsub _ hv) (hsub _ hv')

theorem OneRecord.written (h : OneRecord s key records) {r : Incoming} {kept : Option Incoming}
    {s' : Store} (hkeyed : r.key = key) (hwritten : Written s r kept s') : OneRecord s' key records where
  keyed := h.keyed
  forms := h.forms
  identity := h.identity
  admissible q hq := by
    obtain ⟨hrevision, hnamed, hmessage, hrequest, hidentity⟩ := h.admissible q hq
    refine ⟨hrevision, hnamed, hmessage, fun v hv => ?_, fun v hv => ?_⟩
    · obtain ⟨hvalid, hepoch, hpermits⟩ := hrequest v hv
      refine ⟨hvalid, hepoch.trans hwritten.epoch.symm, fun row hrow => ?_⟩
      have hpayload := hwritten.payloads v.value.requestId
      rw [hrow, Option.map_some, eq_comm, Option.map_eq_some_iff] at hpayload
      obtain ⟨row', hrow', hsame⟩ := hpayload
      rw [← hsame]
      exact hpermits row' hrow'
    · obtain ⟨hservice, haddress, hunique⟩ := hidentity v hv
      refine ⟨hservice, haddress, fun id row hrow hrowService hrowAddress => ?_⟩
      have hq : v.value.id = r.id := by
        have hkey := (h.keyed q hq).trans hkeyed.symm
        rw [hv] at hkey
        exact congrArg Prod.snd hkey
      by_cases hid : id = r.id
      · rw [hid, hq]
      · rw [hwritten.others id hid] at hrow
        exact hunique id row hrow hrowService hrowAddress

/-- One call succeeds, keeps the newer record and leaves the rest admissible. -/
theorem OneRecord.write {seen : List Incoming} (h : OneRecord s key seen)
    (hrow : s.row? key = stored.map Row.of) (hstored : ∀ m, stored = some m → m ∈ seen)
    {r : Incoming} (hr : r ∈ seen) :
    (∃ b, ((writeRecord autocommit r).run { db := s }).1 = .ok b) ∧
      Written s r (Register.keep Incoming.rank stored r) (s.write autocommit r) ∧
      OneRecord (s.write autocommit r) key seen := by
  have hkey := h.keyed r hr
  have hwp : Sql.wp (writeRecord autocommit r)
      (fun _ s' _ => Written s r (Register.keep Incoming.rank stored r) s') s [] :=
    writeRecord_written autocommit (h.admissible r hr)
      (fun m hm => (h.keyed m (hstored m hm)).trans hkey.symm) (by rw [hkey, hrow])
      fun old v hold hv => h.identity old v (hstored _ hold) (hv ▸ hr)
  obtain ⟨hok, _, hwritten⟩ := write_of_wp autocommit hwp
  exact ⟨hok, hwritten, h.written hkey hwritten⟩

theorem keep_mem {seen : List Incoming} (hstored : ∀ m, stored = some m → m ∈ seen)
    {r : Incoming} (hr : r ∈ seen) :
    ∀ m, Register.keep Incoming.rank stored r = some m → m ∈ seen := by
  intro m hm
  cases hs : stored with
  | none =>
    rw [hs, Register.keep_none, Option.some.injEq] at hm
    exact hm ▸ hr
  | some old =>
    rw [hs, Register.keep_some] at hm
    split_ifs at hm with hlt
    · exact Option.some.inj hm ▸ hr
    · exact hstored m (hs.trans hm)

theorem foldl_keep_mem {seen : List Incoming} (hstored : ∀ m, stored = some m → m ∈ seen)
    (hrecords : ∀ r ∈ records, r ∈ seen) :
    ∀ m, records.foldl (Register.keep Incoming.rank) stored = some m → m ∈ seen := by
  induction records generalizing stored with
  | nil => exact hstored
  | cons r rest ih =>
    exact ih (keep_mem hstored (hrecords r List.mem_cons_self))
      fun q hq => hrecords q (List.mem_cons_of_mem r hq)

/-- The stored row is a register: it holds what the records fold to, and a
request's outbox row shows it. -/
theorem OneRecord.writes {seen : List Incoming} (h : OneRecord s key seen)
    (hrow : s.row? key = stored.map Row.of) (hstored : ∀ m, stored = some m → m ∈ seen)
    (hrecords : ∀ r ∈ records, r ∈ seen) :
    (s.writes autocommit records).row? key =
        (records.foldl (Register.keep Incoming.rank) stored).map Row.of ∧
      OneRecord (s.writes autocommit records) key seen ∧
      ∀ v row, records ≠ [] →
        records.foldl (Register.keep Incoming.rank) stored = some (.request v) →
        s.outbox.get? key.2 = some row →
        (s.writes autocommit records).outbox.get? key.2 = some (row.follow v) := by
  induction records generalizing s stored with
  | nil => exact ⟨hrow, h, fun _ _ hne => absurd rfl hne⟩
  | cons r rest ih =>
    have hr : r ∈ seen := hrecords r List.mem_cons_self
    have hkey := h.keyed r hr
    obtain ⟨-, hwritten, hone⟩ := h.write autocommit hrow hstored hr
    have hkept := keep_mem hstored hr
    obtain ⟨hfinal, hfinalOne, hfollows⟩ := ih hone (by rw [← hkey, hwritten.row]) hkept
      fun q hq => hrecords q (List.mem_cons_of_mem r hq)
    refine ⟨hfinal, hfinalOne, fun v row _ hlast houtbox => ?_⟩
    have hid : key.2 = r.id := (congrArg Prod.snd hkey).symm
    rw [hid] at houtbox hfollows ⊢
    by_cases hrest : rest = []
    · subst hrest
      exact hwritten.follows v hlast row houtbox
    · -- The kept record is a request too, so the outbox row already follows one.
      obtain ⟨m, hm⟩ : ∃ m, Register.keep Incoming.rank stored r = some m := by
        cases stored with
        | none => exact ⟨r, rfl⟩
        | some old => exact (Register.keep_mono rfl).imp fun _ h => h.1
      have hlastMem := foldl_keep_mem hkept
        (fun q hq => hrecords q (List.mem_cons_of_mem r hq)) _ hlast
      have hkind : m.kind = .request :=
        congrArg Prod.fst ((h.keyed m (hkept m hm)).trans (h.keyed _ hlastMem).symm)
      obtain ⟨w, rfl⟩ : ∃ w, m = .request w := by
        cases m with
        | request w => exact ⟨w, rfl⟩
        | _ => exact nomatch hkind
      exact hfollows v (row.follow w) hrest hlast (hwritten.follows w hm row houtbox)

theorem Row.of_injective {r r' : Incoming} (h : Row.of r = Row.of r') : r = r' := by
  cases r <;> cases r' <;>
    simp only [Row.of, RecordRow.of, IdentityRow.of, Row.record.injEq, Row.identity.injEq,
      RecordRow.mk.injEq, IdentityRow.mk.injEq, reduceCtorEq, Incoming.conversation.injEq,
      Incoming.message.injEq, Incoming.request.injEq, and_false] at h <;>
    simp [h]

end Runs

/-- Whatever the order and the number of its arrivals, the stored record of an
id is the greatest one; every call succeeds, a superseded record leaves the row
as it was, and the outbox row of a request shows the stored record. -/
theorem writeRecord_order_insensitive (autocommit : Bool) {s : Store} {key : Kind × Bytes}
    {stored : Option Incoming} {records : List Incoming} (holds : s.row? key = stored.map Row.of)
    (wire : OneRecord s key (stored.toList ++ records)) :
    let seen := stored.toList ++ records
    (∀ first r rest, records = first ++ r :: rest →
      (∃ fresh, ((writeRecord autocommit r).run { db := s.writes autocommit first }).1 = .ok fresh) ∧
      ∀ m ∈ seen, (s.writes autocommit first).row? key = some (.of m) → r.rank ≤ m.rank →
        ((s.writes autocommit first).write autocommit r).row? key = some (.of m)) ∧
    (∀ records', (∀ r, r ∈ records' ↔ r ∈ records) →
      (s.writes autocommit records').row? key = (s.writes autocommit records).row? key) ∧
    (seen ≠ [] → ∃ m ∈ seen, (s.writes autocommit records).row? key = some (.of m) ∧
      (∀ r ∈ seen, r.rank ≤ m.rank) ∧
      ∀ v row, m = .request v → records ≠ [] → s.outbox.get? key.2 = some row →
        (s.writes autocommit records).outbox.get? key.2 = some (row.follow v)) := by
  intro seen
  have hstored : ∀ m, stored = some m → m ∈ seen := fun m hm =>
    List.mem_append_left _ (Option.mem_toList.mpr hm)
  have hgreatest : Register.Greatest Incoming.rank stored stored.toList := by
    cases stored with
    | none => exact Register.greatest_none
    | some m => exact Register.greatest_some
  have hwrites (records' : List Incoming) (hsub : ∀ r ∈ records', r ∈ records) :=
    wire.writes autocommit holds hstored
      fun r hr => List.mem_append_right stored.toList (hsub r hr)
  have hall := hgreatest.foldl records
  refine ⟨fun first r rest hsplit => ?_, fun records' hsame => ?_, fun hne => ?_⟩
  · have hfirst : ∀ q ∈ first, q ∈ records := fun q hq => by
      rw [hsplit]
      exact List.mem_append_left _ hq
    have hr : r ∈ seen := List.mem_append_right _ (by rw [hsplit]; simp)
    obtain ⟨hrow, hone, -⟩ := hwrites first hfirst
    have hmem := foldl_keep_mem hstored
      fun q hq => List.mem_append_right stored.toList (hfirst q hq)
    obtain ⟨hok, hwritten, -⟩ := hone.write autocommit hrow hmem hr
    refine ⟨hok, fun m _ hm hle => ?_⟩
    rw [hrow, Option.map_eq_some_iff] at hm
    obtain ⟨m', hm', hsame⟩ := hm
    rw [Row.of_injective hsame] at hm'
    rw [← wire.keyed r hr, hwritten.row, hm', Register.keep_superseded hle]
    rfl
  · have hsub : ∀ r ∈ records', r ∈ records := fun r hr => (hsame r).mp hr
    rw [(hwrites records' hsub).1, (hwrites records fun _ hr => hr).1,
      (hgreatest.foldl records').unique hall (fun r => ?_) fun a ha b hb => ?_]
    · simp only [List.mem_append, hsame]
    · have hseen : ∀ q ∈ stored.toList ++ records', q ∈ seen := fun q hq => by
        rcases List.mem_append.mp hq with hq | hq
        · exact List.mem_append_left _ hq
        · exact List.mem_append_right _ (hsub q hq)
      exact wire.forms a (hseen a ha) b (hseen b hb)
  · obtain ⟨q, hq⟩ := List.exists_mem_of_ne_nil seen hne
    obtain ⟨m, hm, -⟩ := hall.above q hq
    obtain ⟨hrow, -, hfollows⟩ := hwrites records fun _ hr => hr
    refine ⟨m, hall.mem m hm, by rw [hrow, hm]; rfl, fun r hr => ?_, fun v row hv hne => ?_⟩
    · obtain ⟨m', hm', hle⟩ := hall.above r hr
      rw [Option.some.inj (hm.symm.trans hm')]
      exact hle
    · exact hfollows v row hne (hm.trans (congrArg some hv))

namespace Sample

def greeting (revision : Nat) (deferred : Bool) : Incoming := .message {
  value := {
    id := [1], revision := revision, conversationId := [2], sender := [], direction := .incoming
    service := text "imessage", timestamp := [], kind := .text, text := some (text "hi")
    decoding := .plain, observedStatus := .received, metadataDeferred := deferred }
  raw := [] }

def arrivals : List Incoming := [greeting 1 false, greeting 2 true, greeting 2 false]

theorem arrivals_oneRecord : OneRecord {} (.message, [1]) arrivals := by
  have hforms : ∀ r ∈ arrivals, ∃ revision deferred, r = greeting revision deferred ∧
      revision ≤ maxInt := by
    intro r hr
    simp only [arrivals, List.mem_cons, List.not_mem_nil, or_false] at hr
    rcases hr with rfl | rfl | rfl
    · exact ⟨1, false, rfl, by decide⟩
    · exact ⟨2, true, rfl, by decide⟩
    · exact ⟨2, false, rfl, by decide⟩
  refine ⟨fun r hr => ?_, fun r hr => ?_, by decide, fun v _ hv _ => ?_⟩
  · obtain ⟨revision, deferred, rfl, -⟩ := hforms r hr
    rfl
  · obtain ⟨revision, deferred, rfl, hrevision⟩ := hforms r hr
    refine ⟨hrevision, by simp [greeting, Incoming.id], fun v hv => ?_, fun v hv => ?_, fun v hv => ?_⟩
    · rw [← Incoming.message.inj hv]
      rfl
    · exact nomatch hv
    · exact nomatch hv
  · obtain ⟨revision, deferred, hv, -⟩ := hforms _ hv
    exact nomatch hv

end Sample

/-- The greeting ends at its full second revision, in the reverse order too. -/
theorem writeRecord_order_insensitive_greeting :
    (({} : Store).writes false Sample.arrivals.reverse).row? (.message, [1]) =
      (({} : Store).writes false Sample.arrivals).row? (.message, [1]) :=
  (@writeRecord_order_insensitive false {} _ none _ rfl Sample.arrivals_oneRecord).2.1
    Sample.arrivals.reverse fun _ => List.mem_reverse

end Zimbr.Client
