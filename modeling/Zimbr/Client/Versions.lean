import Zimbr.Client.Batches
import Zimbr.Client.Filed
import Zimbr.Client.History

set_option autoImplicit false

/-!
# Versions of a message

The version of a stored message is its revision with the serial of its metadata.
Writers move it forward, so within an epoch a version names one content.
-/
namespace Zimbr.Client
open Library

section Session

variable (π : Type)

/-- The worker, and every history that a snapshot of this epoch was built with. -/
structure Session where
  worker : Worker := {}
  histories : List (List (HistoryRecord π)) := []

inductive SessionAction where
  | worker (a : Action)
  | enrich (env : Env) (which : MetadataSection) (raw id revision after : Bytes)
  /-- A new process, which may drop the older messages of an older client. -/
  | reopen (pruned : Bytes → Bool)
  /-- Build a history, with a previous one or none. -/
  | snapshot (selected : Bytes) (previous : Option Nat)

end Session

def ownTables (s change : Store) : Store := { s with
  drafts := change.drafts
  outbox := change.outbox
  outgoingFiles := change.outgoingFiles
  pages := change.pages }

/-- Keep a recent window of each thread, and what pending sends are linked to. -/
def migrateHistoryCache (pruned : Bytes → Bool) (s : Store) : Store := { s with
  records := s.records.deleteWhere fun key _ => key.1 = .message && pruned key.2
  enrichmentCache := s.enrichmentCache.deleteWhere fun id _ => pruned id
  enrichmentPages := s.enrichmentPages.deleteWhere fun key _ => pruned key.1 }

/-- The worker's step; metadata pages are written by their own action. -/
def Worker.advance (dec : Decoder) (w : Worker) : Action → Worker
  | .elsewhere change => { w with store := ownTables w.store (change w.store) }
  | a => w.step dec a

def Action.forgets : Action → Bool
  | .restart | .clear => true
  | _ => false

namespace Session

variable {π : Type}

def advanced (dec : Decoder) (s : Session π) (a : Action) : Session π :=
  let w := s.worker.advance dec a
  { worker := w
    histories := if a.forgets || w.store.epoch ≠ s.worker.store.epoch then [] else s.histories }

def snapshot (present : Decoded Message → π) (s : Session π) (selected : Bytes)
    (previous : Option Nat) : Session π :=
  match create present s.worker.store selected (previous.bind fun i => s.histories[i]?) with
  | .ok history => { s with histories := s.histories ++ [history] }
  | .error _ => s

def step (dec : Decoder) (codec : PageCodec) (present : Decoded Message → π) (s : Session π) :
    SessionAction → Session π
  | .worker a => s.advanced dec a
  | .enrich env which raw id revision after =>
    { s with worker := s.worker.writing env (enrichmentSection codec which raw id revision after) }
  | .reopen pruned =>
    { worker := {
        store := migrateHistoryCache pruned s.worker.store
        selected := s.worker.selected } }
  | .snapshot selected previous => s.snapshot present selected previous

end Session

def session {π : Type} (dec : Decoder) (codec : PageCodec) (present : Decoded Message → π) :
    Machine (Session π) SessionAction Unit where
  step := Session.step dec codec present
  out _ _ := []

/-- A text projection, for which a page of metadata was kept, became the full record
of its revision. -/
def UpgradesPaged (s s' : Store) : Prop :=
  ∃ id row row', s.records.get? (.message, id) = some row ∧
    s'.records.get? (.message, id) = some row' ∧ row'.revision = row.revision ∧
    row.record.metadataDeferred = true ∧ row'.record.metadataDeferred = false ∧
    (s.copy? id row).isSome

section Moves

/-- Of a stored message, writing records keeps the version with its content, moves
the revision forward, or puts a full record in the place of a text projection. -/
def Rewrites (s s' : Store) : Prop :=
  ∀ id row, s.records.get? (.message, id) = some row →
    ∃ row', s'.records.get? (.message, id) = some row' ∧
      (row.revision < row'.revision ∨ row.revision = row'.revision ∧
        (row' = row ∧ s'.copy? id row' = s.copy? id row ∨
          row.record.metadataDeferred = true ∧ row'.record.metadataDeferred = false ∧
            s'.serial id row' = 1))

theorem Rewrites.of_eq {s s' : Store} (hrecords : s'.records = s.records)
    (hcache : s'.enrichmentCache = s.enrichmentCache) : Rewrites s s' := by
  intro id row hrow
  refine ⟨row, ?_, Or.inr ⟨rfl, Or.inl ⟨rfl, ?_⟩⟩⟩
  · rw [hrecords]
    exact hrow
  · rw [Store.copy?, hcache]
    rfl

instance : Std.Refl Rewrites where
  refl _ := .of_eq rfl rfl

instance : IsTrans Store Rewrites where
  trans s₁ s₂ s₃ h h' := by
    intro id row hrow
    obtain ⟨row₂, hrow₂, hmoved⟩ := h id row hrow
    obtain ⟨row₃, hrow₃, hmoved'⟩ := h' id row₂ hrow₂
    refine ⟨row₃, hrow₃, ?_⟩
    rcases hmoved with hlt | ⟨heq, hsame⟩
    · rcases hmoved' with hlt' | ⟨heq', -⟩
      · exact Or.inl (hlt.trans hlt')
      · exact Or.inl (heq' ▸ hlt)
    · rcases hmoved' with hlt' | ⟨heq', hsame'⟩
      · exact Or.inl (heq ▸ hlt')
      · refine Or.inr ⟨heq.trans heq', ?_⟩
        rcases hsame with ⟨rfl, hcopy⟩ | ⟨hdeferred, hfull, hserial⟩
        · rcases hsame' with ⟨rfl, hcopy'⟩ | hupgraded
          · exact Or.inl ⟨rfl, hcopy'.trans hcopy⟩
          · exact Or.inr hupgraded
        · rcases hsame' with ⟨rfl, hcopy'⟩ | ⟨hdeferred', -⟩
          · refine Or.inr ⟨hdeferred, hfull, ?_⟩
            rw [Store.serial, hcopy']
            exact hserial
          · rw [hfull] at hdeferred'
            exact nomatch hdeferred'

def shelf (s : Store) : Table (Kind × Bytes) RecordRow × Table Bytes EnrichmentRow :=
  (s.records, s.enrichmentCache)

theorem Rewrites.of_shelf {s s' : Store} (h : shelf s' = shelf s) : Rewrites s s' :=
  .of_eq (congrArg Prod.fst h) (congrArg Prod.snd h)

theorem forgetEnrichment_ok {v : Decoded Message} {upgrade : Bool} {c c' : Conn Store Bytes}
    {u : Unit} (h : (forgetEnrichment (.message v) upgrade).run c = (.ok u, c')) :
    c'.db.records = c.db.records ∧ ∀ id, c'.db.enrichmentCache.get? id =
      if id = v.value.id then
        if upgrade then some { revision := v.value.revision, record := v, serial := 1 } else none
      else c.db.enrichmentCache.get? id := by
  obtain ⟨_, c₁, hcache, h⟩ := Sql.bind_ok h
  obtain ⟨_, c₂, hpages, h⟩ := Sql.bind_ok h
  have hdb₁ := Sql.execute_ok hcache
  have hdb₂ := Sql.execute_ok hpages
  have hdeleted (id : Bytes) : c₂.db.enrichmentCache.get? id =
      if id = v.value.id then none else c.db.enrichmentCache.get? id := by
    rw [hdb₂, hdb₁]
    dsimp only
    rw [Table.get?_deleteWhere]
    split_ifs with hid
    · cases c.db.enrichmentCache.get? id <;> simp [hid]
    · cases c.db.enrichmentCache.get? id <;> simp [hid]
  have hrecords : c₂.db.records = c.db.records := by
    rw [hdb₂, hdb₁]
  cases upgrade with
  | true =>
    rw [if_pos rfl] at h
    have hinserted := Sql.execute?_ok h
    obtain ⟨cache, hinsert, hdb⟩ := Option.map_eq_some_iff.mp hinserted
    rw [← hdb]
    refine ⟨hrecords, fun id => ?_⟩
    dsimp only
    rw [Table.get?_insert hinsert, hdeleted]
    by_cases hid : id = v.value.id
    · rw [if_pos hid, if_pos hid, if_pos rfl]
    · rw [if_neg hid, if_neg hid, if_neg hid]
  | false =>
    rw [if_neg Bool.false_ne_true] at h
    obtain ⟨-, rfl⟩ := Sql.pure_ok h
    exact ⟨hrecords, hdeleted⟩

theorem not_superseded {record : Incoming} {old : RecordRow} (h : superseded record old = false) :
    old.revision < record.revision ∨
      old.revision = record.revision ∧ upgrades record old = true := by
  unfold superseded at h
  rw [Bool.and_eq_false_iff, decide_eq_false_iff_not, Bool.not_eq_false'] at h
  rcases h with h | h
  · exact Or.inl (not_le.mp h)
  · refine Or.inr ⟨?_, h⟩
    simp only [upgrades, Bool.and_eq_true, decide_eq_true_eq] at h
    exact h.1.2

theorem writeStored_rewrites {record : Incoming} : Sql.Yields Rewrites (writeStored record) := by
  intro c a c' h
  obtain ⟨existing, c₁, hquery, h⟩ := Sql.bind_ok h
  obtain ⟨rfl, hdb₁⟩ := Sql.query_ok hquery
  split at h
  · next old hold =>
    have hkept : shelf c'.db = shelf c₁.db :=
      (Sql.Keeps.bind (followRequest_settled.comp shelf) fun _ => .pure).run h
    rw [hdb₁] at hkept
    exact .of_shelf hkept
  · next hnone =>
    obtain ⟨_, c₂, hinsert, h⟩ := Sql.bind_ok h
    obtain ⟨_, c₃, hforget, h⟩ := Sql.bind_ok h
    have hdb₂ := Sql.execute_ok hinsert
    have hkept : shelf c'.db = shelf c₃.db :=
      (Sql.Keeps.bind (followRequest_settled.comp shelf) fun _ =>
        .bind (regroupMoved_settled.comp shelf) fun _ => .pure).run h
    obtain ⟨hrecords, hcache⟩ := Prod.mk.inj hkept
    have hrows (key : Kind × Bytes) : c₂.db.records.get? key =
        if key = record.key then some (.of record) else c.db.records.get? key := by
      rw [hdb₂, hdb₁]
      dsimp only
      rw [Table.get?_upsert]
      split_ifs with hkey
      · cases c.db.records.get? record.key <;> rfl
      · rfl
    have hother {id : Bytes} {row : RecordRow} (hrow : c.db.records.get? (.message, id) = some row)
        (hkey : (Kind.message, id) ≠ record.key) (hrecords₃ : c₃.db.records = c₂.db.records)
        (hcache₃ : c₃.db.enrichmentCache.get? id = c.db.enrichmentCache.get? id) :
        c'.db.records.get? (.message, id) = some row ∧ c'.db.copy? id row = c.db.copy? id row := by
      refine ⟨?_, ?_⟩
      · rw [hrecords, hrecords₃, hrows, if_neg hkey, hrow]
      · rw [Store.copy?, hcache, hcache₃]
        rfl
    intro id row hrow
    cases record with
    | message v =>
      obtain ⟨hrecords₃, hcaches⟩ := forgetEnrichment_ok hforget
      by_cases hid : id = v.value.id
      · subst hid
        have hexisting : c.db.records.get? (Incoming.message v).key = some row := hrow
        rw [hexisting] at hnone hcaches
        have hlive : superseded (.message v) row = false := by
          rw [Option.filter_some] at hnone
          by_contra hne
          rw [if_pos (by simpa using hne)] at hnone
          cases hnone
        refine ⟨.of (.message v), ?_, ?_⟩
        · rw [hrecords, hrecords₃, hrows]
          exact if_pos rfl
        · rcases not_superseded hlive with hlt | ⟨heq, hupgrades⟩
          · exact Or.inl hlt
          · refine Or.inr ⟨heq, Or.inr ?_⟩
            have hserial : c'.db.serial v.value.id (.of (.message v)) = 1 := by
              have hget := hcaches v.value.id
              rw [if_pos rfl, Option.any_some, if_pos hupgrades] at hget
              have hcopy : c'.db.copy? v.value.id (.of (.message v)) =
                  some { revision := v.value.revision, record := v, serial := 1 } := by
                rw [Store.copy?, hcache, hget]
                exact Option.filter_some_pos (decide_eq_true rfl)
              rw [Store.serial, hcopy]
              rfl
            simp only [upgrades, Bool.and_eq_true, Bool.not_eq_true'] at hupgrades
            exact ⟨hupgrades.2, hupgrades.1.1.2, hserial⟩
      · obtain ⟨hrow', hcopy⟩ := hother hrow (fun h => hid (Prod.mk.inj h).2) hrecords₃ (by
          rw [hcaches, if_neg hid, hdb₂, hdb₁])
        exact ⟨row, hrow', Or.inr ⟨rfl, Or.inl ⟨rfl, hcopy⟩⟩⟩
    | _ =>
      obtain ⟨-, rfl⟩ := Sql.pure_ok hforget
      obtain ⟨hrow', hcopy⟩ := hother hrow (fun h => by cases (Prod.mk.inj h).1) rfl (by
        rw [hdb₂, hdb₁])
      exact ⟨row, hrow', Or.inr ⟨rfl, Or.inl ⟨rfl, hcopy⟩⟩⟩

end Moves

section Copies

def Copied (s : Store) : Prop := ∀ id e, s.enrichmentCache.get? id = some e →
  e.record.value.id = id ∧ e.record.value.revision = e.revision

def KeepsCopies (s s' : Store) : Prop := Copied s → Copied s'

instance : Std.Refl KeepsCopies where
  refl _ h := h

instance : IsTrans Store KeepsCopies where
  trans _ _ _ h h' hcopied := h' (h hcopied)

theorem KeepsCopies.of_eq {s s' : Store} (h : s'.enrichmentCache = s.enrichmentCache) :
    KeepsCopies s s' := by
  intro hcopied id e
  rw [h]
  exact hcopied id e

theorem forgetEnrichment_copies {record : Incoming} {upgrade : Bool} :
    Sql.Yields KeepsCopies (forgetEnrichment record upgrade) := by
  cases record with
  | message v =>
    intro c u c' h hcopied id e he
    rw [(forgetEnrichment_ok h).2] at he
    split_ifs at he with hid
    · rw [← Option.some.inj he]
      exact ⟨hid.symm, rfl⟩
    · exact hcopied id e he
  | _ => exact .pure

theorem writeStored_copies {record : Incoming} : Sql.Yields KeepsCopies (writeStored record) := by
  have hcache {s s' : Store} (h : settled s' = settled s) : KeepsCopies s s' := by
    have hsame : (settled s').enrichmentCache = (settled s).enrichmentCache := by rw [h]
    exact .of_eq hsame
  refine .bind .query fun existing => ?_
  split
  · exact .bind (.of_keeps followRequest_settled fun _ _ => hcache) fun _ => .pure
  · exact .bind (.execute fun _ => .of_eq rfl) fun _ => .bind forgetEnrichment_copies fun _ =>
      .bind (.of_keeps followRequest_settled fun _ _ => hcache) fun _ =>
      .bind (.of_keeps regroupMoved_settled fun _ _ => hcache) fun _ => .pure

/-- A version's content: what is stored, and the copy with its metadata. -/
structure Rows (s : Store) : Prop where
  filed : Filed s
  copied : Copied s

variable {s : Store} {id : Bytes} {row : RecordRow}

theorem Rows.stored (h : Rows s) (hrow : s.records.get? (.message, id) = some row) :
    ∃ v, row = .of (.message v) ∧ v.value.id = id := by
  obtain ⟨hkey, hof⟩ := h.filed _ _ hrow
  cases hrecord : row.record with
  | message v =>
    rw [hrecord] at hkey hof
    exact ⟨v, hof, (Prod.mk.inj hkey).2⟩
  | _ =>
    rw [hrecord] at hkey
    exact nomatch (Prod.mk.inj hkey).1

theorem Rows.enriched (h : Rows s) (hrow : s.records.get? (.message, id) = some row) :
    ∃ raw, s.enriched id row = some raw ∧ raw.value.id = id ∧ raw.value.revision = row.revision := by
  obtain ⟨v, rfl, hid⟩ := h.stored hrow
  unfold Store.enriched
  cases hcopy : s.copy? id (.of (.message v)) with
  | none => exact ⟨v, rfl, hid, rfl⟩
  | some e =>
    obtain ⟨hget, hrevision⟩ := Option.filter_eq_some_iff.mp hcopy
    obtain ⟨hid', hrevision'⟩ := h.copied id e hget
    exact ⟨e.record, rfl, hid', hrevision'.trans (of_decide_eq_true hrevision)⟩

/-- A page changes the copy of one stored message, and counts the change. -/
structure Paged (id : Bytes) (row : RecordRow) (e : EnrichmentRow) (s s' : Store) : Prop where
  records : s'.records = s.records
  held : s.records.get? (.message, id) = some row
  copies : ∀ id', s'.enrichmentCache.get? id' =
    if id' = id then some e else s.enrichmentCache.get? id'
  revision : e.revision = row.revision
  content : e.record.value.id = id ∧ e.record.value.revision = e.revision
  serial : s.serial id row < e.serial

theorem earlierItems_reads {which : MetadataSection} {id revision after : Bytes} :
    Sql.Reads (earlierItems which id revision after) := by
  unfold earlierItems
  split_ifs
  · exact .bind .query fun _ => .orThrow
  · exact .pure

theorem appendPage_ok {codec : PageCodec} {which : MetadataSection} {p : SectionPage} {m : Message}
    {revision after : Bytes} {c c' : Conn Store Bytes} {u : Unit} (hm : revision = decimal m.revision)
    (h : (appendPage codec which p m id revision after).run c = (.ok u, c')) :
    c'.db.records = c.db.records ∧ ∃ record : Decoded Message, record.value.id = m.id ∧
      record.value.revision = m.revision ∧ ∀ id', c'.db.enrichmentCache.get? id' =
        if id' = id then
          match c.db.enrichmentCache.get? id with
          | none => some { revision := m.revision, record := record, serial := 1 }
          | some old =>
            some { revision := m.revision, record := record, serial := old.serial + 1 }
        else c.db.enrichmentCache.get? id' := by
  obtain ⟨earlier, c₁, hearlier, h⟩ := Sql.bind_ok h
  obtain ⟨extended, c₂, hextended, h⟩ := Sql.bind_ok h
  obtain ⟨_, c₃, hvalid, h⟩ := Sql.bind_ok h
  obtain ⟨_, c₄, hbounded, h⟩ := Sql.bind_ok h
  obtain ⟨_, c₅, hpages, h⟩ := Sql.bind_ok h
  obtain ⟨number, c₆, hnumber, hcopy⟩ := Sql.bind_ok h
  obtain ⟨hextend, rfl⟩ := Sql.lift_ok hextended
  obtain ⟨-, rfl⟩ := Sql.lift_ok hvalid
  obtain ⟨-, rfl⟩ := Sql.require_ok hbounded
  obtain ⟨hparse, rfl⟩ := Sql.orThrow_ok hnumber
  have hdb₅ := Sql.execute_ok hpages
  have hdb := Sql.execute_ok hcopy
  have hread : c₄.db = c.db := earlierItems_reads.ok hearlier
  have hnumber : number.toNat = m.revision := by
    rw [hm, parseInt_decimal_eq] at hparse
    split_ifs at hparse
    rw [← Option.some.inj hparse, Int.toNat_natCast]
  obtain ⟨hid, hrevision⟩ := extend_same hextend
  refine ⟨by rw [hdb, hdb₅, hread], { value := extended, raw := codec.message extended }, hid,
    hrevision, fun id' => ?_⟩
  rw [hdb, hdb₅, hread]
  dsimp only
  rw [Table.get?_upsert, hnumber]
  split_ifs with hsame
  · cases c.db.enrichmentCache.get? id <;> rfl
  · rfl

theorem enrichmentSection_paged {codec : PageCodec} {which : MetadataSection}
    {raw revision after : Bytes} (c : Conn Store Bytes) (h : Rows c.db) :
    shelf ((enrichmentSection codec which raw id revision after).run c).2.db = shelf c.db ∨
      ∃ row e, Paged id row e c.db
        ((enrichmentSection codec which raw id revision after).run c).2.db := by
  rcases hrun : (enrichmentSection codec which raw id revision after).run c with ⟨e | applied, c'⟩
  · have haborts : Sql.Aborts (enrichmentSection codec which raw id revision after) :=
      .bind .lift fun _ => .bind .require fun _ => .bind .require fun _ => .transaction
    exact Or.inl (congrArg shelf (haborts c e c' hrun))
  · obtain ⟨p, c₁, hpage, hafterPage⟩ := Sql.bind_ok hrun
    obtain ⟨_, c₂, hsize, hafterSize⟩ := Sql.bind_ok hafterPage
    obtain ⟨_, c₃, hcontinues, htransaction⟩ := Sql.bind_ok hafterSize
    have hc₁ := (Sql.lift_ok hpage).2
    have hc₂ := (Sql.require_ok hsize).2
    have hc₃ := (Sql.require_ok hcontinues).2
    obtain ⟨d, d', hd, -, hbody, hd'⟩ := Sql.transaction_ok htransaction
    rw [hc₃, hc₂, hc₁] at hd
    change shelf c'.db = shelf c.db ∨ ∃ row e, Paged id row e c.db c'.db
    rw [hd']
    rw [← hd] at h ⊢
    obtain ⟨found, d₁, hquery, hfoundBody⟩ := Sql.bind_ok hbody
    obtain ⟨m, d₂, hfound, hmBody⟩ := Sql.bind_ok hfoundBody
    obtain ⟨rfl, hdb₁⟩ := Sql.query_ok hquery
    obtain ⟨hm, hd₂⟩ := Sql.orThrow_ok hfound
    rw [← hd₂] at hdb₁
    split_ifs at hmBody with hrevision
    · obtain ⟨-, rfl⟩ := Sql.pure_ok hmBody
      exact Or.inl (congrArg shelf hdb₁)
    · obtain ⟨expected, d₃, hexpected, hnextBody⟩ := Sql.bind_ok hmBody
      obtain ⟨-, hdb₃⟩ := Sql.query_ok hexpected
      split_ifs at hnextBody with hnext
      · obtain ⟨-, rfl⟩ := Sql.pure_ok hnextBody
        exact Or.inl (congrArg shelf (hdb₃.trans hdb₁))
      · obtain ⟨_, d₄, happend, hreturn⟩ := Sql.bind_ok hnextBody
        obtain ⟨-, rfl⟩ := Sql.pure_ok hreturn
        obtain ⟨row, hrow, henriched⟩ := Option.bind_eq_some_iff.mp hm
        obtain ⟨shown, hshown, hid, hrev⟩ := h.enriched hrow
        rw [henriched, Option.some.injEq] at hshown
        subst hshown
        obtain ⟨hrecords, record, hrecordId, hrecordRev, hcopies⟩ :=
          appendPage_ok (not_not.mp hrevision).symm happend
        rw [hdb₃, hdb₁] at hrecords hcopies
        have hserial (e : EnrichmentRow) (he : d.db.enrichmentCache.get? id = some e) :
            d.db.serial id row ≤ e.serial := by
          rw [Store.serial, Store.copy?, he, Option.filter_some]
          split_ifs
          · exact le_rfl
          · exact Nat.zero_le _
        cases hcopy : d.db.enrichmentCache.get? id with
        | none =>
          rw [hcopy] at hcopies
          refine Or.inr ⟨row, { revision := m.value.revision, record := record, serial := 1 },
            hrecords, hrow, hcopies, hrev, ⟨hrecordId.trans hid, hrecordRev⟩, ?_⟩
          rw [Store.serial, Store.copy?, hcopy]
          exact Nat.zero_lt_one
        | some old =>
          rw [hcopy] at hcopies
          exact Or.inr ⟨row,
            { revision := m.value.revision, record := record, serial := old.serial + 1 }, hrecords,
            hrow, hcopies, hrev, ⟨hrecordId.trans hid, hrecordRev⟩,
            Nat.lt_succ_of_le (hserial old hcopy)⟩

theorem Paged.rows {row : RecordRow} {e : EnrichmentRow} {s' : Store} (h : Rows s)
    (hpaged : Paged id row e s s') : Rows s' := by
  refine ⟨Files.of_records hpaged.records h.filed, fun id' e' he => ?_⟩
  rw [hpaged.copies] at he
  split_ifs at he with hid
  · rw [← Option.some.inj he, hid]
    exact hpaged.content
  · exact h.copied id' e' he

end Copies

section Pool

variable {π : Type} {present : Decoded Message → π} {s s' : Store}

/-- A stored message keeps its version with its content, or gets a later version. -/
def Moves (s s' : Store) : Prop :=
  ∀ id row, s.records.get? (.message, id) = some row →
    ∃ row', s'.records.get? (.message, id) = some row' ∧
      (row.revision < row'.revision ∨ row.revision = row'.revision ∧
        (s.serial id row < s'.serial id row' ∨ s.serial id row = s'.serial id row' ∧
          s.enriched id row = s'.enriched id row'))

theorem Moves.of_shelf (h : shelf s' = shelf s) : Moves s s' := by
  intro id row hrow
  obtain ⟨hrecords, hcache⟩ := Prod.mk.inj h
  have hcopy : s'.copy? id row = s.copy? id row := by
    rw [Store.copy?, hcache]
    rfl
  refine ⟨row, hrecords ▸ hrow, Or.inr ⟨rfl, Or.inr ⟨?_, ?_⟩⟩⟩
  · rw [Store.serial, Store.serial, hcopy]
  · rw [Store.enriched, Store.enriched, hcopy]

theorem Rewrites.moves (h : Rewrites s s') (hcalm : ¬UpgradesPaged s s') : Moves s s' := by
  intro id row hrow
  obtain ⟨row', hrow', hmoved⟩ := h id row hrow
  refine ⟨row', hrow', ?_⟩
  rcases hmoved with hlt | ⟨heq, ⟨rfl, hcopy⟩ | ⟨hdeferred, hfull, hserial⟩⟩
  · exact Or.inl hlt
  · refine Or.inr ⟨rfl, Or.inr ⟨?_, ?_⟩⟩
    · rw [Store.serial, Store.serial, hcopy]
    · rw [Store.enriched, Store.enriched, hcopy]
  · have hunpaged : s.copy? id row = none := by
      by_contra hpaged
      exact hcalm ⟨id, row, row', hrow, hrow', heq.symm, hdeferred, hfull,
        Option.isSome_iff_ne_none.mpr hpaged⟩
    refine Or.inr ⟨heq, Or.inl ?_⟩
    rw [hserial, Store.serial, hunpaged]
    exact Nat.zero_lt_one

theorem Paged.moves {id : Bytes} {row : RecordRow} {e : EnrichmentRow}
    (h : Paged id row e s s') : Moves s s' := by
  intro id' row' hrow'
  refine ⟨row', by rw [h.records, hrow'], Or.inr ⟨rfl, ?_⟩⟩
  have hcopy : s'.copy? id' row' =
      if id' = id then some e else s.copy? id' row' := by
    rw [Store.copy?, h.copies]
    split_ifs with hid
    · subst hid
      have hsame : row = row' := Option.some.inj (h.held.symm.trans hrow')
      exact Option.filter_some_pos (decide_eq_true (hsame ▸ h.revision))
    · rfl
  by_cases hid : id' = id
  · subst hid
    have hsame : row = row' := Option.some.inj (h.held.symm.trans hrow')
    rw [if_pos rfl] at hcopy
    refine Or.inl ?_
    rw [← hsame] at hcopy ⊢
    rw [Store.serial.eq_def s', hcopy]
    exact h.serial
  · rw [if_neg hid] at hcopy
    refine Or.inr ⟨?_, ?_⟩
    · rw [Store.serial, Store.serial, hcopy]
    · rw [Store.enriched, Store.enriched, hcopy]

/-- The record is of a stored message, and older than it or what would be made of it. -/
def Known (present : Decoded Message → π) (s : Store) (r : HistoryRecord π) : Prop :=
  ∃ row, s.records.get? (.message, r.message.id) = some row ∧
    (r.revision < row.revision ∨ r.revision = row.revision ∧
      (r.serial < s.serial r.message.id row ∨ r.serial = s.serial r.message.id row ∧
        s.fresh present ((.message, r.message.id), row) = .ok r))

theorem Known.moves {r : HistoryRecord π} (h : Known present s r) (hmoves : Moves s s') :
    Known present s' r := by
  obtain ⟨row, hrow, hversion⟩ := h
  obtain ⟨row', hrow', hmoved⟩ := hmoves _ row hrow
  refine ⟨row', hrow', ?_⟩
  rcases hversion with hlt | ⟨heq, hserial⟩
  · rcases hmoved with hlt' | ⟨heq', -⟩
    · exact Or.inl (hlt.trans hlt')
    · exact Or.inl (heq' ▸ hlt)
  · rcases hmoved with hlt' | ⟨heq', hmoved⟩
    · exact Or.inl (heq ▸ hlt')
    · refine Or.inr ⟨heq.trans heq', ?_⟩
      rcases hserial with hbefore | ⟨hsame, hfresh⟩
      · rcases hmoved with hafter | ⟨hsame', -⟩
        · exact Or.inl (hbefore.trans hafter)
        · exact Or.inl (hsame' ▸ hbefore)
      · rcases hmoved with hafter | ⟨hsame', hcontent⟩
        · exact Or.inl (hsame ▸ hafter)
        · refine Or.inr ⟨hsame.trans hsame', ?_⟩
          rw [Store.fresh] at hfresh ⊢
          dsimp only at hfresh ⊢
          rw [← hcontent, ← heq', ← hsame']
          exact hfresh

theorem Known.fits {r : HistoryRecord π} (h : Known present s r) : Fits present s r := by
  intro row hrow hrevision hserial
  obtain ⟨row', hrow', hversion⟩ := h
  have hsame : row' = row := Option.some.inj (hrow'.symm.trans hrow)
  subst hsame
  rcases hversion with hlt | ⟨-, hlt | ⟨-, hfresh⟩⟩
  · exact absurd hrevision hlt.ne
  · exact absurd hserial hlt.ne
  · exact hfresh

theorem fresh_known {r : HistoryRecord π} {row : (Kind × Bytes) × RecordRow} (h : Rows s)
    (hrow : Stored s row) (hfresh : s.fresh present row = .ok r) : Known present s r := by
  obtain ⟨⟨kind, id⟩, row⟩ := row
  obtain ⟨rfl, hget⟩ := hrow
  obtain ⟨raw, henriched, hid, -⟩ := h.enriched hget
  have hmade := hfresh
  rw [Store.fresh] at hmade
  dsimp only at hmade
  rw [henriched] at hmade
  have hr : HistoryRecord.create present raw row.revision (s.serial id row) = r := Except.ok.inj hmade
  have hmessage : r.message.id = id := by
    rw [← hr]
    exact hid
  rw [← hmessage] at hget hfresh
  refine ⟨row, hget, Or.inr ⟨?_, Or.inr ⟨?_, hfresh⟩⟩⟩
  · rw [← hr]
    rfl
  · rw [hmessage, ← hr]
    rfl

theorem mapM_known {rows : List ((Kind × Bytes) × RecordRow)} {history : List (HistoryRecord π)}
    (h : Rows s) (hrows : ∀ row ∈ rows, Stored s row)
    (hmap : rows.mapM (s.fresh present) = .ok history) : ∀ r ∈ history, Known present s r := by
  induction rows generalizing history with
  | nil =>
    rw [← Except.ok.inj hmap]
    exact fun _ hr => nomatch hr
  | cons row rest ih =>
    rw [List.mapM_cons] at hmap
    cases hfirst : s.fresh present row with
    | error e =>
      rw [hfirst] at hmap
      exact nomatch hmap
    | ok first =>
      cases hothers : rest.mapM (s.fresh present) with
      | error e =>
        rw [hfirst, hothers] at hmap
        exact nomatch hmap
      | ok others =>
        rw [hfirst, hothers] at hmap
        rw [← Except.ok.inj hmap]
        intro r hr
        rcases List.mem_cons.mp hr with rfl | hr
        · exact fresh_known h (hrows row List.mem_cons_self) hfirst
        · exact ih (fun row hrow => hrows row (List.mem_cons_of_mem _ hrow)) hothers r hr

end Pool

section Steps

variable {π : Type} {present : Decoded Message → π} {dec : Decoder} {codec : PageCodec}
  {s : Session π}

theorem beginSync_copies {epoch cursor : Bytes} :
    Sql.Advances KeepsCopies (beginSync epoch cursor) := by
  refine .bind .require fun _ => .bind .lift fun _ => .transaction (.bind .query fun _ =>
    .bind ?_ fun _ => .bind (.execute fun _ => .of_eq rfl) fun _ =>
    .bind (.execute fun _ => .of_eq rfl) fun _ => ?_)
  · unfold enterEpoch
    split_ifs
    · exact .pure
    · exact .execute fun _ _ _ _ h => nomatch h
  · exact .bind (.execute fun _ => .of_eq rfl) fun _ => .bind (.execute fun _ => .of_eq rfl)
      fun _ => .bind (.execute fun _ => .of_eq rfl) fun _ => .bind (.execute fun _ => .of_eq rfl)
      fun _ => .bind (.execute fun _ => .of_eq rfl) fun _ => .note fun _ => .of_eq rfl

theorem beginSync_shelf {epoch cursor : Bytes} (c : Conn Store Bytes)
    (hsame : ((beginSync epoch cursor).run c).2.db.epoch = c.db.epoch) :
    shelf ((beginSync epoch cursor).run c).2.db = shelf c.db := by
  rcases hrun : (beginSync epoch cursor).run c with ⟨e | u, c'⟩
  · have haborts : Sql.Aborts (beginSync epoch cursor) :=
      .bind .require fun _ => .bind .lift fun _ => .transaction
    exact congrArg shelf (haborts c e c' hrun)
  · rw [hrun] at hsame
    have hentered : c.db.epoch = epoch := hsame.symm.trans (beginSync_entered hrun).1
    obtain ⟨_, c₁, hvalid, hafterValid⟩ := Sql.bind_ok hrun
    obtain ⟨seq, c₂, hseq, htransaction⟩ := Sql.bind_ok hafterValid
    have hc₁ := (Sql.require_ok hvalid).2
    have hc₂ := (Sql.lift_ok hseq).2
    obtain ⟨d, d', hd, -, hbody, hd'⟩ := Sql.transaction_ok htransaction
    rw [hc₂, hc₁] at hd
    obtain ⟨current, d₁, hcurrent, hcurrentBody⟩ := Sql.bind_ok hbody
    obtain ⟨_, d₂, henter, hrest⟩ := Sql.bind_ok hcurrentBody
    obtain ⟨rfl, hd₁⟩ := Sql.query_ok hcurrent
    rw [enterEpoch, hd, if_pos hentered] at henter
    have hd₂ := (Sql.pure_ok henter).2
    have hkeeps : shelf d'.db = shelf d₂.db := by
      refine Sql.Keeps.run ?_ hrest
      exact .bind (.execute fun _ => rfl) fun _ => .bind (.execute fun _ => rfl) fun _ =>
        .bind (.execute fun _ => rfl) fun _ => .bind (.execute fun _ => rfl) fun _ =>
        .bind (.execute fun _ => rfl) fun _ => .bind (.execute fun _ => rfl) fun _ =>
        .bind (.execute fun _ => rfl) fun _ => .note fun _ => rfl
    change shelf c'.db = shelf c.db
    rw [hd', hkeeps, hd₂, hd₁, hd]

theorem aside_shelf {t t' : Store} (h : core t' = core t) : shelf t' = shelf t :=
  Prod.ext (congrArg (·.2.1) h) (congrArg (·.2.2.1) h)

theorem Rows.migrated {t : Store} (h : Rows t) (pruned : Bytes → Bool) :
    Rows (migrateHistoryCache pruned t) := by
  refine ⟨fun key row hrow => ?_, fun id e he => ?_⟩
  · obtain ⟨hget, -⟩ := Option.filter_eq_some_iff.mp ((Table.get?_deleteWhere _ _ _).symm.trans hrow)
    exact h.filed key row hget
  · obtain ⟨hget, -⟩ := Option.filter_eq_some_iff.mp ((Table.get?_deleteWhere _ _ _).symm.trans he)
    exact h.copied id e hget

theorem Worker.advance_rows {w : Worker} (h : Rows w.store) (a : Action) :
    Rows (w.advance dec a).store := by
  have hstep (hclear : a ≠ .clear) (hsync : ∀ env epoch cursor, a ≠ .sync env epoch cursor)
      (helsewhere : ∀ change, a ≠ .elsewhere change) : Copied (w.step dec a).store :=
    w.step_related (fun _ _ h => KeepsCopies.of_eq (congrArg Prod.snd (aside_shelf h)))
      (fun _ => writeStored_copies) a hclear hsync helsewhere h.copied
  have hfiled : Filed (w.step dec a).store := h.filed.step a
  cases a with
  | clear => exact ⟨fun _ _ hrow => (nomatch hrow), fun _ _ he => nomatch he⟩
  | sync env epoch cursor =>
    exact ⟨hfiled, beginSync_copies (w.conn env) h.copied⟩
  | elsewhere change => exact ⟨h.filed, h.copied⟩
  | _ => exact ⟨hfiled, hstep nofun nofun nofun⟩

theorem Worker.advance_moves {w : Worker} (a : Action) (hlives : a.forgets = false)
    (hepoch : (w.advance dec a).store.epoch = w.store.epoch)
    (hcalm : ¬UpgradesPaged w.store (w.advance dec a).store) :
    Moves w.store (w.advance dec a).store := by
  have hstep (hclear : a ≠ .clear) (hsync : ∀ env epoch cursor, a ≠ .sync env epoch cursor)
      (helsewhere : ∀ change, a ≠ .elsewhere change) : Rewrites w.store (w.step dec a).store :=
    w.step_related (fun _ _ h => .of_shelf (aside_shelf h)) (fun _ => writeStored_rewrites) a
      hclear hsync helsewhere
  cases a with
  | clear => exact nomatch hlives
  | sync env epoch cursor => exact .of_shelf (beginSync_shelf (w.conn env) hepoch)
  | elsewhere change => exact .of_shelf rfl
  | _ => exact (hstep nofun nofun nofun).moves hcalm

/-- The stored rows are what their keys say, and every history is known. -/
structure Session.Sound (present : Decoded Message → π) (s : Session π) : Prop where
  rows : Rows s.worker.store
  known : ∀ history ∈ s.histories, ∀ r ∈ history, Known present s.worker.store r

namespace Session.Sound

theorem initial : Session.Sound present ({} : Session π) :=
  ⟨⟨fun _ _ hrow => (nomatch hrow), fun _ _ he => (nomatch he)⟩, fun _ h => nomatch h⟩

theorem moved {s' : Session π} (h : s.Sound present) (hrows : Rows s'.worker.store)
    (hmoves : Moves s.worker.store s'.worker.store) (hhistories : s'.histories = s.histories) :
    s'.Sound present :=
  ⟨hrows, fun history hhistory r hr => (h.known history (hhistories ▸ hhistory) r hr).moves hmoves⟩

theorem create_none (h : s.Sound present) (selected : Bytes) (previous : Option Nat) :
    create present s.worker.store selected (previous.bind fun i => s.histories[i]?) =
      create present s.worker.store selected none := by
  cases hprevious : previous.bind fun i => s.histories[i]? with
  | none => rfl
  | some old =>
    obtain ⟨i, -, hold⟩ := Option.bind_eq_some_iff.mp hprevious
    have hknown := h.known old (List.mem_of_getElem? hold)
    exact create_fresh fun r hr => (hknown r hr).fits

theorem step (h : s.Sound present) (a : SessionAction)
    (hcalm : ¬UpgradesPaged s.worker.store (s.step dec codec present a).worker.store) :
    (s.step dec codec present a).Sound present := by
  cases a with
  | worker a =>
    have hrows : Rows (s.worker.advance dec a).store := Worker.advance_rows h.rows a
    change (s.advanced dec a).Sound present
    by_cases hforgets : a.forgets ∨ (s.worker.advance dec a).store.epoch ≠ s.worker.store.epoch
    · have hnone : (s.advanced dec a).histories = [] := by
        rw [Session.advanced]
        exact if_pos (by simpa using hforgets)
      exact ⟨hrows, fun history hhistory => by rw [hnone] at hhistory; exact nomatch hhistory⟩
    · rw [not_or, Bool.not_eq_true, not_not] at hforgets
      have hsame : (s.advanced dec a).histories = s.histories := by
        rw [Session.advanced]
        exact if_neg (by simp [hforgets.1, hforgets.2])
      exact h.moved hrows (Worker.advance_moves a hforgets.1 hforgets.2 hcalm) hsame
  | enrich env which raw id revision after =>
    have hpaged := @enrichmentSection_paged id codec which raw revision after (s.worker.conn env)
      h.rows
    rcases hpaged with hshelf | ⟨row, e, hpaged⟩
    · have hrows : Rows (s.worker.writing env
          (enrichmentSection codec which raw id revision after)).store :=
        ⟨Files.of_records (congrArg Prod.fst hshelf) h.rows.filed,
          KeepsCopies.of_eq (congrArg Prod.snd hshelf) h.rows.copied⟩
      exact h.moved hrows (.of_shelf hshelf) rfl
    · exact h.moved (hpaged.rows h.rows) hpaged.moves rfl
  | reopen pruned => exact ⟨h.rows.migrated pruned, fun _ hhistory => nomatch hhistory⟩
  | snapshot selected previous =>
    change (s.snapshot present selected previous).Sound present
    unfold Session.snapshot
    rw [h.create_none]
    split
    · next history hcreate =>
      refine ⟨h.rows, fun old hold r hr => ?_⟩
      rcases List.mem_append.mp hold with hold | hold
      · exact h.known old hold r hr
      · rw [List.mem_singleton.mp hold] at hr
        exact mapM_known h.rows (fun row => historyRows_stored) hcreate r hr
    · exact h

end Session.Sound

end Steps

/-- In every run that upgrades no text projection for which a page of metadata was kept,
each history of the epoch yields what a fresh build does. -/
theorem history_fresh {π : Type} (dec : Decoder) (codec : PageCodec)
    (present : Decoded Message → π) (actions : List SessionAction)
    (hcalm : ∀ before a after, actions = before ++ a :: after →
      ¬UpgradesPaged ((session dec codec present).run {} before).worker.store
        ((session dec codec present).run {} (before ++ [a])).worker.store)
    (selected : Bytes) (previous : List (HistoryRecord π))
    (hprevious : previous ∈ ((session dec codec present).run {} actions).histories) :
    create present ((session dec codec present).run {} actions).worker.store selected
        (some previous) =
      create present ((session dec codec present).run {} actions).worker.store selected none := by
  have hsound : ((session dec codec present).run {} actions).Sound present := by
    refine (session dec codec present).run_invariant_when (I := fun s => s.Sound present)
      (C := fun s a => ¬UpgradesPaged s.worker.store (s.step dec codec present a).worker.store)
      (fun s a h hcalm => h.step a hcalm) {} actions .initial fun before a after hsplit => ?_
    have hstep := hcalm before a after hsplit
    rw [Machine.run_append] at hstep
    exact hstep
  exact create_fresh fun r hr => (hsound.known previous hprevious r hr).fits

namespace Sample

def thread : Bytes := text "UAAAAAAAAAAAAAAAAAAAAA"
def pictured : Bytes := text "VAAAAAAAAAAAAAAAAAAAAA"

def captioned (body : Bytes) (deferred : Bool) : Decoded Message where
  value := {
    id := pictured
    revision := 1
    conversationId := thread
    sender := text "peer"
    direction := .incoming
    service := text "imessage"
    timestamp := text "2026-01-01T00:00:00Z"
    kind := .text
    text := some body
    decoding := .plain
    observedStatus := .received
    enrichment := some { parts := { total := 2, complete := false } }
    metadataDeferred := deferred }
  raw := text "{}"

def firstPage : SectionPage where
  messageId := pictured
  revision := decimal 1
  «section» := .parts
  items := [{ value := .part { id := text "text", kind := .text }, raw := text "{}" }]
  total := 2
  next := some (text "1")

def pages : PageCodec where
  page _ _ := .ok firstPage
  message _ := text "{}"

def unstreamed : Decoder where
  event _ := .error .invalidEvent
  conversation _ := .error .invalidRecord
  message _ := .error .invalidRecord
  request _ := .error .invalidRecord
  identity _ := .error .invalidRecord

def paged : List SessionAction := [
  .worker (.respond {} (.history thread [captioned (text "full") false] none)),
  .snapshot thread none,
  .enrich {} .parts (text "{}") pictured (decimal 1) []]

def upgraded : List SessionAction := [
  .worker (.respond {} (.history thread [captioned (text "first") true] none)),
  .enrich {} .parts (text "{}") pictured (decimal 1) [],
  .snapshot thread none,
  .worker (.respond {} (.hydrate pictured (captioned (text "full") false)))]

end Sample

theorem calm_of_full {s s' : Store}
    (h : ∀ r ∈ s.records.rows, r.2.record.metadataDeferred = false) : ¬UpgradesPaged s s' := by
  rintro ⟨id, row, row', hrow, -, -, hdeferred, -⟩
  have hfull := h _ ((Table.get?_eq_some_iff _ _ _).mp hrow)
  rw [hdeferred] at hfull
  exact nomatch hfull

theorem history_fresh_paged :
    ∃ previous,
      previous ∈ ((session Sample.unstreamed Sample.pages fun _ => ()).run {} Sample.paged).histories ∧
        create (fun _ => ())
            ((session Sample.unstreamed Sample.pages fun _ => ()).run {} Sample.paged).worker.store
            Sample.thread (some previous) =
          create (fun _ => ())
            ((session Sample.unstreamed Sample.pages fun _ => ()).run {} Sample.paged).worker.store
            Sample.thread none := by
  have hcalm (before : List SessionAction) (a : SessionAction) (after : List SessionAction)
      (hsplit : Sample.paged = before ++ a :: after) :
      ¬UpgradesPaged
        ((session Sample.unstreamed Sample.pages fun _ => ()).run {} before).worker.store
        ((session Sample.unstreamed Sample.pages fun _ => ()).run {} (before ++ [a])).worker.store := by
    have hfull : ∀ n < 3, ∀ r ∈ ((session Sample.unstreamed Sample.pages fun _ => ()).run {}
        (Sample.paged.take n)).worker.store.records.rows, r.2.record.metadataDeferred = false := by
      decide +kernel
    have hlength : Sample.paged.length = before.length + (after.length + 1) := by
      rw [hsplit, List.length_append, List.length_cons]
    have hbefore : Sample.paged.take before.length = before := by
      rw [hsplit, List.take_left]
    have hrows := hfull before.length (by change 3 = _ at hlength; omega)
    rw [hbefore] at hrows
    exact calm_of_full hrows
  have hone : ((session Sample.unstreamed Sample.pages fun _ => ()).run {}
      Sample.paged).histories ≠ [] := by decide +kernel
  obtain ⟨previous, hprevious⟩ := List.exists_mem_of_ne_nil _ hone
  exact ⟨previous, hprevious, history_fresh _ _ _ _ hcalm Sample.thread previous hprevious⟩

theorem history_fresh_upgraded :
    ∃ previous,
      previous ∈
          ((session Sample.unstreamed Sample.pages fun _ => ()).run {} Sample.upgraded).histories ∧
        create (fun _ => ())
            ((session Sample.unstreamed Sample.pages fun _ => ()).run {} Sample.upgraded).worker.store
            Sample.thread (some previous) ≠
          create (fun _ => ())
            ((session Sample.unstreamed Sample.pages fun _ => ()).run {} Sample.upgraded).worker.store
            Sample.thread none := by
  have hstale : ∃ previous ∈
      ((session Sample.unstreamed Sample.pages fun _ => ()).run {} Sample.upgraded).histories,
        (create (fun _ => ())
          ((session Sample.unstreamed Sample.pages fun _ => ()).run {} Sample.upgraded).worker.store
          Sample.thread (some previous)).toOption ≠
        (create (fun _ => ())
          ((session Sample.unstreamed Sample.pages fun _ => ()).run {} Sample.upgraded).worker.store
          Sample.thread none).toOption := by
    decide +kernel
  obtain ⟨previous, hprevious, hne⟩ := hstale
  exact ⟨previous, hprevious, fun hsame => hne (congrArg Except.toOption hsame)⟩

end Zimbr.Client
