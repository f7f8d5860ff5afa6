import Zimbr.Relay.System

set_option autoImplicit false

/-!
# What the operations of the upload ledger commit

Each of them rewrites rows of the ledger and nothing else, and none of them
rewrites a pinned one. An operation that fails changes nothing.
-/
namespace Zimbr.Relay
open Library

variable {c c' : Conn Journal Bytes} {now : Int} {u : Unit}

theorem Kept.refl (j : Journal) : Kept j j := ⟨⟨j.uploads, rfl⟩, fun _ _ hr _ => hr⟩

theorem Kept.of_eq {j j' : Journal} (h : j' = j) : Kept j j' := by
  rw [h]
  exact Kept.refl j

namespace Uploads

theorem setPhase_get? (p : Bytes → UploadRow → Bool) (phase : Phase) (j : Journal) (id : Bytes) :
    (setPhase p phase j).uploads.get? id = (j.uploads.get? id).map fun r =>
      if p id r then { r with state := phase } else r := by
  rw [setPhase, Table.get?_modifyWhere]

theorem setPhase_kept {p : Bytes → UploadRow → Bool} {phase : Phase} {j : Journal}
    (h : ∀ id r, j.uploads.get? id = some r → p id r = true → r.state ≠ .pinned) :
    Kept j (setPhase p phase j) := by
  refine ⟨⟨_, rfl⟩, fun id r hr hpinned => ?_⟩
  rw [setPhase_get?, hr, Option.map_some, if_neg fun hp => h id r hr hp hpinned]

theorem setPhase_eq_self {p : Bytes → UploadRow → Bool} {phase : Phase} {j : Journal}
    (h : ∀ id r, j.uploads.get? id = some r → p id r = false) : setPhase p phase j = j := by
  rw [setPhase, Table.modifyWhere_eq_self h]

theorem leased_id {lease : Lease} {id : Bytes} {r : UploadRow} (h : leased lease id r = true) :
    id = lease.file.id ∧ r.epoch = lease.serverEpoch ∧ r.lease = lease.token ∧
      r.state = .receiving := by
  simpa [leased, and_assoc] using h

theorem checkEpoch_reads (epoch : Bytes) : Sql.Reads (checkEpoch epoch) := by
  apply Sql.Reads.bind Sql.Reads.require
  intro _
  exact Sql.Reads.bind Sql.Reads.query fun _ => Sql.Reads.require

theorem checkEpoch_ok {epoch : Bytes} (h : (checkEpoch epoch).run c = (.ok u, c')) :
    validId epoch = true ∧ epoch = c.db.epoch ∧ c'.db = c.db := by
  have hdb := (checkEpoch_reads epoch).ok h
  obtain ⟨_, c₁, hvalid, h⟩ := Sql.bind_ok h
  obtain ⟨hvalid, hc₁⟩ := Sql.require_ok hvalid
  obtain ⟨current, c₂, hcurrent, h⟩ := Sql.bind_ok h
  have hepoch : epoch = current := by simpa using (Sql.require_ok h).1
  refine ⟨hvalid, ?_, hdb⟩
  rw [hepoch, (Sql.query_ok hcurrent).1, hc₁]

def reservation (owner epoch : Bytes) (file : Upload) (size : Nat) (now : Int) : UploadRow where
  epoch := epoch
  owner := owner
  record := file
  bytes := size
  state := .reserved
  createdMs := now

/-- A new reservation found room in the ledger. -/
structure Admitted (owner epoch : Bytes) (file : Upload) (now : Int) (size : Nat)
    (uploads : Table Bytes UploadRow) (j j' : Journal) : Prop where
  declared : Attachments.validate file = .ok size
  valid : validId epoch = true
  current : epoch = j.epoch
  count : j.uploads.rows.length < maxReservations
  bytes : (j.uploads.rows.map fun r => r.2.bytes).sum + size ≤ maxReservedBytes
  inserted : j.uploads.insert file.id (reservation owner epoch file size now) = some uploads
  effect : j' = { j with uploads := uploads }

/-- A reservation inserts its row, or finds the row of an exact retry. -/
theorem reserve_ok {owner epoch : Bytes} {file : Upload} {found : Found}
    (h : (reserve owner epoch file now).run c = (.ok found, c')) :
    (c'.db = c.db ∧ ∃ r, c.db.uploads.get? file.id = some r ∧ r.owner = owner ∧ r.epoch = epoch ∧
        r.record = file) ∨
      ∃ size uploads, Admitted owner epoch file now size uploads c.db c'.db := by
  obtain ⟨size, c₁, hsize, h⟩ := Sql.bind_ok h
  obtain ⟨hsize, hc₁⟩ := Sql.lift_mapError_ok hsize
  rw [hc₁] at h
  obtain ⟨c₂, c₃, hdb₂, -, h, hend⟩ := Sql.transaction_ok h
  rw [hend, ← hdb₂]
  obtain ⟨_, c₄, hcheck, h⟩ := Sql.bind_ok h
  obtain ⟨hvalid, hcurrent, hdb₄⟩ := checkEpoch_ok hcheck
  obtain ⟨existing, c₅, hexisting, h⟩ := Sql.bind_ok h
  obtain ⟨hexisting, hdb₅⟩ := Sql.query_ok hexisting
  rw [← hdb₄] at hcurrent ⊢
  rw [← hdb₅] at hcurrent hexisting ⊢
  cases existing with
  | some r =>
    obtain ⟨_, c₆, howner, h⟩ := Sql.bind_ok h
    obtain ⟨_, c₇, hepoch, h⟩ := Sql.bind_ok h
    obtain ⟨_, c₈, hrecord, h⟩ := Sql.bind_ok h
    obtain ⟨howner, hc₆⟩ := Sql.require_ok howner
    obtain ⟨hepoch, hc₇⟩ := Sql.require_ok hepoch
    obtain ⟨hrecord, hc₈⟩ := Sql.require_ok hrecord
    refine Or.inl ⟨?_, r, hexisting.symm, by simpa using howner, by simpa using hepoch,
      by simpa using hrecord⟩
    rw [(uploads_lookup_reads owner epoch file.id).ok h, hc₈, hc₇, hc₆]
  | none =>
    obtain ⟨count, c₆, hcount, h⟩ := Sql.bind_ok h
    obtain ⟨hcount, hdb₆⟩ := Sql.query_ok hcount
    obtain ⟨used, c₇, hused, h⟩ := Sql.bind_ok h
    obtain ⟨hused, hdb₇⟩ := Sql.query_ok hused
    obtain ⟨_, c₈, hquota, h⟩ := Sql.bind_ok h
    obtain ⟨hquota, hc₈⟩ := Sql.require_ok hquota
    obtain ⟨_, c₉, hinsert, h⟩ := Sql.bind_ok h
    have hinsert := Sql.execute?_ok hinsert
    rw [Option.map_eq_some_iff, hc₈, hdb₇, hdb₆] at hinsert
    obtain ⟨uploads, hinsert, hdb₉⟩ := hinsert
    rw [hdb₆] at hused
    rw [hcount, hused, Bool.and_eq_true, decide_eq_true_eq, decide_eq_true_eq] at hquota
    refine Or.inr ⟨size, uploads, ?_⟩
    exact {
      declared := hsize
      valid := hvalid
      current := hcurrent
      count := hquota.1
      bytes := hquota.2
      inserted := hinsert
      effect := by rw [(uploads_lookup_reads owner epoch file.id).ok h, ← hdb₉] }

theorem reserve_kept {owner epoch : Bytes} {file : Upload} {found : Found}
    (h : (reserve owner epoch file now).run c = (.ok found, c')) : Kept c.db c'.db := by
  rcases reserve_ok h with ⟨hdb, -⟩ | ⟨size, uploads, hadmitted⟩
  · exact .of_eq hdb
  · rw [hadmitted.effect]
    refine ⟨⟨uploads, rfl⟩, fun id r hr _ => ?_⟩
    have hne : id ≠ file.id := by
      intro heq
      rw [heq, Table.get?_of_insert hadmitted.inserted] at hr
      exact nomatch hr
    rw [Table.get?_insert hadmitted.inserted, if_neg hne]
    exact hr

def claimedRow (token : Bytes) (r : UploadRow) : UploadRow :=
  { r with state := .receiving, lease := token }

/-- A claim draws a new token for a reserved row, or finds the upload complete. -/
theorem claim_ok {owner epoch id : Bytes} {claimed : Claim}
    (h : (claim owner epoch id).run c = (.ok claimed, c')) :
    (∃ found, claimed = .complete found ∧ c'.db = c.db) ∨
      ∃ r, ∃ token ∈ c.fresh, c.db.uploads.get? id = some r ∧ r.owner = owner ∧
        r.epoch = c.db.epoch ∧ r.state = .reserved ∧
        claimed = .write { serverEpoch := r.epoch, file := r.record, token := token } ∧
        c'.db = { c.db with uploads := c.db.uploads.modify id (claimedRow token) } := by
  obtain ⟨c₁, c₂, hdb₁, hfresh₁, h, hend⟩ := Sql.transaction_ok h
  rw [hend, ← hdb₁, ← hfresh₁]
  obtain ⟨found, c₃, hfound, h⟩ := Sql.bind_ok h
  have hdb₃ := (uploads_lookup_reads owner epoch id).ok hfound
  obtain ⟨⟨-, hepoch, hfresh₃⟩, r, hr, howner, hrow, -, rfl⟩ := uploads_lookup_ok hfound
  split at h
  · exact Or.inl ⟨_, (Sql.pure_ok h).1, (congrArg Conn.db (Sql.pure_ok h).2).trans hdb₃⟩
  · exact Or.inl ⟨_, (Sql.pure_ok h).1, (congrArg Conn.db (Sql.pure_ok h).2).trans hdb₃⟩
  · exact (Sql.throw_ok h).elim
  · exact (Sql.throw_ok h).elim
  · next hstate =>
    obtain ⟨token, c₄, hdraw, h⟩ := Sql.bind_ok h
    obtain ⟨_, c₅, hset, h⟩ := Sql.bind_ok h
    obtain ⟨hdraw, hdb₄⟩ := Sql.draw_ok hdraw
    refine Or.inr ⟨r, token, ?_, hr, howner, hrow.trans hepoch, hstate, (Sql.pure_ok h).1, ?_⟩
    · rw [← hfresh₃]
      exact hdraw
    · rw [(Sql.pure_ok h).2, Sql.execute_ok hset, hdb₄, hdb₃]
      rfl

theorem claim_kept {owner epoch id : Bytes} {claimed : Claim}
    (h : (claim owner epoch id).run c = (.ok claimed, c')) : Kept c.db c'.db := by
  rcases claim_ok h with ⟨found, -, hdb⟩ | ⟨r, token, -, hr, -, -, hstate, -, hdb⟩
  · exact .of_eq hdb
  · rw [hdb]
    refine ⟨⟨_, rfl⟩, fun id' r' hr' hpinned => ?_⟩
    have hne : id' ≠ id := by
      intro heq
      rw [heq, hr, Option.some.injEq] at hr'
      rw [← hr', hstate] at hpinned
      exact nomatch hpinned
    rw [Table.get?_modify, if_neg hne]
    exact hr'

theorem complete_ok {lease : Lease} (h : (complete lease).run c = (.ok u, c')) :
    lease.serverEpoch = c.db.epoch ∧ (∃ r, c.db.uploads.get? lease.file.id = some r ∧
      leased lease lease.file.id r = true) ∧ c'.db = setPhase (leased lease) .ready c.db := by
  obtain ⟨epoch, c₁, hepoch, h⟩ := Sql.bind_ok h
  obtain ⟨hepoch, hdb₁⟩ := Sql.query_ok hepoch
  obtain ⟨_, c₂, hcurrent, h⟩ := Sql.bind_ok h
  obtain ⟨hcurrent, hc₂⟩ := Sql.require_ok hcurrent
  obtain ⟨changes, c₃, hset, h⟩ := Sql.bind_ok h
  have hset := (Sql.statement_ok hset).1
  obtain ⟨hchanges, hc'⟩ := Sql.require_ok h
  simp only [Option.some.injEq, Prod.mk.injEq] at hset
  rw [hc₂, hdb₁] at hset
  refine ⟨by rw [← hepoch]; simpa using hcurrent, ?_, by rw [hc', ← hset.2]⟩
  have hne : c.db.uploads.select (leased lease) ≠ [] := by
    intro hnil
    rw [hnil] at hset
    simp [← hset.1] at hchanges
  obtain ⟨q, hq⟩ := List.exists_mem_of_ne_nil _ hne
  obtain ⟨hget, hleased⟩ := Table.get?_select.mp hq
  rw [(leased_id hleased).1] at hget hleased
  exact ⟨q.2, hget, hleased⟩

theorem leased_kept {lease : Lease} {phase : Phase} {j : Journal} :
    Kept j (setPhase (leased lease) phase j) := by
  apply setPhase_kept
  intro id r _ hleased hpinned
  rw [(leased_id hleased).2.2.2] at hpinned
  exact nomatch hpinned

theorem select_leased (lease : Lease) (j : Journal) :
    (j.uploads.select (leased lease)).length ≤ 1 := by
  apply Table.select_length_le_one lease.file.id
  intro id r hleased
  exact (leased_id hleased).1

theorem complete_aborts (lease : Lease) : Sql.Aborts (complete lease) := by
  intro c e c' h
  rcases Sql.bind_error h with h | ⟨epoch, c₁, hepoch, h⟩
  · exact Sql.Reads.query.aborts _ _ _ h
  · rw [← (Sql.query_ok hepoch).2]
    rcases Sql.bind_error h with h | ⟨_, c₂, hcurrent, h⟩
    · exact Sql.Reads.require.aborts _ _ _ h
    · rw [← (Sql.require_ok hcurrent).2]
      rcases Sql.bind_error h with h | ⟨changes, c₃, hset, h⟩
      · exact Sql.Aborts.statement _ _ _ h
      · have hset := (Sql.statement_ok hset).1
        simp only [Option.some.injEq, Prod.mk.injEq] at hset
        rw [Sql.Reads.require.aborts _ _ _ h, ← hset.2]
        apply setPhase_eq_self
        intro id r hr
        by_contra hleased
        have hmem : (id, r) ∈ c₂.db.uploads.select (leased lease) :=
          Table.get?_select.mpr ⟨hr, by simpa using hleased⟩
        have hone : changes = 1 := by
          have hle := select_leased lease c₂.db
          have hpos := List.length_pos_of_mem hmem
          omega
        rw [hone] at h
        simp at h

theorem abandon_ok {lease : Lease} (h : (abandon lease).run c = (.ok u, c')) :
    c'.db = setPhase (leased lease) .reserved c.db := by
  unfold abandon at h
  exact Sql.execute_ok h

theorem abandon_aborts (lease : Lease) : Sql.Aborts (abandon lease) := by
  unfold abandon
  exact .execute

theorem cancel_ok {owner epoch id : Bytes} (h : (cancel owner epoch id).run c = (.ok u, c')) :
    ∃ r, c.db.uploads.get? id = some r ∧ r.owner = owner ∧
      (r.state = .reserved ∨ r.state = .ready) ∧
      c'.db = setPhase (fun id' _ => id' = id) .deleting c.db := by
  obtain ⟨c₁, c₂, hdb₁, -, h, hend⟩ := Sql.transaction_ok h
  rw [hend, ← hdb₁]
  obtain ⟨found, c₃, hfound, h⟩ := Sql.bind_ok h
  have hdb₃ := (uploads_lookup_reads owner epoch id).ok hfound
  obtain ⟨-, r, hr, howner, -, -, rfl⟩ := uploads_lookup_ok hfound
  split at h
  · exact (Sql.throw_ok h).elim
  · exact (Sql.throw_ok h).elim
  · exact (Sql.throw_ok h).elim
  · next hstate => exact ⟨r, hr, howner, Or.inl hstate, by rw [Sql.execute_ok h, hdb₃]⟩
  · next hstate => exact ⟨r, hr, howner, Or.inr hstate, by rw [Sql.execute_ok h, hdb₃]⟩

theorem cancel_kept {owner epoch id : Bytes} (h : (cancel owner epoch id).run c = (.ok u, c')) :
    Kept c.db c'.db := by
  obtain ⟨r, hr, -, hstate, hdb⟩ := cancel_ok h
  rw [hdb]
  apply setPhase_kept
  intro id' r' hr' hid hpinned
  rw [of_decide_eq_true hid, hr, Option.some.injEq] at hr'
  rw [hr', hpinned] at hstate
  rcases hstate with hstate | hstate <;> exact nomatch hstate

/-- The rows that `expire` retires. -/
def expired (now : Int) (epoch : Bytes) (r : UploadRow) : Bool :=
  (r.state = .reserved || r.state = .ready) &&
    (r.createdMs < now - unusedLifetimeMs || r.epoch != epoch)

theorem expire_ok (h : (expire now).run c = (.ok u, c')) :
    c'.db = setPhase (fun _ r => expired now c.db.epoch r) .deleting c.db := by
  unfold expire at h
  exact Sql.execute_ok h

theorem expired_state {epoch : Bytes} {r : UploadRow} (h : expired now epoch r = true) :
    r.state = .reserved ∨ r.state = .ready := by
  simp only [expired, Bool.and_eq_true, Bool.or_eq_true, decide_eq_true_eq] at h
  exact h.1

theorem expire_kept (h : (expire now).run c = (.ok u, c')) : Kept c.db c'.db := by
  rw [expire_ok h]
  apply setPhase_kept
  intro id r _ hexpired hpinned
  rcases expired_state hexpired with hstate | hstate <;> rw [hstate] at hpinned <;>
    exact nomatch hpinned

theorem expire_aborts : Sql.Aborts (expire now) := by
  unfold expire
  exact .execute

theorem purge_ok {id : Bytes} (h : (purge id).run c = (.ok u, c')) :
    c'.db = { c.db with
      uploads := c.db.uploads.deleteWhere fun id' r => id' = id && r.state = .deleting } := by
  unfold purge at h
  exact Sql.execute_ok h

theorem purge_kept {id : Bytes} (h : (purge id).run c = (.ok u, c')) : Kept c.db c'.db := by
  rw [purge_ok h]
  refine ⟨⟨_, rfl⟩, fun id' r hr hpinned => ?_⟩
  rw [Table.get?_deleteWhere, hr, Option.filter_eq_some_iff]
  exact ⟨rfl, by simp [hpinned]⟩

theorem purge_aborts (id : Bytes) : Sql.Aborts (purge id) := by
  unfold purge
  exact .execute

theorem recover_ok (h : recover.run c = (.ok u, c')) :
    c'.db = setPhase (fun _ r => r.state = .receiving) .reserved c.db := by
  unfold recover at h
  exact Sql.execute_ok h

theorem recover_kept (h : recover.run c = (.ok u, c')) : Kept c.db c'.db := by
  rw [recover_ok h]
  apply setPhase_kept
  intro id r _ hreceiving hpinned
  rw [of_decide_eq_true hreceiving] at hpinned
  exact nomatch hpinned

theorem recover_aborts : Sql.Aborts recover := by
  unfold recover
  exact .execute

end Uploads

end Zimbr.Relay
