import Zimbr.Library.Twins
import Zimbr.Library.Zoom
import Zimbr.Relay.Quota

set_option autoImplicit false

/-!
# Devices do not see each other's uploads

What a device reads and writes of the upload ledger depends on its own rows,
and nothing that is done for it changes a row of another device.
-/
namespace Zimbr.Relay
open Library

def rowsOf (owner : Bytes) (j : Journal) (id : Bytes) : Option UploadRow :=
  (j.uploads.get? id).filter fun r => r.owner = owner

structure Alike (owner : Bytes) (j j' : Journal) : Prop where
  epoch : j'.epoch = j.epoch
  rows : rowsOf owner j' = rowsOf owner j

section Ledger

variable {owner other : Bytes}

theorem rowsOf_modify {j : Journal} {id : Bytes} {f : UploadRow → UploadRow}
    (hf : ∀ r, (f r).owner = r.owner) (id' : Bytes) :
    rowsOf owner { j with uploads := j.uploads.modify id f } id' =
      if id' = id then (rowsOf owner j id').map f else rowsOf owner j id' := by
  unfold rowsOf
  dsimp only
  rw [Table.get?_modify]
  split_ifs
  · cases j.uploads.get? id' with
    | none => rfl
    | some r =>
      rw [Option.map_some, Option.filter_some, Option.filter_some, hf]
      split_ifs <;> rfl
  · rfl

theorem rowsOf_setPhase {j : Journal} {p : Bytes → UploadRow → Bool} {phase : Phase}
    (id : Bytes) :
    rowsOf owner (Uploads.setPhase p phase j) id =
      (rowsOf owner j id).map fun r => if p id r then { r with state := phase } else r := by
  unfold rowsOf
  rw [Uploads.setPhase_get?]
  cases j.uploads.get? id with
  | none => rfl
  | some r =>
    rw [Option.map_some, Option.filter_some, Option.filter_some]
    have howner : (if p id r then { r with state := phase } else r).owner = r.owner := by
      split_ifs <;> rfl
    rw [howner]
    split_ifs <;> simp_all

theorem Alike.modify {j j' : Journal} (h : Alike owner j j') {id : Bytes}
    {f : UploadRow → UploadRow} (hf : ∀ r, (f r).owner = r.owner) :
    Alike owner { j with uploads := j.uploads.modify id f }
      { j' with uploads := j'.uploads.modify id f } := by
  refine ⟨h.epoch, funext fun id' => ?_⟩
  rw [rowsOf_modify hf, rowsOf_modify hf, h.rows]

theorem Alike.setPhase {j j' : Journal} (h : Alike owner j j') {p : Bytes → UploadRow → Bool}
    {phase : Phase} : Alike owner (Uploads.setPhase p phase j) (Uploads.setPhase p phase j') := by
  refine ⟨h.epoch, funext fun id => ?_⟩
  rw [rowsOf_setPhase, rowsOf_setPhase, h.rows]

end Ledger

namespace Uploads

section Mirrored

variable {owner epoch : Bytes}

theorem lookup_mirrors (id : Bytes) :
    Sql.Mirrors (Alike owner) (lookup owner epoch id) := by
  refine .bind .require fun _ => .bind ?_ fun _ => .bind ?_ fun row => ?_
  · exact .bind .require fun _ => .bind (.query fun _ _ h => h.epoch) fun _ => .require
  · exact .query fun _ _ h => congrFun h.rows id
  · cases row with
    | none => exact .throw
    | some r => exact .bind .require fun _ => .pure

theorem claim_mirrors (id : Bytes) : Sql.Mirrors (Alike owner) (claim owner epoch id) := by
  refine .transaction (.bind (lookup_mirrors id) fun found => ?_)
  split
  · exact .pure
  · exact .pure
  · exact .throw
  · exact .throw
  · refine .bind .draw fun token => .bind (.execute fun _ _ h => ?_) fun _ => .pure
    exact h.modify fun _ => rfl

theorem cancel_mirrors (id : Bytes) : Sql.Mirrors (Alike owner) (cancel owner epoch id) := by
  refine .transaction (.bind (lookup_mirrors id) fun found => ?_)
  split
  · exact .throw
  · exact .throw
  · exact .throw
  · exact .execute fun _ _ h => h.setPhase
  · exact .execute fun _ _ h => h.setPhase

theorem pin_mirrors (files : List Upload) (requestId : Bytes) :
    Sql.Mirrors (Alike owner) (pin owner epoch files requestId) := by
  refine .bind .lift fun _ => .bind (.each (fun file => ?_) files) fun _ =>
    .each (fun file => ?_) files
  · refine .bind (lookup_mirrors file.id) fun found => ?_
    split
    · exact .throw
    · exact .throw
    · exact .throw
    · exact .throw
    · exact .require
  · exact .execute fun _ _ h => h.modify fun _ => rfl

end Mirrored

section Confined

variable {owner other epoch : Bytes}

theorem rowsOf_other {j : Journal} {id : Bytes} {r : UploadRow} (hother : other ≠ owner)
    (hr : j.uploads.get? id = some r) (howner : r.owner = owner) : rowsOf other j id = none := by
  unfold rowsOf
  rw [hr, Option.filter_some, if_neg]
  simpa [howner] using hother.symm

theorem reserve_confined (hother : other ≠ owner) (file : Upload) (now : Int) :
    Sql.Keeps (rowsOf other) (reserve owner epoch file now) := by
  refine .of_ok (reserve_aborts owner epoch file) fun c found c' h => ?_
  rcases reserve_ok h with ⟨hdb, -⟩ | ⟨size, uploads, hadmitted⟩
  · rw [hdb]
  · funext id
    rw [hadmitted.effect]
    unfold rowsOf
    dsimp only
    rw [Table.get?_insert hadmitted.inserted]
    split_ifs with hid
    · rw [hid, Table.get?_of_insert hadmitted.inserted, Option.filter_some, if_neg]
      · rfl
      · exact fun howner => hother (of_decide_eq_true howner).symm
    · rfl

theorem claim_confined (hother : other ≠ owner) (id : Bytes) :
    Sql.Keeps (rowsOf other) (claim owner epoch id) := by
  refine .of_ok .transaction fun c claimed c' h => ?_
  rcases claim_ok h with ⟨found, -, hdb⟩ | ⟨r, token, -, hr, howner, -, -, -, hdb⟩
  · rw [hdb]
  · funext id'
    rw [hdb, rowsOf_modify (f := claimedRow token) fun _ => rfl]
    split_ifs with hid
    · rw [hid, rowsOf_other hother hr howner]
      rfl
    · rfl

theorem cancel_confined (hother : other ≠ owner) (id : Bytes) :
    Sql.Keeps (rowsOf other) (cancel owner epoch id) := by
  refine .of_ok .transaction fun c u c' h => ?_
  obtain ⟨r, hr, howner, -, hdb⟩ := cancel_ok h
  funext id'
  rw [hdb, rowsOf_setPhase]
  by_cases hid : id' = id
  · rw [hid, rowsOf_other hother hr howner]
    rfl
  · cases hrow : rowsOf other c.db id' with
    | none => rfl
    | some r' => simp [hid]

theorem pinnableAll_ok {files : List Upload} {c c' : Conn Journal Bytes} {u : Unit}
    (h : (Sql.each (pinnable owner epoch) files).run c = (.ok u, c')) :
    ∀ file ∈ files, ∃ r, c.db.uploads.get? file.id = some r ∧ r.owner = owner := by
  induction files generalizing c with
  | nil => simp
  | cons first rest ih =>
    obtain ⟨_, c₁, hfirst, hrest⟩ := Sql.bind_ok h
    obtain ⟨r, hr, -, howner, -⟩ := pinnable_ok hfirst
    have hdb := (pinnable_reads owner epoch first).ok hfirst
    intro file hfile
    rcases List.mem_cons.mp hfile with rfl | hfile
    · exact ⟨r, hr, howner⟩
    · rw [← hdb]
      exact ih hrest file hfile

theorem pin_confined (hother : other ≠ owner) (files : List Upload) (requestId : Bytes) :
    Sql.Keeps (rowsOf other) (pin owner epoch files requestId) := by
  intro c
  have hread (file : Upload) : Sql.Reads (pinnable owner epoch file) := pinnable_reads owner epoch file
  have hstays : Sql.Stays (fun j => rowsOf other j = rowsOf other c.db)
      (pin owner epoch files requestId) := by
    refine .lift fun _ _ => .bind_of (R := fun _ => ∀ file ∈ files, rowsOf other c.db file.id = none)
      (.each fun file _ => .of_keeps (f := id) (.of_reads (hread file)) fun _ _ h hj => ?_) ?_ ?_
    · rw [id_eq, id_eq] at h
      rw [h]
      exact hj
    · intro c₁ _ c₂ hj h file hfile
      obtain ⟨r, hr, howner⟩ := pinnableAll_ok h file hfile
      rw [← hj]
      exact rowsOf_other hother hr howner
    · intro _ hnone
      refine .each fun file hfile c₁ hj => ?_
      unfold bindTo
      rcases hrun : (Sql.execute fun j : Journal => { j with
          uploads := j.uploads.modify file.id fun r =>
            { r with state := .pinned, requestId := some requestId } } : Tx Unit).run c₁ with ⟨e | u, c₂⟩
      · rw [Sql.Aborts.execute _ _ _ hrun]
        exact hj
      · funext id
        rw [Sql.execute_ok hrun, rowsOf_modify (f := fun r =>
          { r with state := .pinned, requestId := some requestId }) fun _ => rfl, hj]
        split_ifs with hid
        · rw [hid, hnone file hfile]
          rfl
        · rfl
  exact hstays c rfl

end Confined

end Uploads

section Leases

variable {enc : Encoding} {p : Process} {owner other : Bytes} {lease : Uploads.Lease}

/-- A token is issued, and every row that is receiving under it is the device's. -/
structure Held (owner token : Bytes) (p : Process) : Prop where
  issued : token ∈ p.issued
  rows : ∀ id r, p.journal.uploads.get? id = some r → r.state = .receiving → r.lease = token →
    r.owner = owner

theorem Held.step (hv : p.Valid) {earlier : List Uploads.Lease} (hleased : Leased p earlier)
    {token : Bytes} (h : Held owner token p) (a : Action) : Held owner token (p.step enc a) := by
  refine ⟨(hv.step_epoch a).2 token h.issued, fun id r hr hstate htoken => ?_⟩
  have hmove := hv.step_moves enc a id
  rw [hr] at hmove
  rcases hmove.receiving hstate with hsame | ⟨before, lease, -, hhanded, -, -, hclaimed⟩
  · exact h.rows id r hsame hstate htoken
  · have hfresh := (Process.handed_spec enc hleased.filed
      (hhanded ▸ List.mem_singleton_self lease)).2.2.1
    rw [hclaimed] at htoken
    have hreused : lease.token = token := htoken
    rw [hreused] at hfresh
    exact absurd h.issued hfresh

variable (enc) in
theorem handed_row {env : Env} {epoch id : Bytes} {lease : Uploads.Lease}
    (hlease : lease ∈ p.handed (.critical env (.claim owner epoch id))) :
    ∃ r, p.journal.uploads.get? id = some r ∧ r.owner = owner ∧
      (p.step enc (.critical env (.claim owner epoch id))).journal.uploads =
        p.journal.uploads.modify id (Uploads.claimedRow lease.token) := by
  by_cases henabled : p.enabled (.critical env (.claim owner epoch id))
  swap
  · rw [Process.handed_disabled henabled] at hlease
    exact absurd hlease List.not_mem_nil
  rcases hclaim : (Uploads.claim owner epoch id).run (p.conn env) with ⟨e | claimed, c'⟩
  · rw [Process.handed, if_pos henabled, Process.locked, hclaim] at hlease
    exact absurd hlease List.not_mem_nil
  rcases Uploads.claim_ok hclaim with
    ⟨found, hclaimed, -⟩ | ⟨r, token, -, hr, howner, -, -, hclaimed, hdb⟩
  · rw [Process.handed, if_pos henabled, Process.locked, hclaim, hclaimed] at hlease
    exact absurd hlease List.not_mem_nil
  · rw [Process.handed, if_pos henabled, Process.locked, hclaim, hclaimed] at hlease
    have hrun : ((Section.claim owner epoch id).tx enc env.now).run (p.conn env) =
        (.ok none, c') := by
      rw [Section.tx, Sql.bind_run, hclaim]
      rfl
    rw [List.mem_singleton.mp hlease]
    refine ⟨r, hr, howner, ?_⟩
    rw [Process.step, if_pos henabled]
    simp only [Process.apply, Process.locked, hrun, hdb]
    rfl

variable (enc) in
/-- A claim hands its device a token of its own. -/
theorem held_claim {earlier : List Uploads.Lease} (hleased : Leased p earlier)
    {env : Env} {epoch id : Bytes} {lease : Uploads.Lease}
    (hlease : lease ∈ p.handed (.critical env (.claim owner epoch id))) :
    Held owner lease.token (p.step enc (.critical env (.claim owner epoch id))) := by
  obtain ⟨-, hdrawn, hfresh, hissued, -⟩ := Process.handed_spec enc hleased.filed hlease
  obtain ⟨before, hbefore, howner, huploads⟩ := handed_row enc hlease
  refine ⟨by rw [hissued]; exact List.mem_append_left _ hdrawn, fun id' r hr hstate htoken => ?_⟩
  rw [huploads, Table.get?_modify] at hr
  split_ifs at hr with hid
  · rw [hid, hbefore, Option.map_some, Option.some.injEq] at hr
    rw [← hr]
    exact howner
  · obtain ⟨last, hlast, hlastToken⟩ := hleased.latest id' r hr hstate
    rw [← htoken, ← hlastToken] at hfresh
    exact absurd (hleased.issued last (ChangeLog.latest_mem hlast)) hfresh

/-- What is done with a lease of the device confines itself to the device's rows. -/
theorem Held.confined (h : Held owner lease.token p) (hother : other ≠ owner) (phase : Phase) :
    rowsOf other (Uploads.setPhase (Uploads.leased lease) phase p.journal) =
      rowsOf other p.journal := by
  funext id
  rw [rowsOf_setPhase]
  cases hrow : rowsOf other p.journal id with
  | none => rfl
  | some r =>
    obtain ⟨hr, howner⟩ := Option.filter_eq_some_iff.mp hrow
    have hunleased : ¬Uploads.leased lease id r = true := by
      intro hleased
      obtain ⟨-, -, hlease, hstate⟩ := Uploads.leased_id hleased
      rw [h.rows id r hr hstate hlease] at howner
      exact hother (of_decide_eq_true howner).symm
    rw [Option.map_some, if_neg hunleased]

theorem Held.complete (h : Held owner lease.token p) (hother : other ≠ owner) (env : Env) :
    rowsOf other ((Uploads.complete lease).run (p.conn env)).2.db = rowsOf other p.journal := by
  rcases hrun : (Uploads.complete lease).run (p.conn env) with ⟨e | u, c'⟩
  · rw [Uploads.complete_aborts lease _ _ _ hrun]
    rfl
  · rw [(Uploads.complete_ok hrun).2.2]
    exact h.confined hother .ready

theorem Held.abandon (h : Held owner lease.token p) (hother : other ≠ owner) (env : Env) :
    rowsOf other ((Uploads.abandon lease).run (p.conn env)).2.db = rowsOf other p.journal := by
  rcases hrun : (Uploads.abandon lease).run (p.conn env) with ⟨e | u, c'⟩
  · rw [Uploads.abandon_aborts lease _ _ _ hrun]
    rfl
  · rw [Uploads.abandon_ok hrun]
    exact h.confined hother .reserved

theorem run_held (hv : p.Valid) {earlier : List Uploads.Lease} (hleased : Leased p earlier)
    {token : Bytes} (h : Held owner token p) (actions : List Action) :
    Held owner token ((relay enc).run p actions) :=
  ((leasing enc).run_emitted_invariant
    (I := fun q leases => q.Valid ∧ Leased q leases ∧ Held owner token q)
    (fun _ _ a hq => ⟨(hq.1.step a).1, hq.2.1.step hq.1 a, hq.2.2.step hq.1 hq.2.1 a⟩)
    p earlier actions ⟨hv, hleased, h⟩).2.2

end Leases

/-- Over journals that agree on the epoch and on the rows of a device, what the
device asks for is answered alike and changes its rows alike. What is done for a
device leaves the rows of every other device as they were, and so does whatever is
done later, in any run, with a lease that the device claimed. -/
theorem uploads_isolated (enc : Encoding) :
    (∀ owner epoch id : Bytes, Sql.Mirrors (Alike owner) (Uploads.lookup owner epoch id) ∧
      Sql.Mirrors (Alike owner) (Uploads.claim owner epoch id) ∧
      Sql.Mirrors (Alike owner) (Uploads.cancel owner epoch id) ∧
      ∀ files, Sql.Mirrors (Alike owner) (Uploads.pin owner epoch files id)) ∧
    (∀ owner other epoch id : Bytes, other ≠ owner →
      (∀ file now, Sql.Keeps (rowsOf other) (Uploads.reserve owner epoch file now)) ∧
      Sql.Keeps (rowsOf other) (Uploads.lookup owner epoch id) ∧
      Sql.Keeps (rowsOf other) (Uploads.claim owner epoch id) ∧
      Sql.Keeps (rowsOf other) (Uploads.cancel owner epoch id) ∧
      ∀ files, Sql.Keeps (rowsOf other) (Uploads.pin owner epoch files id)) ∧
    ∀ (p : Process) (earlier : List Uploads.Lease), p.Initial → Leased p earlier →
      ∀ (before : List Action) (env : Env) (owner epoch id : Bytes) (lease : Uploads.Lease)
        (after : List Action),
        let claiming := Action.critical env (.claim owner epoch id)
        lease ∈ ((relay enc).run p before).handed claiming →
        let q := (relay enc).run p (before ++ claiming :: after)
        ∀ other now, other ≠ owner →
          rowsOf other ((Uploads.complete lease).run (q.conn now)).2.db = rowsOf other q.journal ∧
          rowsOf other ((Uploads.abandon lease).run (q.conn now)).2.db = rowsOf other q.journal := by
  refine ⟨fun owner epoch id => ?_, fun owner other epoch id hother => ?_, ?_⟩
  · exact ⟨Uploads.lookup_mirrors id, Uploads.claim_mirrors id, Uploads.cancel_mirrors id,
      fun files => Uploads.pin_mirrors files id⟩
  · exact ⟨fun file now => Uploads.reserve_confined hother file now,
      .of_reads (uploads_lookup_reads owner epoch id), Uploads.claim_confined hother id,
      Uploads.cancel_confined hother id, fun files => Uploads.pin_confined hother files id⟩
  · intro p earlier initial leased before env owner epoch id lease after claiming hlease q other now
      hother
    have hvalid : ((relay enc).run p before).Valid := run_valid initial.valid before
    have hleased : Leased ((leasing enc).run p before) (earlier ++ (leasing enc).emitted p before) :=
      run_leased initial.valid leased before
    have hclaimed := held_claim enc hleased hlease
    have hheld : Held owner lease.token q := by
      have hq : q = (relay enc).run
          (((relay enc).run p before).step enc claiming) after := by
        simp only [q, Machine.run_append, Machine.run_cons]
        rfl
      rw [hq]
      exact run_held (hvalid.step claiming).1 (hleased.step hvalid claiming) hclaimed after
    exact ⟨hheld.complete hother now, hheld.abandon hother now⟩

namespace Sample

def otherDevice : Bytes := [2]

def otherFile : Upload := { file with id := text "GAAAAAAAAAAAAAAAAAAAAA" }

/-- Two devices have reserved a file each, and the photo of one is transferred. -/
def reservePhotos : List Action := [
  .launch { now := 0 },
  .critical { now := 0 } (.reserve otherDevice epoch otherFile),
  .critical { now := 1 } (.reserve device epoch file)]

end Sample

/-- The transfer of the photo leaves the row of the other device as it is. -/
theorem uploads_isolated_photo :
    let claiming := Action.critical { now := 2, fresh := [Sample.token] }
      (.claim Sample.device Sample.epoch Sample.file.id)
    let q := (relay Sample.encoding).run (.new Sample.epoch) (Sample.reservePhotos ++ [claiming])
    (rowsOf Sample.otherDevice q.journal Sample.otherFile.id).isSome = true ∧
      rowsOf Sample.otherDevice ((Uploads.complete Sample.lease).run (q.conn { now := 3 })).2.db =
        rowsOf Sample.otherDevice q.journal := by
  intro claiming q
  have hhanded : Sample.lease ∈
      ((relay Sample.encoding).run (.new Sample.epoch) Sample.reservePhotos).handed claiming := by
    decide +kernel
  exact ⟨by decide +kernel, ((uploads_isolated Sample.encoding).2.2 _ []
    (Process.new_initial Sample.epoch) (leased_new Sample.epoch) _ _ _ _ _ _ [] hhanded
    Sample.otherDevice { now := 3 } (by decide)).1⟩

end Zimbr.Relay
