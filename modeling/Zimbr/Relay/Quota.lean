import Zimbr.Library.Totals
import Zimbr.Relay.Leases

set_option autoImplicit false

/-!
# The quota of the upload ledger

Only an admitted reservation adds a row; every other step keeps or removes rows
and never rewrites what they declare. So the ledger stays within its quota
whatever state its rows are in.
-/
namespace Zimbr.Relay
open Library

def declaredBytes (j : Journal) : Nat := j.uploads.total UploadRow.bytes

/-- The columns of a row that no step rewrites. -/
structure SameFile (r r' : UploadRow) : Prop where
  record : r'.record = r.record
  bytes : r'.bytes = r.bytes
  epoch : r'.epoch = r.epoch
  owner : r'.owner = r.owner

def Carried (j j' : Journal) : Prop :=
  ∀ id r', j'.uploads.get? id = some r' → ∃ r, j.uploads.get? id = some r ∧ SameFile r r'

structure Reserved (id : Bytes) (r : UploadRow) : Prop where
  filed : r.record.id = id
  declared : Attachments.validate r.record = .ok r.bytes
  epoch : validId r.epoch = true

structure Quota (j : Journal) : Prop where
  count : j.uploads.rows.length ≤ Uploads.maxReservations
  bytes : declaredBytes j ≤ Uploads.maxReservedBytes
  reserved : ∀ id r, j.uploads.get? id = some r → Reserved id r

theorem quota_new (epoch : Bytes) : Quota { epoch := epoch } where
  count := Nat.zero_le _
  bytes := Nat.zero_le _
  reserved _ _ h := nomatch h

section Files

theorem validate_le {file : Upload} {size : Nat} (h : Attachments.validate file = .ok size) :
    size ≤ Attachments.maxFileBytes := by
  unfold Attachments.validate at h
  split_ifs at h with _ _ _ _ _ _ hlarge
  rw [← Except.ok.inj h]
  omega

theorem validate_id {file : Upload} {size : Nat} (h : Attachments.validate file = .ok size) :
    validId file.id = true := by
  unfold Attachments.validate at h
  split_ifs at h with hid
  simpa using hid

theorem validate_spelled {file : Upload} {size : Nat} (h : Attachments.validate file = .ok size) :
    size = spelled file.bytes := by
  unfold Attachments.validate at h
  split_ifs at h
  exact (Except.ok.inj h).symm

def spelledBytes (files : List Upload) : Nat := (files.map fun f => spelled f.bytes).sum

theorem validateFrom_le {previous files : List Upload} {total : Nat}
    (h : Attachments.validateFrom previous total files = .ok ())
    (htotal : total ≤ Attachments.maxSendBytes) :
    total + spelledBytes files ≤ Attachments.maxSendBytes := by
  induction files generalizing previous total with
  | nil => exact htotal
  | cons file rest ih =>
    unfold Attachments.validateFrom at h
    split at h
    · exact nomatch h
    · next bytes hbytes =>
      split_ifs at h with hlarge
      have hrest := ih h (by omega)
      rw [spelledBytes, List.map_cons, List.sum_cons, ← validate_spelled hbytes]
      unfold spelledBytes at hrest
      omega

theorem validateSet_le {files : List Upload} (h : Attachments.validateSet files = .ok ()) :
    spelledBytes files ≤ Attachments.maxSendBytes := by
  unfold Attachments.validateSet at h
  split_ifs at h
  have hle := validateFrom_le h (Nat.zero_le _)
  omega

end Files

section Carried

theorem SameFile.refl (r : UploadRow) : SameFile r r := ⟨rfl, rfl, rfl, rfl⟩

theorem SameFile.trans {r r' r'' : UploadRow} (h : SameFile r r') (h' : SameFile r' r'') :
    SameFile r r'' :=
  ⟨h'.record.trans h.record, h'.bytes.trans h.bytes, h'.epoch.trans h.epoch,
    h'.owner.trans h.owner⟩

variable {j j' j'' : Journal}

theorem Carried.of_eq (h : j'.uploads = j.uploads) : Carried j j' :=
  fun _ r' hr' => ⟨r', h ▸ hr', .refl r'⟩

theorem Carried.trans (h : Carried j j') (h' : Carried j' j'') : Carried j j'' := by
  intro id r'' hr''
  obtain ⟨r', hr', hsame'⟩ := h' id r'' hr''
  obtain ⟨r, hr, hsame⟩ := h id r' hr'
  exact ⟨r, hr, hsame.trans hsame'⟩

theorem Carried.setPhase {p : Bytes → UploadRow → Bool} {phase : Phase} :
    Carried j (Uploads.setPhase p phase j) := by
  intro id r' hr'
  rw [Uploads.setPhase_get?, Option.map_eq_some_iff] at hr'
  obtain ⟨r, hr, rfl⟩ := hr'
  refine ⟨r, hr, ?_⟩
  split_ifs <;> exact ⟨rfl, rfl, rfl, rfl⟩

theorem Spared.carried (h : Spared j j') : Carried j j' := by
  intro id r' hr'
  rcases h id with hsame | ⟨r, requestId, hr, -, -, -, hafter⟩
  · exact ⟨r', hsame ▸ hr', .refl r'⟩
  · refine ⟨r, hr, ?_⟩
    rw [← Option.some.inj (hafter.symm.trans hr')]
    exact ⟨rfl, rfl, rfl, rfl⟩

variable {scope : Scope}

theorem Change.carried (h : Change scope j j') (hledger : scope.ledger = false) :
    Carried j j' := by
  cases h with
  | quiet h _ => exact h.spared.carried
  | published r _ h _ => exact h.spared.carried
  | request v row found _ _ _ updated => exact (updated.spared (by rw [found]; rfl)).carried
  | accepted input owner v h =>
    intro id r' hr'
    rcases h.uploads id with ⟨-, hsame⟩ | ⟨file, -, r, -, hr, -, -, -, -, hafter⟩
    · exact ⟨r', hsame ▸ hr', .refl r'⟩
    · refine ⟨r, hr, ?_⟩
      rw [← Option.some.inj (hafter.symm.trans hr')]
      exact ⟨rfl, rfl, rfl, rfl⟩
  | pruned cut h => exact .of_eq (by rw [h.effect])
  | ledger allowed _ => cases hledger.symm.trans allowed
  | reset epoch _ h => exact h.spared.carried

theorem Changed.carried (h : Changed scope j j') (hledger : scope.ledger = false) :
    Carried j j' := by
  induction h with
  | refl => exact .of_eq rfl
  | tail _ h ih => exact ih.trans (h.carried hledger)

theorem Stepped.carried (h : Stepped scope j j') (hledger : scope.ledger = false) :
    Carried j j' := by
  rcases h with hchanged | ⟨epoch, -, middle, hreset, hchanged⟩
  · exact hchanged.carried hledger
  · exact hreset.spared.carried.trans (hchanged.carried rfl)

theorem Carried.within (h : Carried j j') :
    Table.Within UploadRow.bytes j'.uploads j.uploads := by
  intro id r' hr'
  obtain ⟨r, hr, hsame⟩ := h id r' hr'
  exact ⟨r, hr, hsame.bytes⟩

end Carried

section Steps

variable {j j' : Journal}

theorem Quota.carried (h : Quota j) (hcarried : Carried j j') : Quota j' where
  count := hcarried.within.count_le.trans h.count
  bytes := hcarried.within.total_le.trans h.bytes
  reserved id r' hr' := by
    obtain ⟨r, hr, hsame⟩ := hcarried id r' hr'
    have hreserved := h.reserved id r hr
    refine ⟨?_, ?_, ?_⟩
    · rw [hsame.record]
      exact hreserved.filed
    · rw [hsame.record, hsame.bytes]
      exact hreserved.declared
    · rw [hsame.epoch]
      exact hreserved.epoch

theorem Quota.admitted {owner epoch : Bytes} {file : Upload} {now : Int} {size : Nat}
    {uploads : Table Bytes UploadRow} (h : Quota j)
    (hadmitted : Uploads.Admitted owner epoch file now size uploads j j') : Quota j' := by
  have hcount := Table.count_insert hadmitted.inserted
  have htotal : uploads.total UploadRow.bytes = declaredBytes j + size :=
    Table.total_insert _ hadmitted.inserted
  rw [hadmitted.effect]
  refine ⟨?_, ?_, fun id r hr => ?_⟩
  · have hroom := hadmitted.count
    rw [hcount]
    omega
  · have hroom : declaredBytes j + size ≤ Uploads.maxReservedBytes := hadmitted.bytes
    change uploads.total UploadRow.bytes ≤ _
    rw [htotal]
    exact hroom
  · have hr : uploads.get? id = some r := hr
    rw [Table.get?_insert hadmitted.inserted] at hr
    split_ifs at hr with hid
    · rw [← Option.some.inj hr, hid]
      exact ⟨rfl, hadmitted.declared, hadmitted.valid⟩
    · exact h.reserved id r hr

namespace Process

variable {enc : Encoding} {p : Process}

/-- A section of the ledger carries its rows over, or admits one reservation. -/
theorem section_carried {env : Env} {s : Section} {inserted : Option Bytes}
    {c' : Conn Journal Bytes} (hledger : s.ledger = true)
    (hrun : (s.tx enc env.now).run (p.conn env) = (.ok inserted, c')) :
    Carried p.journal c'.db ∨ ∃ owner epoch file size uploads,
      s = .reserve owner epoch file ∧
        Uploads.Admitted owner epoch file env.now size uploads p.journal c'.db := by
  cases s with
  | post input ready owner => exact nomatch hledger
  | ingest resets first parts imports last => exact nomatch hledger
  | write ops => exact nomatch hledger
  | prune countLimit => exact nomatch hledger
  | reserve owner epoch file =>
    obtain ⟨_, c₁, hreserve, hrun⟩ := Sql.bind_ok hrun
    rw [(Sql.pure_ok hrun).2]
    rcases Uploads.reserve_ok hreserve with ⟨hdb, -⟩ | ⟨size, uploads, hadmitted⟩
    · exact Or.inl (.of_eq (congrArg Journal.uploads hdb))
    · exact Or.inr ⟨owner, epoch, file, size, uploads, rfl, hadmitted⟩
  | claim owner epoch id' =>
    obtain ⟨claimed, c₁, hclaim, hrun⟩ := Sql.bind_ok hrun
    rw [(Sql.pure_ok hrun).2]
    left
    rcases Uploads.claim_ok hclaim with ⟨found, -, hdb⟩ | ⟨r, token, -, hr, -, -, -, -, hdb⟩
    · exact .of_eq (congrArg Journal.uploads hdb)
    · intro id r' hr'
      rw [hdb, Table.get?_modify] at hr'
      split_ifs at hr' with hid
      · obtain ⟨r₀, hr₀, rfl⟩ := Option.map_eq_some_iff.mp hr'
        exact ⟨r₀, hr₀, rfl, rfl, rfl, rfl⟩
      · exact ⟨r', hr', .refl r'⟩
  | complete lease =>
    obtain ⟨_, c₁, hcomplete, hrun⟩ := Sql.bind_ok hrun
    rw [(Sql.pure_ok hrun).2, (Uploads.complete_ok hcomplete).2.2]
    exact Or.inl .setPhase
  | abandon lease =>
    obtain ⟨_, c₁, habandon, hrun⟩ := Sql.bind_ok hrun
    rw [(Sql.pure_ok hrun).2, Uploads.abandon_ok habandon]
    exact Or.inl .setPhase
  | cancel owner epoch id' =>
    obtain ⟨_, c₁, hcancel, hrun⟩ := Sql.bind_ok hrun
    obtain ⟨r, -, -, -, hdb⟩ := Uploads.cancel_ok hcancel
    rw [(Sql.pure_ok hrun).2, hdb]
    exact Or.inl .setPhase
  | expire =>
    obtain ⟨_, c₁, hexpire, hrun⟩ := Sql.bind_ok hrun
    rw [(Sql.pure_ok hrun).2, Uploads.expire_ok hexpire]
    exact Or.inl .setPhase
  | purge id' =>
    obtain ⟨_, c₁, hpurge, hrun⟩ := Sql.bind_ok hrun
    rw [(Sql.pure_ok hrun).2, Uploads.purge_ok hpurge]
    left
    intro id r' hr'
    rw [Table.get?_deleteWhere, Option.filter_eq_some_iff] at hr'
    exact ⟨r', hr'.1, .refl r'⟩

theorem Valid.opened_carried (h : p.Valid) (env : Env) :
    Carried p.journal (p.opened env).journal := by
  rcases hrecover : Uploads.recover.run (p.conn env) with ⟨r, c₁⟩
  have hfirst : Carried p.journal c₁.db ∧ Keyed c₁.db := by
    cases r with
    | error e =>
      exact ⟨.of_eq (congrArg Journal.uploads (Uploads.recover_aborts _ _ _ hrecover)),
        (of_aborts Uploads.recover_aborts hrecover).keyed h.keyed⟩
    | ok u =>
      refine ⟨?_, (Uploads.recover_kept hrecover).changed.keyed h.keyed⟩
      rw [Uploads.recover_ok hrecover]
      exact .setPhase
  refine hfirst.1.trans ?_
  rcases hrun : (startup env.now).run c₁ with ⟨e | required, c₂⟩
  · simp only [opened, hrecover, hrun]
    exact (of_aborts startup_aborts hrun).carried rfl
  · simp only [opened, hrecover, hrun]
    have hchanged : Changed { recovers := true } c₁.db c₂.db := startup_ok rfl hfirst.2 hrun
    exact hchanged.carried rfl

/-- Every step carries the rows over, or admits one reservation. -/
theorem Valid.step_carried (enc : Encoding) (h : p.Valid) (a : Action) :
    Carried p.journal (p.step enc a).journal ∨ ∃ env owner epoch file size uploads,
      a = .critical env (.reserve owner epoch file) ∧ Uploads.Admitted owner epoch file env.now
        size uploads p.journal (p.step enc a).journal := by
  by_cases henabled : p.enabled a
  swap
  · rw [Process.step, if_neg henabled]
    exact Or.inl (.of_eq rfl)
  by_cases hledger : a.ledger = true
  · cases a with
    | launch env =>
      rw [Process.step, if_pos henabled]
      exact Or.inl (h.opened_carried env)
    | critical env s =>
      rw [Process.step, if_pos henabled]
      rcases hrun : (s.tx enc env.now).run (p.conn env) with ⟨e | inserted, c'⟩
      all_goals
        have hjournal : (p.apply enc (.critical env s)).journal = c'.db :=
          congrArg (fun result => result.2.db) hrun
        rw [hjournal]
      · exact Or.inl (.of_eq (congrArg Journal.uploads (section_aborts s _ _ _ hrun)))
      · rcases section_carried hledger hrun with hcarried |
          ⟨owner, epoch, file, size, uploads, hs, hadmitted⟩
        · exact Or.inl hcarried
        · exact Or.inr ⟨env, owner, epoch, file, size, uploads, by rw [hs], hadmitted⟩
    | crash => cases hledger
    | prepareSend env gate source => cases hledger
    | invoke invocation => cases hledger
    | commitResult env => cases hledger
    | recover env => cases hledger
    | prepareObservation env gate => cases hledger
    | publish env readReady candidate => cases hledger
    | reset env expected => cases hledger
  · have hplain : a.ledger = false := by simpa using hledger
    have hstepped : Stepped (p.scope a) p.journal (p.step enc a).journal := (h.step a).2
    exact Or.inl (hstepped.carried hplain)

theorem Valid.step_quota (enc : Encoding) (h : p.Valid) (hquota : Quota p.journal) (a : Action) :
    Quota (p.step enc a).journal := by
  rcases h.step_carried enc a with hcarried | ⟨_, _, _, _, _, _, -, hadmitted⟩
  · exact hquota.carried hcarried
  · exact hquota.admitted hadmitted

end Process

end Steps

section Retries

def Uploads.repeated (j : Journal) (r : UploadRow) : Except Error Uploads.Found :=
  if r.epoch ≠ j.epoch then .error .resyncRequired
  else if r.state = .deleting then .error .uploadExpired
  else .ok { serverEpoch := r.epoch, file := r.record, phase := r.state }

variable {id : Bytes} {r : UploadRow} {now : Int}

theorem reserve_aborts (owner epoch : Bytes) (file : Upload) :
    Sql.Aborts (Uploads.reserve owner epoch file now) :=
  .bind .lift fun _ => .transaction

theorem checkEpoch_run {j : Journal} {fresh : List Bytes} {epoch : Bytes}
    (hvalid : validId epoch = true) :
    (Uploads.checkEpoch epoch).run ⟨j, [], fresh⟩ =
      (if epoch = j.epoch then .ok () else .error .resyncRequired, ⟨j, [], fresh⟩) := by
  by_cases hepoch : epoch = j.epoch
  · simp [Uploads.checkEpoch, Sql.bind_run, hepoch ▸ hvalid, hepoch]
  · simp [Uploads.checkEpoch, Sql.bind_run, hvalid, hepoch]

/-- A retry reads the row; the quota is not asked. -/
theorem reserve_repeated {j : Journal} {fresh : List Bytes} (hrow : j.uploads.get? id = some r)
    (hr : Reserved id r) :
    (Uploads.reserve r.owner r.epoch r.record now).run ⟨j, [], fresh⟩ =
      (Uploads.repeated j r, ⟨j, [], fresh⟩) := by
  have hid := validate_id hr.declared
  have hrow : j.uploads.get? r.record.id = some r := hr.filed.symm ▸ hrow
  unfold Uploads.reserve Uploads.repeated
  rw [hr.declared]
  simp only [Except.mapError, Sql.bind_run, Sql.lift_run, Sql.transaction_run_calm,
    checkEpoch_run hr.epoch]
  by_cases hepoch : r.epoch = j.epoch
  · rw [if_pos hepoch, if_neg (not_not.mpr hepoch)]
    simp only [Sql.query_run_calm, hrow, Sql.bind_run, Sql.require_run, decide_true, if_true,
      Uploads.lookup, hid, checkEpoch_run hr.epoch, if_pos hepoch, Option.filter_some]
    by_cases hstate : r.state = .deleting
    · simp [hstate]
    · simp [hstate]
  · rw [if_neg hepoch, if_pos hepoch]

theorem reserve_answers {c : Conn Journal Bytes} (hrow : c.db.uploads.get? id = some r)
    (hr : Reserved id r) :
    ((Uploads.reserve r.owner r.epoch r.record now).run c).2.db = c.db ∧
      (((Uploads.reserve r.owner r.epoch r.record now).run c).1 = Uploads.repeated c.db r ∨
        ((Uploads.reserve r.owner r.epoch r.record now).run c).1 = .error .databaseFailure) := by
  have hcalm : (Uploads.reserve r.owner r.epoch r.record now).run c.calm =
      (Uploads.repeated c.db r, c.calm) := reserve_repeated hrow hr
  exact (reserve_aborts r.owner r.epoch r.record).answers hcalm

end Retries

section Runs

variable {enc : Encoding} {p : Process}

theorem run_quota (hv : p.Valid) (hquota : Quota p.journal) (actions : List Action) :
    Quota ((relay enc).run p actions).journal :=
  ((relay enc).run_invariant (I := fun q => q.Valid ∧ Quota q.journal)
    (fun _ a hq => ⟨(hq.1.step a).1, hq.1.step_quota enc hq.2 a⟩) p actions ⟨hv, hquota⟩).2

def HoldsFile (owner epoch : Bytes) (file : Upload) (p : Process) : Prop :=
  ∃ r, p.journal.uploads.get? file.id = some r ∧ r.owner = owner ∧ r.epoch = epoch ∧
    r.record = file

theorem HoldsFile.step (hv : p.Valid) {owner epoch : Bytes} {file : Upload}
    (h : HoldsFile owner epoch file p) (a : Action) : HoldsFile owner epoch file (p.step enc a) ∨
      (p.step enc a).journal.uploads.get? file.id = none := by
  obtain ⟨r, hr, howner, hepoch, hrecord⟩ := h
  cases hr' : (p.step enc a).journal.uploads.get? file.id with
  | none => exact Or.inr rfl
  | some r' =>
    have hsame : SameFile r r' := by
      rcases hv.step_carried enc a with hcarried | ⟨_, _, _, file', _, _, -, hadmitted⟩
      · obtain ⟨r₀, hr₀, hsame⟩ := hcarried file.id r' hr'
        obtain rfl := Option.some.inj (hr.symm.trans hr₀)
        exact hsame
      · rw [hadmitted.effect] at hr'
        have hr' := (Table.get?_insert hadmitted.inserted file.id).symm.trans hr'
        split_ifs at hr' with hid
        · have habsent := Table.get?_of_insert hadmitted.inserted
          rw [← hid, hr] at habsent
          cases habsent
        · obtain rfl := Option.some.inj (hr.symm.trans hr')
          exact .refl r
    exact Or.inl ⟨r', hr', hsame.owner.trans howner, hsame.epoch.trans hepoch,
      hsame.record.trans hrecord⟩

theorem reserve_holds {owner epoch : Bytes} {file : Upload} {now : Int} {found : Uploads.Found}
    {c c' : Conn Journal Bytes} (h : (Uploads.reserve owner epoch file now).run c = (.ok found, c')) :
    ∃ r, c'.db.uploads.get? file.id = some r ∧ r.owner = owner ∧ r.epoch = epoch ∧
      r.record = file := by
  rcases Uploads.reserve_ok h with ⟨hdb, hrow⟩ | ⟨size, uploads, hadmitted⟩
  · rw [hdb]
    exact hrow
  · rw [hadmitted.effect]
    exact ⟨_, (Table.get?_insert hadmitted.inserted file.id).trans (if_pos rfl), rfl, rfl, rfl⟩

/-- The row of a successful reservation stays until it is purged. -/
theorem run_holds (hv : p.Valid) {owner epoch : Bytes} {file : Upload}
    (h : HoldsFile owner epoch file p) (actions : List Action) :
    HoldsFile owner epoch file ((relay enc).run p actions) ∨ ∃ earlier later,
      actions = earlier ++ later ∧
        ((relay enc).run p earlier).journal.uploads.get? file.id = none := by
  by_cases hend : HoldsFile owner epoch file ((relay enc).run p actions)
  · exact Or.inl hend
  · right
    apply (relay enc).established (I := Process.Valid) (P := fun q => ¬HoldsFile owner epoch file q)
      (Q := fun q => q.journal.uploads.get? file.id = none) (fun _ a hq => (hq.step a).1) ?_ p
      actions hv (not_not.mpr h) hend
    intro q a hq hlost
    by_cases hbefore : HoldsFile owner epoch file q
    · exact Or.inr ((hbefore.step hq a).resolve_left hlost)
    · exact Or.inl hbefore

end Runs

/-- In every state of every run the ledger has at most 256 rows, and what all of
them declare fits the 2 GiB, so the sums of the checks are exact in 64 bits. A
refused reservation changes nothing; the row of an admitted one stays until it is
purged, and while it is there an exact retry is not refused for the quota. -/
theorem upload_quota (enc : Encoding) (epoch : Bytes) (actions : List Action) :
    let p := (relay enc).run (.new epoch) actions
    p.journal.uploads.rows.length ≤ 256 ∧ declaredBytes p.journal ≤ 2 * 1024 * 1024 * 1024 ∧
    (∀ id r, p.journal.uploads.get? id = some r → Attachments.validate r.record = .ok r.bytes) ∧
    (∀ file size, Attachments.validate file = .ok size →
      size ≤ Uploads.maxReservedBytes ∧ declaredBytes p.journal + size < 2 ^ 63 ∧
      ∀ files, Attachments.validateSet files = .ok () → spelledBytes files + size < 2 ^ 63) ∧
    (∀ (env : Env) owner expected file e,
      ((Uploads.reserve owner expected file env.now).run (p.conn env)).1 = .error e →
        ((Uploads.reserve owner expected file env.now).run (p.conn env)).2.db = p.journal) ∧
    (∀ before env owner expected file after found,
      actions = before ++ .critical env (.reserve owner expected file) :: after →
      ((relay enc).run (.new epoch) before).enabled (.critical env (.reserve owner expected file)) →
      ((Uploads.reserve owner expected file env.now).run
        (((relay enc).run (.new epoch) before).conn env)).1 = .ok found →
      (∃ r, p.journal.uploads.get? file.id = some r ∧ r.owner = owner ∧ r.epoch = expected ∧
        r.record = file) ∨
      ∃ middle rest, after = middle ++ rest ∧ ((relay enc).run (.new epoch)
        (before ++ .critical env (.reserve owner expected file) :: middle)).journal.uploads.get?
          file.id = none) ∧
    ∀ (env : Env) id r, p.journal.uploads.get? id = some r →
      let retry := (Uploads.reserve r.owner r.epoch r.record env.now).run (p.conn env)
      retry.2.db = p.journal ∧
      (retry.1 = Uploads.repeated p.journal r ∨ retry.1 = .error .databaseFailure) ∧
      (env.faults = [] → retry.1 = Uploads.repeated p.journal r) := by
  intro p
  have hv := (Process.new_initial epoch).valid
  have hquota : Quota p.journal := run_quota hv (quota_new epoch) actions
  refine ⟨hquota.count, hquota.bytes, fun id r hr => (hquota.reserved id r hr).declared,
    fun file size hsize => ?_, fun env owner expected file e he => ?_,
    fun before env owner expected file after found hactions henabled hfound => ?_,
    fun env id r hr => ⟨?_, ?_, fun hfaults => ?_⟩⟩
  · have hle := validate_le hsize
    have hbytes := hquota.bytes
    unfold Uploads.maxReservedBytes at hbytes ⊢
    unfold Attachments.maxFileBytes at hle
    refine ⟨by omega, by omega, fun files hfiles => ?_⟩
    have hset := validateSet_le hfiles
    unfold Attachments.maxSendBytes at hset
    omega
  · exact reserve_aborts owner expected file _ e _ (Prod.ext he rfl)
  · have hheld : HoldsFile owner expected file (((relay enc).run (.new epoch) before).step enc
        (.critical env (.reserve owner expected file))) := by
      rcases hrun : (Uploads.reserve owner expected file env.now).run
        (((relay enc).run (.new epoch) before).conn env) with ⟨_ | found', c'⟩
      · rw [hrun] at hfound
        exact nomatch hfound
      · have hsection : ((Section.reserve owner expected file).tx enc env.now).run
            (((relay enc).run (.new epoch) before).conn env) = (.ok none, c') := by
          rw [Section.tx, Sql.bind_run, hrun]
          rfl
        rw [Process.step, if_pos henabled, HoldsFile, Process.apply, Process.locked, hsection]
        exact reserve_holds hrun
    have hvalid : (((relay enc).run (.new epoch) before).step enc
        (.critical env (.reserve owner expected file))).Valid := ((run_valid hv before).step _).1
    rcases run_holds hvalid hheld after with hholds | ⟨middle, rest, hafter, hnone⟩
    · left
      have hend : p = (relay enc).run (((relay enc).run (.new epoch) before).step enc
          (.critical env (.reserve owner expected file))) after := by
        change (relay enc).run (.new epoch) actions = _
        rw [hactions, Machine.run_append, Machine.run_cons]
        rfl
      rw [hend]
      exact hholds
    · refine Or.inr ⟨middle, rest, hafter, ?_⟩
      rw [Machine.run_append, Machine.run_cons]
      exact hnone
  · exact (reserve_answers (c := p.conn env) hr (hquota.reserved id r hr)).1
  · exact (reserve_answers (c := p.conn env) hr (hquota.reserved id r hr)).2
  · rw [Process.conn, hfaults]
    exact congrArg Prod.fst (reserve_repeated hr (hquota.reserved id r hr))

/-- A retry of a reservation that was cancelled finds its row retired. -/
theorem upload_quota_cancelled :
    let reserved := Sample.sendPhoto.take 2
    let cancelled := reserved ++ [.critical { now := 2 } (.cancel Sample.device Sample.epoch Sample.file.id)]
    let answer (actions : List Action) := ((Uploads.reserve Sample.device Sample.epoch Sample.file 3).run
      (((relay Sample.encoding).run (.new Sample.epoch) actions).conn { now := 3 })).1
    answer reserved = .ok { serverEpoch := Sample.epoch, file := Sample.file, phase := .reserved } ∧
      answer cancelled = .error .uploadExpired := by
  refine ⟨?_, ?_⟩
  · rfl
  · rfl

end Zimbr.Relay
