import Zimbr.Relay.Transfers

set_option autoImplicit false

/-!
# Ready uploads are intact

A request works only while its lease is live, the cleanup worker on retired
rows, the start on rows that keep no file: never two in one directory, and never
in the one of a ready upload.
-/
namespace Zimbr.Relay
open Library Files

namespace Host

/-- Every worker has its directory to itself, and ready uploads are intact. -/
structure Valid (sha256 : Bytes → Bytes) (h : Host) : Prop where
  process : h.process.Valid
  filed : ∀ id r, h.process.journal.uploads.get? id = some r → r.record.id = id
  sound : h.disk.Sound
  tokens : ∀ token q, h.requests.get? token = some q →
    q.lease.token = token ∧ token ∈ h.process.issued
  queued : ∀ lease ∈ h.releases,
    lease.token ∈ h.process.issued ∧ h.requests.get? lease.token = none
  active : ∀ token q, h.requests.get? token = some q → q.stage.active = true →
    q.lease.Held h.process.journal ∧ q.stage.Holds sha256 h.disk q.lease
  retired : ∀ id ∈ h.cleaner.ids, ∃ r, h.process.journal.uploads.get? id = some r ∧
    r.state = .deleting
  distinct : h.cleaner.ids.Nodup
  cleaning : h.cleaner.Opened h.disk
  recovering : ∀ r, h.recovery = .removing r → h.process.running = false ∧ r.Opened h.disk ∧
    retained h.process.journal r.id = false
  stopped : h.process.running = false →
    (∀ token, h.requests.get? token = none) ∧ h.cleaner = .idle ∧ h.releases = []
  intact : ∀ id r, h.process.journal.uploads.get? id = some r → r.Retained →
    Intact sha256 h.disk r.record

/-- A step that keeps the invariant and leaves the files of retained rows alone. -/
structure Spares (sha256 : Bytes → Bytes) (h h' : Host) : Prop where
  valid : h'.Valid sha256
  kept : ∀ id r, h.process.journal.uploads.get? id = some r → r.Retained →
    h'.disk.file? id r.record.name = h.disk.file? id r.record.name

section Parts

variable {sha256 : Bytes → Bytes} {enc : Encoding} {h : Host}

theorem Spares.same {h' : Host} (hv : h'.Valid sha256) (hdisk : h'.disk = h.disk) :
    Spares sha256 h h' :=
  ⟨hv, fun _ _ _ _ => by rw [hdisk]⟩

/-- A file that no retained row names is free to change. -/
theorem Valid.kept {disk' : Storage} {id : Bytes} (honly : Disk.OnlyAt id h.disk disk')
    (hfree : ∀ r, h.process.journal.uploads.get? id = some r → ¬r.Retained) :
    ∀ id' r, h.process.journal.uploads.get? id' = some r → r.Retained →
      id' ≠ id ∧ disk'.file? id' r.record.name = h.disk.file? id' r.record.name := by
  intro id' r hr hretained
  have hne : id' ≠ id := fun hid => hfree r (hid ▸ hr) hretained
  exact ⟨hne, honly.file? hne _⟩

theorem held_unretained {lease : Uploads.Lease} {j : Journal} (hheld : lease.Held j) :
    ∀ r, j.uploads.get? lease.file.id = some r → ¬r.Retained := by
  intro r hr hretained
  obtain ⟨r', hr', hleased, -⟩ := hheld
  rw [← Option.some.inj (hr.symm.trans hr')] at hleased
  have hstate := (Uploads.leased_id hleased).2.2.2
  rcases hretained with hs | hs <;> exact nomatch hstate.symm.trans hs

theorem Valid.alone (hv : h.Valid sha256) {token token' : Bytes} {q q' : UploadRequest}
    (hq : h.requests.get? token = some q) (hq' : h.requests.get? token' = some q')
    (hheld : q.lease.Held h.process.journal) (hheld' : q'.lease.Held h.process.journal)
    (hid : q'.lease.file.id = q.lease.file.id) : token' = token := by
  obtain ⟨r, hr, hleased, -⟩ := hheld
  obtain ⟨r', hr', hleased', -⟩ := hheld'
  rw [hid] at hr'
  rw [← Option.some.inj (hr.symm.trans hr')] at hleased'
  have htoken := (Uploads.leased_id hleased).2.2.1
  have htoken' := (Uploads.leased_id hleased').2.2.1
  rw [← (hv.tokens token q hq).1, ← (hv.tokens token' q' hq').1, ← htoken, ← htoken']

theorem Valid.running (hv : h.Valid sha256) {token : Bytes} {q : UploadRequest}
    (hq : h.requests.get? token = some q) : h.process.running = true := by
  by_contra hstopped
  have hnone := (hv.stopped (by simpa using hstopped)).1 token
  rw [hq] at hnone
  exact nomatch hnone

theorem get?_advance (token token' : Bytes) (stage : Stage) :
    (h.advance token stage).requests.get? token' =
      if token' = token then (h.requests.get? token').map fun q => { q with stage := stage }
      else h.requests.get? token' := by
  unfold advance
  rw [Table.get?_modify]

theorem Valid.advanced (hv : h.Valid sha256) {token : Bytes} {q : UploadRequest}
    (hq : h.requests.get? token = some q) (hactive : q.stage.active = true) {disk' : Storage}
    (honly : Disk.OnlyAt q.lease.file.id h.disk disk') {stage' : Stage}
    (hstage : stage'.active = true → stage'.Holds sha256 disk' q.lease) :
    Spares sha256 h ({ h with disk := disk' }.advance token stage') := by
  obtain ⟨hheld, -⟩ := hv.active token q hq hactive
  have hkept := Valid.kept honly (held_unretained hheld)
  have hrunning := hv.running hq
  have hget (token' : Bytes) :=
    get?_advance (h := { h with disk := disk' }) token token' stage'
  have hretired (id : Bytes) (hid : id ∈ h.cleaner.ids) : id ≠ q.lease.file.id := by
    rintro rfl
    obtain ⟨r, hr, hdeleting⟩ := hv.retired _ hid
    obtain ⟨r', hr', hleased, -⟩ := hheld
    rw [← Option.some.inj (hr.symm.trans hr')] at hleased
    cases (Uploads.leased_id hleased).2.2.2.symm.trans hdeleting
  refine ⟨{ hv with
    sound := honly.sound
    tokens := fun token' q' hq' => ?_
    queued := fun lease hlease => ?_
    active := fun token' q' hq' hactive' => ?_
    cleaning := hv.cleaning.frame honly hretired
    recovering := fun r hr => ?_
    stopped := fun hstopped => by cases hstopped.symm.trans hrunning
    intact := fun id r hr hretained => ?_ }, fun id r hr hretained => (hkept id r hr hretained).2⟩
  · rw [hget] at hq'
    split_ifs at hq' with hsame
    · obtain ⟨q₀, hq₀, rfl⟩ := Option.map_eq_some_iff.mp hq'
      exact hv.tokens token' q₀ hq₀
    · exact hv.tokens token' q' hq'
  · obtain ⟨hissued, hnone⟩ := hv.queued lease hlease
    have hnone : ({ h with disk := disk' } : Host).requests.get? lease.token = none := hnone
    refine ⟨hissued, ?_⟩
    rw [hget, hnone]
    split_ifs <;> rfl
  · rw [hget] at hq'
    split_ifs at hq' with hsame
    · obtain ⟨q₀, hq₀, rfl⟩ := Option.map_eq_some_iff.mp hq'
      rw [hsame] at hq₀
      rw [← Option.some.inj (hq.symm.trans hq₀)]
      exact ⟨hheld, hstage hactive'⟩
    · obtain ⟨hheld', hholds'⟩ := hv.active token' q' hq' hactive'
      exact ⟨hheld', hholds'.frame honly fun hid => hsame (hv.alone hq hq' hheld hheld' hid)⟩
  · obtain ⟨hstopped, -⟩ := hv.recovering r hr
    cases hstopped.symm.trans hrunning
  · refine (hv.intact id r hr hretained).frame honly ?_
    rw [hv.filed id r hr]
    exact (hkept id r hr hretained).1

theorem Valid.finished (hv : h.Valid sha256) {token : Bytes} {q : UploadRequest}
    (hq : h.requests.get? token = some q) {stage' : Stage} (hstage : stage'.active = false) :
    Spares sha256 h (h.advance token stage') := by
  have hrunning := hv.running hq
  have hget (token' : Bytes) := get?_advance (h := h) token token' stage'
  refine .same { hv with
    tokens := fun token' q' hq' => ?_
    queued := fun lease hlease => ?_
    active := fun token' q' hq' hactive' => ?_
    stopped := fun hstopped => by cases hstopped.symm.trans hrunning } rfl
  · rw [hget] at hq'
    split_ifs at hq'
    · obtain ⟨q₀, hq₀, rfl⟩ := Option.map_eq_some_iff.mp hq'
      exact hv.tokens token' q₀ hq₀
    · exact hv.tokens token' q' hq'
  · obtain ⟨hissued, hnone⟩ := hv.queued lease hlease
    refine ⟨hissued, ?_⟩
    rw [hget, hnone]
    split_ifs <;> rfl
  · rw [hget] at hq'
    split_ifs at hq'
    · obtain ⟨q₀, -, rfl⟩ := Option.map_eq_some_iff.mp hq'
      cases hstage.symm.trans hactive'
    · exact hv.active token' q' hq' hactive'

/-- Every system call of a request stays in the directory of its lease. -/
theorem Valid.request (hv : h.Valid sha256) {token : Bytes} {q : UploadRequest}
    (hq : h.requests.get? token = some q) (a : HostAction) :
    Spares sha256 h (h.request sha256 token q a) := by
  have hidle : Spares sha256 h h := .same hv rfl
  have hclosed : Spares sha256 h (h.advance token .closed) := hv.finished hq rfl
  have hat {stage : Stage} (hstage : q.stage = stage) (hactive : stage.active = true) :
      q.stage.active = true ∧ stage.Holds sha256 h.disk q.lease := by
    rw [← hstage] at hactive ⊢
    exact ⟨hactive, (hv.active token q hq hactive).2⟩
  cases a with
  | start _ =>
    unfold Host.request
    dsimp only
    split
    · next hstage =>
      split_ifs
      · exact hv.advanced hq (hat hstage rfl).1 (.refl hv.sound _) fun _ =>
          ⟨rfl, fun directory hdirectory => nomatch hdirectory⟩
      · exact hclosed
    · exact hidle
  | sweep _ s =>
    unfold Host.request
    dsimp only
    split
    · next r hstage =>
      obtain ⟨hactive, hholds⟩ := hat hstage rfl
      obtain ⟨hid, hopened⟩ := hholds
      obtain ⟨honly, hgoing⟩ := Removal.step_spec hv.sound hopened s
      rw [hid] at honly hgoing
      refine hv.advanced hq hactive honly fun hactive' => ?_
      cases hprogress : (r.step h.disk s).1 with
      | going r' => exact hgoing r' hprogress
      | done => trivial
      | failed => trivial
    · exact hidle
  | directory _ call =>
    unfold Host.request
    dsimp only
    split
    · next hstage =>
      obtain ⟨hactive, -⟩ := hat hstage rfl
      by_cases hrefused : call = .refused
      · rw [if_pos hrefused]
        exact hclosed
      · rw [if_neg hrefused]
        cases hmkdir : h.disk.mkdir q.lease.file.id with
        | none => exact hclosed
        | some made =>
          obtain ⟨honly, hget⟩ := hv.sound.mkdir hmkdir
          refine hv.advanced hq hactive honly fun hactive' => ?_
          by_cases hcall : call = Call.ok
          · rw [if_pos hcall]
            exact hget
          · rw [if_neg hcall]
            trivial
    · exact hidle
  | temporary _ call =>
    unfold Host.request
    dsimp only
    split
    · next directory hstage =>
      obtain ⟨hactive, hholds⟩ := hat hstage rfl
      cases hplan : plan q.lease with
      | none => exact hclosed
      | some plan =>
        dsimp only
        by_cases hrefused : call = .refused
        · rw [if_pos hrefused]
          exact hclosed
        · rw [if_neg hrefused]
          cases hcreate : h.disk.create directory plan.temporary with
          | none => exact hclosed
          | some made =>
            obtain ⟨honly, hget⟩ := hv.sound.create hholds hcreate
            refine hv.advanced hq hactive honly fun hactive' => ?_
            by_cases hcall : call = Call.ok
            · rw [if_pos hcall]
              refine ⟨hplan, rfl, _, { handle := made.1 }, hget, rfl, ?_, rfl, rfl⟩
              rw [Table.get?_upsert, if_pos rfl]
              rfl
            · rw [if_neg hcall]
              trivial
    · exact hidle
  | write _ bytes stored =>
    unfold Host.request
    dsimp only
    split
    · next t hstage =>
      obtain ⟨hactive, hholds⟩ := hat hstage rfl
      obtain ⟨honly, hhandle, hreceiving⟩ := Transfer.write_spec hv.sound hholds bytes stored
      refine hv.advanced hq hactive honly fun hactive' => ?_
      cases hwritten : (t.write h.disk bytes stored).1 with
      | some t' => exact hreceiving t' hwritten
      | none => exact hhandle
    · exact hidle
  | sealFile _ call =>
    unfold Host.request
    dsimp only
    split
    · next t hstage =>
      obtain ⟨hactive, hholds⟩ := hat hstage rfl
      obtain ⟨honly, hhandle, hintact⟩ :=
        @Transfer.sealFile_spec _ _ sha256 _ hv.sound hholds call
      refine hv.advanced hq hactive honly fun hactive' => ?_
      by_cases hinstalled : (t.sealFile sha256 h.disk call).1 = true
      · rw [if_pos hinstalled]
        exact ⟨hhandle, hintact hinstalled⟩
      · rw [if_neg hinstalled]
        exact hhandle
    · exact hidle
  | abort _ =>
    unfold Host.request
    dsimp only
    split
    · next t hstage =>
      obtain ⟨hactive, hholds⟩ := hat hstage rfl
      exact hv.advanced hq hactive (.refl hv.sound _) fun _ =>
        Transfer.Receiving.handle? hholds
    · next t hstage =>
      obtain ⟨hactive, hholds⟩ := hat hstage rfl
      exact hv.advanced hq hactive (.refl hv.sound _) fun _ => hholds.1
    · exact hidle
    · exact hidle
    · exact hclosed
  | unlink _ call =>
    unfold Host.request
    dsimp only
    split
    · next t hstage =>
      obtain ⟨hactive, hholds⟩ := hat hstage rfl
      obtain ⟨honly, hhandle⟩ := Transfer.unlink_spec hv.sound hholds t.temporary call
      exact hv.advanced hq hactive honly fun _ => hhandle
    · next t hstage =>
      obtain ⟨hactive, hholds⟩ := hat hstage rfl
      exact hv.advanced hq hactive (Transfer.unlink_spec hv.sound hholds t.name call).1
        fun himpossible => nomatch himpossible
    · exact hidle
  | _ => exact hidle

/-- The relay works while no lease of a request ends and no row under cleanup goes. -/
theorem Valid.relayed (hv : h.Valid sha256) {a : Action} (hgoes : a.restarts = false)
    (ended : ∀ env lease, a = .critical env (.complete lease) ∨ a = .critical env (.abandon lease) →
      ∀ token q, h.requests.get? token = some q → q.stage.active = true →
        q.lease.token ≠ lease.token)
    (completed : ∀ env lease, a = .critical env (.complete lease) → ∀ r,
      h.process.journal.uploads.get? lease.file.id = some r →
        Uploads.leased lease lease.file.id r = true → Intact sha256 h.disk r.record)
    (purged : ∀ env id, a = .critical env (.purge id) → id ∉ h.cleaner.ids) :
    Spares sha256 h { h with process := h.process.step enc a } := by
  obtain ⟨hrunning, hstopped⟩ := Process.step_running enc h.process hgoes
  have hmoves := hv.process.step_moves enc a
  have hissued : ∀ token ∈ h.process.issued, token ∈ (h.process.step enc a).issued :=
    (hv.process.step_epoch a).2
  refine .same { hv with
    process := (hv.process.step a).1
    filed := fun id => (hmoves id).filed (hv.filed id)
    tokens := fun token q hq => ?_
    queued := fun lease hlease => ?_
    active := fun token q hq hactive => ?_
    retired := fun id hid => ?_
    recovering := fun r hr => ?_
    stopped := fun hstops => hv.stopped (hrunning ▸ hstops)
    intact := fun id r' hr' hretained => ?_ } rfl
  · obtain ⟨htoken, hold⟩ := hv.tokens token q hq
    exact ⟨htoken, hissued _ hold⟩
  · obtain ⟨hold, hnone⟩ := hv.queued lease hlease
    exact ⟨hissued _ hold, hnone⟩
  · obtain ⟨⟨r, hr, hleased, hrecord⟩, hholds⟩ := hv.active token q hq hactive
    obtain ⟨-, -, htoken, hstate⟩ := Uploads.leased_id hleased
    refine ⟨⟨r, ?_, hleased, hrecord⟩, hholds⟩
    have hmove := hmoves q.lease.file.id
    rw [hr] at hmove
    refine hmove.stays hstate (fun env hlaunch => ?_) fun env lease hends hsame => ?_
    · rw [hlaunch] at hgoes
      exact nomatch hgoes
    · exact ended env lease hends token q hq hactive (htoken.symm.trans hsame.symm)
  · obtain ⟨r, hr, hdeleting⟩ := hv.retired id hid
    have hmove := hmoves id
    rw [hr] at hmove
    exact ⟨r, hmove.rests hdeleting fun env hpurge => purged env id hpurge hid, hdeleting⟩
  · obtain ⟨hdown, hopened, hunretained⟩ := hv.recovering r hr
    exact ⟨hrunning.trans hdown, hopened, by rw [hstopped hdown]; exact hunretained⟩
  · have hmove := hmoves id
    rw [hr'] at hmove
    obtain ⟨r, hr, hrecord, hbefore | ⟨env, lease, haction, hleased⟩⟩ := hmove.retained hretained
    · rw [← hrecord]
      exact hv.intact id r hr hbefore
    · rw [← hrecord]
      have hid := (Uploads.leased_id hleased).1
      rw [hid] at hr hleased
      exact completed env lease haction r hr hleased

theorem Valid.abandoned (hv : h.Valid sha256) {env : Env} {lease : Uploads.Lease}
    (ended : ∀ token q, h.requests.get? token = some q → q.stage.active = true →
      q.lease.token ≠ lease.token) :
    Spares sha256 h { h with process := h.process.step enc (.critical env (.abandon lease)) } := by
  refine hv.relayed rfl (fun env' lease' hends => ?_) (fun _ _ hcomplete => ?_)
    fun _ _ hpurge => nomatch hpurge
  · rcases hends with hends | hends
    · injection hends with _ hends
      exact nomatch hends
    · injection hends with _ hends
      injection hends with hends
      rw [← hends]
      exact ended
  · injection hcomplete with _ hcomplete
    exact nomatch hcomplete

theorem Valid.completed (hv : h.Valid sha256) {env : Env} {lease : Uploads.Lease}
    (ended : ∀ token q, h.requests.get? token = some q → q.stage.active = true →
      q.lease.token ≠ lease.token)
    (intact : ∀ r, h.process.journal.uploads.get? lease.file.id = some r →
      Uploads.leased lease lease.file.id r = true → Intact sha256 h.disk r.record) :
    Spares sha256 h { h with process := h.process.step enc (.critical env (.complete lease)) } := by
  refine hv.relayed rfl (fun env' lease' hends => ?_) (fun env' lease' hcomplete => ?_)
    fun _ _ hpurge => nomatch hpurge
  · rcases hends with hends | hends
    · injection hends with _ hends
      injection hends with hends
      rw [← hends]
      exact ended
    · injection hends with _ hends
      exact nomatch hends
  · injection hcomplete with _ hcomplete
    injection hcomplete with hcomplete
    rw [← hcomplete]
    exact intact

theorem Valid.purged (hv : h.Valid sha256) {env : Env} {id : Bytes} (hid : id ∉ h.cleaner.ids) :
    Spares sha256 h { h with process := h.process.step enc (.critical env (.purge id)) } := by
  refine hv.relayed rfl (fun env' lease hends => ?_) (fun env' lease hcomplete => ?_)
    fun env' id' hpurge => ?_
  · rcases hends with hends | hends <;>
    · injection hends with _ hends
      exact nomatch hends
  · injection hcomplete with _ hcomplete
    exact nomatch hcomplete
  · injection hpurge with _ hpurge
    injection hpurge with hpurge
    rw [← hpurge]
    exact hid

theorem step_failed {p : Process} {env : Env} {s : Section} (hfails : p.commits enc env s = false) :
    (p.step enc (.critical env s)).journal = p.journal := by
  unfold Process.step
  split_ifs
  · unfold Process.commits Process.locked at hfails
    change ((s.tx enc env.now).run (p.conn env)).2.db = p.journal
    rcases hrun : (s.tx enc env.now).run (p.conn env) with ⟨e | inserted, c'⟩
    · exact section_aborts s _ _ _ hrun
    · rw [hrun] at hfails
      exact nomatch hfails
  · rfl

/-- The invariant reads no more of the process than its journal. -/
theorem Valid.failed (hv : h.Valid sha256) {env : Env} {s : Section}
    (hfails : h.process.commits enc env s = false) :
    Spares sha256 h { h with process := h.process.step enc (.critical env s) } := by
  have hjournal := step_failed hfails
  have hissued : ∀ token ∈ h.process.issued,
      token ∈ (h.process.step enc (.critical env s)).issued :=
    (hv.process.step_epoch (.critical env s)).2
  obtain ⟨hrunning, -⟩ := Process.step_running enc h.process
    (show (Action.critical env s).restarts = false from rfl)
  refine .same ⟨(hv.process.step (.critical env s)).1, ?_, hv.sound, fun token q hq => ?_,
    fun lease hlease => ?_, ?_, ?_, hv.distinct, hv.cleaning, ?_, ?_, ?_⟩ rfl
  · rw [hjournal]
    exact hv.filed
  · obtain ⟨htoken, hold⟩ := hv.tokens token q hq
    exact ⟨htoken, hissued _ hold⟩
  · obtain ⟨hold, hnone⟩ := hv.queued lease hlease
    exact ⟨hissued _ hold, hnone⟩
  · rw [hjournal]
    exact hv.active
  · rw [hjournal]
    exact hv.retired
  · rw [hjournal, hrunning]
    exact hv.recovering
  · rw [hrunning]
    exact hv.stopped
  · rw [hjournal]
    exact hv.intact

theorem Spares.after {h₁ h₂ : Host} (first : Spares sha256 h h₁) (second : Spares sha256 h₁ h₂)
    (hjournal : h₁.process.journal = h.process.journal) : Spares sha256 h h₂ := by
  refine ⟨second.valid, fun id r hr hretained => ?_⟩
  rw [second.kept id r (by rw [hjournal]; exact hr) hretained]
  exact first.kept id r hr hretained

/-- A request that is gone leaves its lease to the queue, unless it released it. -/
theorem Valid.gone (hv : h.Valid sha256) {token : Bytes} {q : UploadRequest}
    (hq : h.requests.get? token = some q) (releases : List Uploads.Lease)
    (hreleases : releases = h.releases ∨ releases = h.releases ++ [q.lease]) :
    Spares sha256 h { h with
      requests := h.requests.deleteWhere fun token' _ => token' = token
      releases := releases } := by
  have hrunning := hv.running hq
  obtain ⟨htoken, hissued⟩ := hv.tokens token q hq
  have hkept (token' : Bytes) (q' : UploadRequest)
      (hq' : (h.requests.deleteWhere fun token' _ => token' = token).get? token' = some q') :
      h.requests.get? token' = some q' := by
    rw [Table.get?_deleteWhere, Option.filter_eq_some_iff] at hq'
    exact hq'.1
  refine .same { hv with
    tokens := fun token' q' hq' => hv.tokens token' q' (hkept token' q' hq')
    queued := fun lease hlease => ?_
    active := fun token' q' hq' => hv.active token' q' (hkept token' q' hq')
    stopped := fun hstopped => by cases hstopped.symm.trans hrunning } rfl
  have hold : lease ∈ h.releases ∨ lease = q.lease := by
    rcases hreleases with rfl | rfl
    · exact Or.inl hlease
    · exact (List.mem_append.mp hlease).imp_right List.mem_singleton.mp
  rw [Table.get?_deleteWhere]
  rcases hold with hold | rfl
  · obtain ⟨hold, hnone⟩ := hv.queued lease hold
    exact ⟨hold, by rw [hnone]; rfl⟩
  · rw [htoken, hq]
    exact ⟨hissued, by simp⟩

/-- A transfer is published only with its row, and released only when it has ended. -/
theorem Valid.settle (hv : h.Valid sha256) {token : Bytes} {q : UploadRequest}
    (hq : h.requests.get? token = some q) (a : HostAction) :
    Spares sha256 h (h.settle enc token q a) := by
  have hidle : Spares sha256 h h := .same hv rfl
  cases a with
  | complete _ env =>
    unfold Host.settle
    dsimp only
    split
    · next t hstage =>
      have hactive : q.stage.active = true := by
        rw [hstage]
        rfl
      obtain ⟨⟨r, hr, hleased, hrecord⟩, hholds⟩ := hv.active token q hq hactive
      rw [hstage] at hholds
      obtain ⟨hhandle, hintact⟩ := hholds
      by_cases henabled : h.process.enabled (.critical env (.complete q.lease))
      · rw [if_pos henabled]
        cases hcommits : h.process.commits enc env (.complete q.lease) with
        | false =>
          have hdropping : Spares sha256 h (h.advance token (.dropping t)) :=
            hv.advanced hq hactive (.refl hv.sound _) fun _ => hhandle
          exact hdropping.after (hdropping.valid.failed hcommits) rfl
        | true =>
          have hpublished : Spares sha256 h (h.advance token .published) := hv.finished hq rfl
          refine hpublished.after (hpublished.valid.completed
            (fun token' q' hq' hactive' hsame => ?_) fun r' hr' _ => ?_) rfl
          · rw [get?_advance] at hq'
            split_ifs at hq' with hkey
            · obtain ⟨q₀, -, rfl⟩ := Option.map_eq_some_iff.mp hq'
              cases hactive'
            · refine hkey ?_
              rw [← (hv.tokens token' q' hq').1, hsame, (hv.tokens token q hq).1]
          · rw [← Option.some.inj (hr.symm.trans hr'), hrecord]
            exact hintact
      · rw [if_neg henabled]
        exact hidle
    · exact hidle
  | release _ env =>
    unfold Host.settle
    dsimp only
    split
    · next hstage =>
      by_cases henabled : h.process.enabled (.critical env (.abandon q.lease))
      · rw [if_pos henabled]
        have hgone := hv.gone hq (if h.process.commits enc env (.abandon q.lease) then h.releases
          else h.releases ++ [q.lease]) (by split_ifs <;> simp)
        refine hgone.after (hgone.valid.abandoned fun token' q' hq' _ hsame => ?_) rfl
        rw [Table.get?_deleteWhere, Option.filter_eq_some_iff] at hq'
        obtain ⟨hq', hother⟩ := hq'
        rw [← (hv.tokens token' q' hq').1, hsame, (hv.tokens token q hq).1] at hother
        simp at hother
      · rw [if_neg henabled]
        exact hidle
    · exact hidle
  | _ => exact hidle

theorem Valid.directed (hv : h.Valid sha256) {a : Action} (hdirect : a.direct = true) :
    Spares sha256 h { h with process := h.process.step enc a } := by
  refine hv.relayed ?_ (fun env lease hends => ?_) (fun env lease hcomplete => ?_)
    fun env id hpurge => ?_
  · cases a with
    | launch env => exact nomatch hdirect
    | crash => exact nomatch hdirect
    | _ => rfl
  · rcases hends with rfl | rfl <;> exact nomatch hdirect
  · rw [hcomplete] at hdirect
    exact nomatch hdirect
  · rw [hpurge] at hdirect
    exact nomatch hdirect

theorem Valid.claim (hv : h.Valid sha256) (env : Env) (owner epoch id : Bytes) :
    Spares sha256 h (h.claim enc env owner epoch id) := by
  unfold Host.claim
  by_cases hstorage : h.storage = true
  swap
  · rw [if_neg hstorage]
    exact .same hv rfl
  rw [if_pos hstorage]
  have hclaimed : Spares sha256 h
      { h with process := h.process.step enc (.critical env (.claim owner epoch id)) } := by
    refine hv.relayed rfl (fun env lease hends => ?_) (fun env lease hcomplete => ?_)
      fun env id hpurge => nomatch hpurge
    · rcases hends with hends | hends <;>
      · injection hends with _ hends
        exact nomatch hends
    · injection hcomplete with _ hcomplete
      exact nomatch hcomplete
  cases hhanded : h.process.handed (.critical env (.claim owner epoch id)) with
  | nil => exact hclaimed
  | cons lease rest =>
    obtain ⟨-, hdrawn, hnew, hissued, r, hrow, hfile, hepoch⟩ :=
      Process.handed_spec enc hv.filed (hhanded ▸ List.mem_cons_self (a := lease) (l := rest))
    have hv' := hclaimed.valid
    have hget (token' : Bytes) := Table.get?_upsert h.requests lease.token
      { lease := lease } (fun _ => { lease := lease }) token'
    have hfresh : h.requests.get? lease.token = none := by
      by_contra hused
      obtain ⟨q, hq⟩ := Option.ne_none_iff_exists'.mp hused
      exact hnew (hv.tokens lease.token q hq).2
    have hheld : lease.Held
        (h.process.step enc (.critical env (.claim owner epoch id))).journal := by
      refine ⟨_, hrow, ?_, hfile.symm⟩
      simp [Uploads.leased, Uploads.claimedRow, hepoch]
    refine .same { hv' with
      tokens := fun token' q hq => ?_
      queued := fun lease' hlease' => ?_
      active := fun token' q hq hactive => ?_
      stopped := fun hdown => ?_ } rfl
    · rw [hget] at hq
      split_ifs at hq with hkey
      · rw [hfresh] at hq
        rw [← Option.some.inj hq, hkey, hissued]
        exact ⟨rfl, List.mem_append_left _ hdrawn⟩
      · exact hv'.tokens token' q hq
    · obtain ⟨hold, hnone⟩ := hv'.queued lease' hlease'
      refine ⟨hold, ?_⟩
      rw [hget, if_neg]
      · exact hnone
      · intro hkey
        exact hnew (hkey ▸ (hv.queued lease' hlease').1)
    · rw [hget] at hq
      split_ifs at hq with hkey
      · rw [hfresh] at hq
        rw [← Option.some.inj hq]
        exact ⟨hheld, trivial⟩
      · exact hv'.active token' q hq hactive
    · have hrunning := (Process.step_running enc h.process
        (show (Action.critical env (.claim owner epoch id)).restarts = false from rfl))
      rw [hrunning.2 (hrunning.1.symm.trans hdown)] at hissued
      exact absurd (hissued ▸ List.mem_append_left _ hdrawn) hnew

theorem Valid.reclaiming (hv : h.Valid sha256) {c : Cleaner}
    (retired : ∀ id ∈ c.ids, ∃ r, h.process.journal.uploads.get? id = some r ∧ r.state = .deleting)
    (distinct : c.ids.Nodup) (opened : c.Opened h.disk)
    (running : c = .idle ∨ h.process.running = true) :
    Spares sha256 h { h with cleaner := c } := by
  refine .same { hv with
    retired := retired
    distinct := distinct
    cleaning := opened
    stopped := fun hdown => ?_ } rfl
  obtain ⟨hnone, -, hreleases⟩ := hv.stopped hdown
  exact ⟨hnone, running.resolve_right fun hup => (by cases hdown.symm.trans hup), hreleases⟩

theorem Valid.dequeued (hv : h.Valid sha256) (releases : List Uploads.Lease)
    (hsub : ∀ lease ∈ releases, lease ∈ h.releases) :
    Spares sha256 h { h with releases := releases } := by
  refine .same { hv with
    queued := fun lease hlease => hv.queued lease (hsub lease hlease)
    stopped := fun hdown => ?_ } rfl
  obtain ⟨hrequests, hcleaner, hreleases⟩ := hv.stopped hdown
  rw [hreleases] at hsub
  exact ⟨hrequests, hcleaner, List.eq_nil_iff_forall_not_mem.mpr fun lease hlease =>
    absurd (hsub lease hlease) List.not_mem_nil⟩

theorem cleanup_ok {now : Int} {c c' : Conn Journal Bytes} {ids : List Bytes}
    (hrun : (cleanup now).run c = (.ok ids, c')) :
    (∃ c₁, (Uploads.expire now).run c = (.ok (), c₁) ∧ ∀ id ∈ ids, ∃ r,
      c₁.db.uploads.get? id = some r ∧ r.state = .deleting) ∧ ids.Nodup := by
  obtain ⟨_, c₁, hexpire, hquery⟩ := Sql.bind_ok hrun
  have hids := (Sql.query_ok hquery).1
  refine ⟨⟨c₁, hexpire, fun id hid => ?_⟩, ?_⟩
  · rw [hids] at hid
    obtain ⟨row, hrow, rfl⟩ := List.mem_map.mp hid
    obtain ⟨hget, hdeleting⟩ := Table.get?_select.mp (List.mem_of_mem_take hrow)
    exact ⟨row.2, hget, of_decide_eq_true hdeleting⟩
  · rw [hids]
    exact ((List.take_sublist _ _).map Prod.fst).nodup (Table.select_keys_nodup _ _)

theorem Valid.swept (hv : h.Valid sha256) {id : Bytes} {disk' : Storage}
    (honly : Disk.OnlyAt id h.disk disk')
    (unretained : retained h.process.journal id = false)
    (unleased : ∀ token q, h.requests.get? token = some q → q.stage.active = true →
      q.lease.file.id ≠ id) {c : Cleaner} {recovery : Recovery}
    (retired : ∀ id' ∈ c.ids, id' ∈ h.cleaner.ids) (distinct : c.ids.Nodup)
    (cleaning : c.Opened disk') (running : c = .idle ∨ h.process.running = true)
    (recovering : ∀ r, recovery = .removing r → h.process.running = false ∧ r.Opened disk' ∧
      retained h.process.journal r.id = false) :
    Spares sha256 h { h with disk := disk', cleaner := c, recovery := recovery } := by
  have hkept := Valid.kept honly fun r hr hretained => by
    rw [retained, hr] at unretained
    rcases hretained with hs | hs <;> simp [hs] at unretained
  refine ⟨{ hv with
    sound := honly.sound
    active := fun token q hq hactive => ?_
    retired := fun id' hid' => hv.retired id' (retired id' hid')
    distinct := distinct
    cleaning := cleaning
    recovering := recovering
    stopped := fun hdown => ?_
    intact := fun id' r hr hretained => ?_ }, fun id' r hr hretained => (hkept id' r hr hretained).2⟩
  · obtain ⟨hheld, hholds⟩ := hv.active token q hq hactive
    exact ⟨hheld, hholds.frame honly (unleased token q hq hactive)⟩
  · obtain ⟨hnone, -, hreleases⟩ := hv.stopped hdown
    exact ⟨hnone, running.resolve_right fun hup => (by cases hdown.symm.trans hup), hreleases⟩
  · refine (hv.intact id' r hr hretained).frame honly ?_
    rw [hv.filed id' r hr]
    exact (hkept id' r hr hretained).1

theorem Valid.retry (hv : h.Valid sha256) (lease : Uploads.Lease) (env : Env) :
    Spares sha256 h (h.clean enc (.retry lease env)) := by
  have hidle : Spares sha256 h h := .same hv rfl
  unfold Host.clean
  dsimp only
  by_cases hqueued : (h.storage && h.releases.contains lease) = true
  swap
  · rw [if_neg hqueued]
    exact hidle
  rw [if_pos hqueued]
  by_cases henabled : h.process.enabled (.critical env (.abandon lease))
  swap
  · rw [if_neg henabled]
    exact hidle
  rw [if_pos henabled]
  have hmem : lease ∈ h.releases := by simpa using (Bool.and_eq_true_iff.mp hqueued).2
  have hnone := (hv.queued lease hmem).2
  have hsub : ∀ l ∈ (if h.process.commits enc env (.abandon lease) then
      h.releases.filter fun l => l != lease else h.releases), l ∈ h.releases := by
    intro l hl
    split_ifs at hl
    · exact List.mem_of_mem_filter hl
    · exact hl
  have hdequeued := hv.dequeued _ hsub
  refine hdequeued.after (hdequeued.valid.abandoned fun token q hq _ hsame => ?_) rfl
  rw [← hsame, (hv.tokens token q hq).1] at hnone
  cases hnone.symm.trans hq

theorem Valid.expire (hv : h.Valid sha256) (env : Env) :
    Spares sha256 h (h.clean enc (.clean env)) := by
  have hidle : Spares sha256 h h := .same hv rfl
  unfold Host.clean
  dsimp only
  split
  · next hcleaner =>
    by_cases henabled : (h.storage && decide (h.process.enabled (.critical env .expire))) = true
    swap
    · rw [if_neg henabled]
      exact hidle
    rw [if_pos henabled]
    have henabled : h.process.enabled (.critical env .expire) :=
      of_decide_eq_true (Bool.and_eq_true_iff.mp henabled).2
    have hexpired : Spares sha256 h { h with
        process := h.process.step enc (.critical env .expire) } := hv.directed rfl
    have hrunning := Process.enabled_running (a := .critical env .expire) rfl henabled
    have hup : (h.process.step enc (.critical env .expire)).running = true :=
      (Process.step_running _ _ rfl).1.trans hrunning
    cases hcleanup : (h.process.locked env (cleanup env.now)).1 with
    | error e =>
      have hids (id : Bytes) (hid : id ∈ Cleaner.idle.ids) : ∃ r,
          (h.process.step enc (.critical env .expire)).journal.uploads.get? id = some r ∧
            r.state = .deleting := absurd hid List.not_mem_nil
      exact .same (hexpired.valid.reclaiming hids List.nodup_nil trivial (Or.inl rfl)).valid rfl
    | ok ids =>
      rcases hrun : (cleanup env.now).run (h.process.conn env) with ⟨result, c'⟩
      rw [Process.locked, hrun] at hcleanup
      rw [show result = .ok ids from hcleanup] at hrun
      obtain ⟨⟨c₁, hexpire, hdeleting⟩, hnodup⟩ := cleanup_ok hrun
      have hjournal : (h.process.step enc (.critical env .expire)).journal = c₁.db := by
        rw [Process.step, if_pos henabled]
        change ((Section.expire.tx enc env.now).run (h.process.conn env)).2.db = c₁.db
        rw [Section.tx, Sql.bind_run, hexpire]
        rfl
      have hids (id : Bytes) (hid : id ∈ (Cleaner.next ids).ids) : ∃ r,
          (h.process.step enc (.critical env .expire)).journal.uploads.get? id = some r ∧
            r.state = .deleting := by
        rw [Cleaner.next_ids] at hid
        rw [hjournal]
        exact hdeleting id hid
      exact .same (hexpired.valid.reclaiming hids (by rwa [Cleaner.next_ids])
        (Cleaner.next_opened _ _) (Or.inr hup)).valid rfl
  · exact hidle

theorem Valid.reclaim (hv : h.Valid sha256) (s : Sweep) :
    Spares sha256 h (h.clean enc (.reclaim s)) := by
  have hidle : Spares sha256 h h := .same hv rfl
  unfold Host.clean
  dsimp only
  split
  · next r rest hcleaner =>
    have hopened := hv.cleaning
    have hretired := hv.retired
    have hdistinct := hv.distinct
    rw [hcleaner] at hopened hretired hdistinct
    obtain ⟨honly, hgoing⟩ := Removal.step_spec hv.sound hopened s
    have hup : h.process.running = true := by
      by_contra hdown
      have hnone := (hv.stopped (by simpa using hdown)).2.1
      rw [hcleaner] at hnone
      cases hnone
    obtain ⟨row, hrow, hdeleting⟩ := hretired r.id List.mem_cons_self
    have hunretained : retained h.process.journal r.id = false := by
      simp [retained, hrow, hdeleting]
    have hunleased (token : Bytes) (q : UploadRequest) (hq : h.requests.get? token = some q)
        (hactive : q.stage.active = true) : q.lease.file.id ≠ r.id := by
      intro hid
      obtain ⟨⟨row', hrow', hleased, -⟩, -⟩ := hv.active token q hq hactive
      rw [hid] at hrow'
      rw [← Option.some.inj (hrow.symm.trans hrow')] at hleased
      cases (Uploads.leased_id hleased).2.2.2.symm.trans hdeleting
    have hrecovering (disk' : Storage) (r' : Removal) (hr' : h.recovery = .removing r') :
        h.process.running = false ∧ r'.Opened disk' ∧
          retained h.process.journal r'.id = false :=
      by cases (hv.recovering r' hr').1.symm.trans hup
    refine hv.swept honly hunretained hunleased ?_ ?_ ?_ (Or.inr hup) (hrecovering _)
    · intro id' hid'
      rw [hcleaner]
      cases hprogress : (r.step h.disk s).1 with
      | going r' =>
        rw [hprogress] at hid'
        have hid' : id' ∈ r'.id :: rest := hid'
        rwa [(hgoing r' hprogress).1] at hid'
      | done =>
        rw [hprogress] at hid'
        exact hid'
      | failed =>
        rw [hprogress] at hid'
        dsimp only at hid'
        rw [Cleaner.next_ids] at hid'
        exact List.mem_cons_of_mem _ hid'
    · cases hprogress : (r.step h.disk s).1 with
      | going r' =>
        change (r'.id :: rest).Nodup
        rw [(hgoing r' hprogress).1]
        exact hdistinct
      | done => exact hdistinct
      | failed =>
        dsimp only
        rw [Cleaner.next_ids]
        exact (List.nodup_cons.mp hdistinct).2
    · cases hprogress : (r.step h.disk s).1 with
      | going r' => exact (hgoing r' hprogress).2
      | done => trivial
      | failed => exact Cleaner.next_opened _ _
  · exact hidle

theorem Valid.purge (hv : h.Valid sha256) (env : Env) :
    Spares sha256 h (h.clean enc (.purge env)) := by
  have hidle : Spares sha256 h h := .same hv rfl
  unfold Host.clean
  dsimp only
  split
  · next id rest hcleaner =>
    by_cases henabled : h.process.enabled (.critical env (.purge id))
    swap
    · rw [if_neg henabled]
      exact hidle
    rw [if_pos henabled]
    have hup := Process.enabled_running (a := .critical env (.purge id)) rfl henabled
    have hretired := hv.retired
    have hdistinct := hv.distinct
    rw [hcleaner] at hretired hdistinct
    have hrest (id' : Bytes) (hid' : id' ∈ (Cleaner.next rest).ids) : id' ∈ id :: rest := by
      rw [Cleaner.next_ids] at hid'
      exact List.mem_cons_of_mem _ hid'
    cases hcommits : h.process.commits enc env (.purge id) with
    | true =>
      have hnext := hv.reclaiming (c := .next rest) (fun id' hid' => hretired id' (hrest id' hid'))
        (by rw [Cleaner.next_ids]; exact (List.nodup_cons.mp hdistinct).2)
        (Cleaner.next_opened _ _) (Or.inr hup)
      refine hnext.after (hnext.valid.purged fun hid => ?_) rfl
      rw [Cleaner.next_ids] at hid
      exact (List.nodup_cons.mp hdistinct).1 hid
    | false =>
      have hidle := hv.reclaiming (c := .idle) (fun _ hid => absurd hid List.not_mem_nil)
        List.nodup_nil trivial (Or.inl rfl)
      exact hidle.after (hidle.valid.failed hcommits) rfl
  · exact hidle

/-- Only the cleanup worker removes the files of a retired row, and only then
releases its space. -/
theorem Valid.clean (hv : h.Valid sha256) (a : HostAction) : Spares sha256 h (h.clean enc a) := by
  cases a with
  | retry lease env => exact hv.retry lease env
  | clean env => exact hv.expire env
  | reclaim s => exact hv.reclaim s
  | purge env => exact hv.purge env
  | _ => exact .same hv rfl

theorem Valid.recover (hv : h.Valid sha256) (s : Sweep) :
    Spares sha256 h (h.restart enc (.recover s)) := by
  have hidle : Spares sha256 h h := .same hv rfl
  unfold Host.restart
  dsimp only
  split
  · next r hrecovery =>
    obtain ⟨hdown, hopened, hunretained⟩ := hv.recovering r hrecovery
    obtain ⟨hnone, hcleaner, -⟩ := hv.stopped hdown
    obtain ⟨honly, hgoing⟩ := Removal.step_spec hv.sound hopened s
    refine hv.swept honly hunretained (fun token q hq => ?_) (fun id hid => hid) hv.distinct ?_
      (Or.inl hcleaner) fun r' hr' => ?_
    · cases (hnone token).symm.trans hq
    · rw [hcleaner]
      trivial
    · cases hprogress : (r.step h.disk s).1 with
      | going r'' =>
        obtain ⟨hid, hopened'⟩ := hgoing r'' hprogress
        rw [hprogress] at hr'
        rw [← Recovery.removing.inj hr']
        exact ⟨hdown, hopened', hid ▸ hunretained⟩
      | done =>
        rw [hprogress] at hr'
        cases hr'
      | failed =>
        rw [hprogress] at hr'
        cases hr'
  · exact hidle

/-- No request outlives the relay that a start replaces. -/
theorem Valid.launch (hv : h.Valid sha256) (env : Env) :
    Spares sha256 h (h.restart enc (.launch env)) := by
  have hidle : Spares sha256 h h := .same hv rfl
  have hlaunch : Spares sha256 h (if h.process.enabled (.launch env) then { h with
      process := h.process.step enc (.launch env)
      storage := env.faults.head? != some true
      recovery := .scanning } else h) := by
    split_ifs with henabled
    · obtain ⟨hnone, hcleaner, hreleases⟩ := hv.stopped henabled.1
      have hmoves := hv.process.step_moves enc (.launch env)
      refine .same {
        process := (hv.process.step (.launch env)).1
        filed := fun id => (hmoves id).filed (hv.filed id)
        sound := hv.sound
        tokens := fun token q hq => by cases (hnone token).symm.trans hq
        queued := fun lease hlease => ?_
        active := fun token q hq => by cases (hnone token).symm.trans hq
        retired := fun id hid => ?_
        distinct := hv.distinct
        cleaning := hv.cleaning
        recovering := fun r hr => by cases hr
        stopped := fun _ => ⟨hnone, hcleaner, hreleases⟩
        intact := fun id r' hr' hretained => ?_ } rfl
      · have hlease : lease ∈ h.releases := hlease
        rw [hreleases] at hlease
        exact absurd hlease List.not_mem_nil
      · have hid : id ∈ h.cleaner.ids := hid
        rw [hcleaner] at hid
        exact absurd hid List.not_mem_nil
      · have hmove := hmoves id
        rw [hr'] at hmove
        obtain ⟨r, hr, hrecord, hbefore | ⟨env', lease, haction, -⟩⟩ := hmove.retained hretained
        · rw [← hrecord]
          exact hv.intact id r hr hbefore
        · cases haction
    · exact hidle
  unfold Host.restart
  dsimp only
  split_ifs with hready
  · rw [if_pos (of_decide_eq_true (Bool.and_eq_true_iff.mp hready).2)] at hlaunch
    exact hlaunch
  · exact hidle

/-- A power failure loses only what is not durable. -/
theorem Valid.crash (hv : h.Valid sha256) (lost : List Nat) :
    Spares sha256 h (h.restart enc (.crash lost)) := by
  refine ⟨{
    process := (@Process.Valid.step enc _ hv.process .crash).1
    filed := hv.filed
    sound := hv.sound.lose lost
    tokens := fun token q hq => by cases hq
    queued := fun lease hlease => absurd hlease List.not_mem_nil
    active := fun token q hq => by cases hq
    retired := fun id hid => absurd hid List.not_mem_nil
    distinct := List.nodup_nil
    cleaning := trivial
    recovering := fun r hr => by cases hr
    stopped := fun _ => ⟨fun _ => rfl, rfl, rfl⟩
    intact := fun id r hr hretained => ?_ }, fun id r hr hretained => ?_⟩
  · obtain ⟨f, hf, hsize, hdigest, hsynced⟩ := hv.intact id r hr hretained
    exact ⟨f, Disk.file?_lose hf hsynced, hsize, hdigest, hsynced⟩
  · obtain ⟨f, hf, -, -, hsynced⟩ := hv.intact id r hr hretained
    rw [hv.filed id r hr] at hf
    rw [hf]
    exact Disk.file?_lose hf hsynced

/-- A start removes only files that no row keeps; a power failure loses only
what is not durable. -/
theorem Valid.restart (hv : h.Valid sha256) (a : HostAction) :
    Spares sha256 h (h.restart enc a) := by
  have hidle : Spares sha256 h h := .same hv rfl
  cases a with
  | unavailable =>
    unfold Host.restart
    dsimp only
    split_ifs
    · exact hidle
    · exact .same { hv with recovering := fun r hr => by cases hr } rfl
  | discard id =>
    unfold Host.restart
    dsimp only
    split
    · split_ifs with hdiscard
      · simp only [Bool.and_eq_true, Bool.not_eq_true'] at hdiscard
        obtain ⟨⟨⟨hdown, -⟩, -⟩, hunretained⟩ := hdiscard
        refine .same { hv with recovering := fun r hr => ?_ } rfl
        rw [← Recovery.removing.inj hr]
        exact ⟨hdown, fun directory hdirectory => (by cases hdirectory), hunretained⟩
      · exact hidle
    · exact hidle
  | recover s => exact hv.recover s
  | launch env => exact hv.launch env
  | crash lost => exact hv.crash lost
  | _ => exact hidle

theorem Valid.step (hv : h.Valid sha256) (a : HostAction) :
    Spares sha256 h (h.step sha256 enc a) := by
  have hidle : Spares sha256 h h := .same hv rfl
  apply Host.step_cases (P := fun _ h' => Spares sha256 h h')
  case hidle => exact fun _ => hidle
  case hrelay => exact fun _ hdirect => hv.directed hdirect
  case hclaim => exact fun env owner epoch id => hv.claim env owner epoch id
  case hrequest => exact fun _ _ a hq => hv.request hq a
  case hsettle => exact fun _ _ a hq => hv.settle hq a
  case hclean => exact fun a => hv.clean a
  case hrestart => exact fun a => hv.restart a

end Parts

/-- A host that is not running, over the journal and the files an earlier run left. -/
structure Initial (sha256 : Bytes → Bytes) (h : Host) : Prop where
  process : h.process.Initial
  filed : ∀ id r, h.process.journal.uploads.get? id = some r → r.record.id = id
  sound : h.disk.Sound
  intact : ∀ id r, h.process.journal.uploads.get? id = some r → r.Retained →
    Intact sha256 h.disk r.record
  requests : ∀ token, h.requests.get? token = none
  releases : h.releases = []
  cleaner : h.cleaner = .idle
  recovery : h.recovery = .scanning

theorem new_initial (sha256 : Bytes → Bytes) (epoch : Bytes) :
    Initial sha256 { process := .new epoch } where
  process := Process.new_initial epoch
  filed _ _ h := nomatch h
  sound := ⟨fun _ _ _ _ h => (nomatch h), fun _ _ h => (nomatch h)⟩
  intact _ _ h := nomatch h
  requests _ := rfl
  releases := rfl
  cleaner := rfl
  recovery := rfl

theorem Initial.valid {sha256 : Bytes → Bytes} {h : Host} (hi : h.Initial sha256) :
    h.Valid sha256 where
  process := hi.process.valid
  filed := hi.filed
  sound := hi.sound
  tokens token q hq := nomatch (hi.requests token).symm.trans hq
  queued lease hlease := by
    rw [hi.releases] at hlease
    exact absurd hlease List.not_mem_nil
  active token q hq := nomatch (hi.requests token).symm.trans hq
  retired id hid := by
    rw [hi.cleaner] at hid
    exact absurd hid List.not_mem_nil
  distinct := by
    rw [hi.cleaner]
    exact List.nodup_nil
  cleaning := by
    rw [hi.cleaner]
    trivial
  recovering r hr := nomatch hi.recovery.symm.trans hr
  stopped _ := ⟨hi.requests, hi.cleaner, hi.releases⟩
  intact := hi.intact

end Host

def hosting (sha256 : Bytes → Bytes) (enc : Encoding) : Machine Host HostAction Unit where
  step := Host.step sha256 enc
  out _ _ := []

/-- In every run, the file of a ready or pinned upload has the declared length and
SHA-256 under the upload's identifier and name, and no step touches it. -/
theorem ready_uploads_intact (sha256 : Bytes → Bytes) (enc : Encoding) {h : Host}
    (initial : h.Initial sha256) (actions : List HostAction) :
    let run := (hosting sha256 enc).run h
    (∀ id r, (run actions).process.journal.uploads.get? id = some r →
      r.state = .ready ∨ r.state = .pinned → ∃ f, (run actions).disk.file? id r.record.name = some f ∧
        Attachments.validate r.record = .ok f.bytes.length ∧
        hexToBytes r.record.sha256 = some (sha256 f.bytes) ∧ f.synced = true) ∧
    ∀ before a after, actions = before ++ a :: after → ∀ id r,
      (run before).process.journal.uploads.get? id = some r →
        r.state = .ready ∨ r.state = .pinned →
          (run (before ++ [a])).disk.file? id r.record.name =
            (run before).disk.file? id r.record.name := by
  intro run
  have hvalid (past : List HostAction) : (run past).Valid sha256 :=
    (hosting sha256 enc).run_invariant (fun _ a hv => (hv.step a).valid) h past initial.valid
  refine ⟨fun id r hr hretained => ?_, fun before a after _ id r hr hretained => ?_⟩
  · have hintact := (hvalid actions).intact id r hr hretained
    unfold Intact at hintact
    rwa [(hvalid actions).filed id r hr] at hintact
  · simp only [run, Machine.run_append]
    exact ((hvalid before).step a).kept id r hr hretained

namespace Sample

def notes : Upload where
  id := text "DAAAAAAAAAAAAAAAAAAAAA"
  name := text "notes.txt"
  mimeType := text "text/plain"
  bytes := text "3"
  sha256 := text "ba7816bf8f01cfea414140de5dae2223b00361a396177a9cb410ff61f20015ad"

/-- SHA-256 of the notes, which are `abc`. -/
def sha256 (bytes : Bytes) : Bytes :=
  if bytes = text "abc" then (hexToBytes notes.sha256).getD [] else []

/-- The notes from their reservation to a crash after they were completed. -/
def receiveNotes : List HostAction := [
  .launch { now := 0 },
  .relay (.critical { now := 1 } (.reserve device epoch notes)),
  .claim { now := 2, fresh := [token] } device epoch notes.id,
  .start token,
  .sweep token (.open .ok),
  .directory token .ok,
  .temporary token .ok,
  .write token (text "ab") none,
  .write token (text "c") none,
  .sealFile token .ok,
  .complete token { now := 3 },
  .crash [0, 1]]

end Sample

theorem ready_uploads_intact_notes :
    let h := (hosting Sample.sha256 Sample.encoding).run { process := .new Sample.epoch }
      Sample.receiveNotes
    ∃ f, h.disk.file? Sample.notes.id Sample.notes.name = some f ∧ f.bytes.length = 3 := by
  intro h
  have hrow : (h.process.journal.uploads.get? Sample.notes.id).any (fun r =>
      decide (r.state = .ready) && decide (r.record = Sample.notes)) = true := by decide +kernel
  obtain ⟨r, hr, hready⟩ := (Option.any_eq_true _ _).mp hrow
  obtain ⟨hready, hrecord⟩ := Bool.and_eq_true_iff.mp hready
  obtain ⟨f, hf, hsize, -, -⟩ := (ready_uploads_intact Sample.sha256 Sample.encoding
    (Host.new_initial Sample.sha256 Sample.epoch) Sample.receiveNotes).1 _ r hr
      (Or.inl (of_decide_eq_true hready))
  rw [of_decide_eq_true hrecord] at hf hsize
  have hthree : Attachments.validate Sample.notes = .ok 3 := by decide +kernel
  exact ⟨f, hf, Except.ok.inj (hsize.symm.trans hthree)⟩

end Zimbr.Relay
