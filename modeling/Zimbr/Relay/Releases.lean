import Zimbr.Relay.Intact
import Zimbr.Relay.Quota

set_option autoImplicit false

/-!
# The queue of deferred releases

A request that ends gives its lease back; when the statement fails the lease waits
in the queue. Each lease that is held or waits has a row of the ledger to itself,
as long as no row is purged that one of them still names.
-/
namespace Zimbr.Relay
open Library Files

namespace Host

def leaseOf (h : Host) (token : Bytes) : Option Uploads.Lease :=
  (h.requests.get? token).map (·.lease)

/-- An open upload holds the lease, or its release waits in the queue. -/
def Owes (h : Host) (lease : Uploads.Lease) : Prop :=
  (∃ token, h.leaseOf token = some lease) ∨ lease ∈ h.releases

def Settles (h : Host) : HostAction → Prop
  | .purge _ =>
    match h.cleaner with
    | .purging id _ => ∀ lease, h.Owes lease → lease.file.id ≠ id
    | _ => True
  | _ => True

end Host

/-- The row of the lease is receiving under it, or its transfer was completed. -/
def Uploads.Lease.Busy (lease : Uploads.Lease) (j : Journal) : Prop :=
  ∃ r, j.uploads.get? lease.file.id = some r ∧
    (Uploads.leased lease lease.file.id r = true ∨
      r.state = .ready ∨ r.state = .pinned ∨ r.state = .deleting)

/-- The step may end the lease, or take its row away. -/
def Action.ends (a : Action) (lease : Uploads.Lease) : Prop :=
  a.restarts = true ∨
    (∃ env released, a = .critical env (.abandon released) ∧
      released.file.id = lease.file.id) ∨
    ∃ env, a = .critical env (.purge lease.file.id)

/-- Every lease that is held or waits has a row of its own. -/
structure Host.OneEach (h : Host) : Prop where
  busy : ∀ lease, h.Owes lease → lease.Busy h.process.journal
  opened : ∀ token token' lease lease', h.leaseOf token = some lease →
    h.leaseOf token' = some lease' → lease.file.id = lease'.file.id → token = token'
  queued : (h.releases.map (·.file.id)).Nodup
  apart : ∀ token lease lease', h.leaseOf token = some lease → lease' ∈ h.releases →
    lease.file.id ≠ lease'.file.id

section Rows

variable {enc : Encoding} {p : Process}

theorem Uploads.Lease.Busy.not_reserved {lease : Uploads.Lease} {j : Journal} (h : lease.Busy j)
    {r : UploadRow} (hr : j.uploads.get? lease.file.id = some r) : r.state ≠ .reserved := by
  intro hreserved
  obtain ⟨r', hr', hbusy⟩ := h
  rw [← Option.some.inj (hr.symm.trans hr')] at hbusy
  rcases hbusy with hleased | hstate | hstate | hstate
  · exact nomatch hreserved.symm.trans (Uploads.leased_id hleased).2.2.2
  · exact nomatch hreserved.symm.trans hstate
  · exact nomatch hreserved.symm.trans hstate
  · exact nomatch hreserved.symm.trans hstate

theorem Uploads.Lease.Busy.step {lease : Uploads.Lease} (h : lease.Busy p.journal) (hv : p.Valid)
    {a : Action} (hends : ¬a.ends lease) : lease.Busy (p.step enc a).journal := by
  obtain ⟨r, hr, hbusy⟩ := h
  have hmove := hv.step_moves enc a lease.file.id
  unfold Uploads.Lease.Busy
  rw [hr] at hmove
  generalize (p.step enc a).journal.uploads.get? lease.file.id = o' at hmove
  cases hmove with
  | used _ r' h =>
    refine ⟨r', rfl, ?_⟩
    rcases h with hsame | ⟨-, hafter, -⟩
    · rw [hsame]
      exact hbusy
    · exact Or.inr (Or.inr hafter)
  | claimed _ _ _ _ _ _ state =>
    rcases hbusy with hleased | hstate | hstate | hstate
    · exact nomatch state.symm.trans (Uploads.leased_id hleased).2.2.2
    · exact nomatch state.symm.trans hstate
    · exact nomatch state.symm.trans hstate
    · exact nomatch state.symm.trans hstate
  | completed => exact ⟨_, rfl, Or.inr (Or.inl rfl)⟩
  | released _ env released action live =>
    exact absurd (Or.inr (Or.inl ⟨env, released, action, (Uploads.leased_id live).1.symm⟩)) hends
  | recovered _ env action =>
    rw [action] at hends
    exact absurd (Or.inl rfl) hends
  | retired => exact ⟨_, rfl, Or.inr (Or.inr (Or.inr rfl))⟩
  | purged _ env action => exact absurd (Or.inr (Or.inr ⟨env, action⟩)) hends

theorem handed_reserved
    (filed : ∀ id r, p.journal.uploads.get? id = some r → r.record.id = id) {env : Env}
    {owner epoch id : Bytes} {lease : Uploads.Lease}
    (h : lease ∈ p.handed (.critical env (.claim owner epoch id))) :
    ∃ r, p.journal.uploads.get? lease.file.id = some r ∧ r.state = .reserved := by
  by_cases henabled : p.enabled (.critical env (.claim owner epoch id))
  swap
  · rw [Process.handed_disabled henabled] at h
    exact absurd h List.not_mem_nil
  rcases hclaim : (Uploads.claim owner epoch id).run (p.conn env) with ⟨e | claimed, c'⟩
  · rw [Process.handed, if_pos henabled, Process.locked, hclaim] at h
    exact absurd h List.not_mem_nil
  rcases Uploads.claim_ok hclaim with
    ⟨found, hclaimed, -⟩ | ⟨r, token, -, hr, -, -, hstate, hclaimed, -⟩
  · rw [Process.handed, if_pos henabled, Process.locked, hclaim, hclaimed] at h
    exact absurd h List.not_mem_nil
  · rw [Process.handed, if_pos henabled, Process.locked, hclaim, hclaimed,
      List.mem_singleton] at h
    have hr : p.journal.uploads.get? id = some r := hr
    rw [h, filed id r hr]
    exact ⟨r, hr, hstate⟩

end Rows

namespace Host

variable {sha256 : Bytes → Bytes} {enc : Encoding} {h h' : Host}

section Ownership

theorem OneEach.same (ho : h.OneEach) (hleases : ∀ token, h'.leaseOf token = h.leaseOf token)
    (hreleases : h'.releases = h.releases)
    (hbusy : ∀ lease, h.Owes lease → lease.Busy h'.process.journal) : h'.OneEach where
  busy lease howes := by
    simp only [Owes, hleases, hreleases] at howes
    exact hbusy lease howes
  opened token token' lease lease' := by
    rw [hleases, hleases]
    exact ho.opened token token' lease lease'
  queued := by
    rw [hreleases]
    exact ho.queued
  apart token lease lease' := by
    rw [hleases, hreleases]
    exact ho.apart token lease lease'

theorem OneEach.claimed (ho : h.OneEach) {new : Uploads.Lease}
    (hleases : ∀ token, h'.leaseOf token = if token = new.token then some new else h.leaseOf token)
    (hreleases : h'.releases = h.releases) (hnew : ∀ lease, h.Owes lease → lease.file.id ≠ new.file.id)
    (hbusy : ∀ lease, h.Owes lease → lease.Busy h'.process.journal)
    (hlive : new.Busy h'.process.journal) : h'.OneEach where
  busy lease howes := by
    simp only [Owes, hreleases] at howes
    rcases howes with ⟨token, htoken⟩ | hqueued
    · rw [hleases] at htoken
      split_ifs at htoken
      · rw [← Option.some.inj htoken]
        exact hlive
      · exact hbusy lease (Or.inl ⟨token, htoken⟩)
    · exact hbusy lease (Or.inr hqueued)
  opened token token' lease lease' htoken htoken' hid := by
    rw [hleases] at htoken htoken'
    split_ifs at htoken htoken' with hsame hsame' hsame'
    · exact hsame.trans hsame'.symm
    · rw [← Option.some.inj htoken] at hid
      exact absurd hid.symm (hnew lease' (Or.inl ⟨token', htoken'⟩))
    · rw [← Option.some.inj htoken'] at hid
      exact absurd hid (hnew lease (Or.inl ⟨token, htoken⟩))
    · exact ho.opened token token' lease lease' htoken htoken' hid
  queued := by
    rw [hreleases]
    exact ho.queued
  apart token lease lease' htoken hqueued := by
    rw [hleases] at htoken
    rw [hreleases] at hqueued
    split_ifs at htoken
    · rw [← Option.some.inj htoken]
      exact fun hid => hnew lease' (Or.inr hqueued) hid.symm
    · exact ho.apart token lease lease' htoken hqueued

/-- The lease of a request that is gone is given back, or waits in the queue. -/
theorem OneEach.gone (ho : h.OneEach) {token : Bytes} {lease : Uploads.Lease}
    (hlease : h.leaseOf token = some lease)
    (hleases : ∀ token', h'.leaseOf token' = if token' = token then none else h.leaseOf token')
    (hreleases : h'.releases = h.releases ∨
      h'.releases = h.releases ++ [lease] ∧ h'.process.journal = h.process.journal)
    (hbusy : ∀ other, h.Owes other → other.file.id ≠ lease.file.id →
      other.Busy h'.process.journal) : h'.OneEach := by
  have hkept (token' : Bytes) (other : Uploads.Lease) (hother : h'.leaseOf token' = some other) :
      h.leaseOf token' = some other ∧ other.file.id ≠ lease.file.id := by
    rw [hleases] at hother
    split_ifs at hother with hsame
    exact ⟨hother, fun hid => hsame (ho.opened token' token other lease hother hlease hid)⟩
  have hopened (token' token'' : Bytes) (other other' : Uploads.Lease)
      (hother : h'.leaseOf token' = some other) (hother' : h'.leaseOf token'' = some other')
      (hid : other.file.id = other'.file.id) : token' = token'' :=
    ho.opened token' token'' other other' (hkept _ _ hother).1 (hkept _ _ hother').1 hid
  have hold (other : Uploads.Lease) (hother : other ∈ h.releases) :
      other.file.id ≠ lease.file.id := fun hid => ho.apart token lease other hlease hother hid.symm
  rcases hreleases with hreleases | ⟨hreleases, hjournal⟩
  · refine ⟨fun other howes => ?_, hopened, ?_, fun token' other other' hother hother' => ?_⟩
    · rcases howes with ⟨token', hother⟩ | hqueued
      · exact hbusy other (Or.inl ⟨token', (hkept _ _ hother).1⟩) (hkept _ _ hother).2
      · rw [hreleases] at hqueued
        exact hbusy other (Or.inr hqueued) (hold other hqueued)
    · rw [hreleases]
      exact ho.queued
    · rw [hreleases] at hother'
      exact ho.apart token' other other' (hkept _ _ hother).1 hother'
  · refine ⟨fun other howes => ?_, hopened, ?_, fun token' other other' hother hother' => ?_⟩
    · rw [hjournal]
      rcases howes with ⟨token', hother⟩ | hqueued
      · exact ho.busy other (Or.inl ⟨token', (hkept _ _ hother).1⟩)
      · rw [hreleases, List.mem_append, List.mem_singleton] at hqueued
        rcases hqueued with hqueued | rfl
        · exact ho.busy other (Or.inr hqueued)
        · exact ho.busy other (Or.inl ⟨token, hlease⟩)
    · rw [hreleases, List.map_append, List.map_singleton]
      refine ho.queued.append (List.nodup_singleton _) fun id hid hlast => ?_
      obtain ⟨other, hother, rfl⟩ := List.mem_map.mp hid
      exact hold other hother (List.mem_singleton.mp hlast)
    · rw [hreleases, List.mem_append, List.mem_singleton] at hother'
      rcases hother' with hother' | rfl
      · exact ho.apart token' other other' (hkept _ _ hother).1 hother'
      · exact (hkept _ _ hother).2

theorem OneEach.dequeued (ho : h.OneEach) {lease : Uploads.Lease} (hlease : lease ∈ h.releases)
    (hleases : ∀ token, h'.leaseOf token = h.leaseOf token)
    (hreleases : h'.releases = h.releases.filter fun l => l != lease)
    (hbusy : ∀ other, h.Owes other → other.file.id ≠ lease.file.id →
      other.Busy h'.process.journal) : h'.OneEach := by
  have hkept (other : Uploads.Lease) (hother : other ∈ h'.releases) :
      other ∈ h.releases ∧ other.file.id ≠ lease.file.id := by
    rw [hreleases, List.mem_filter, bne_iff_ne] at hother
    exact ⟨hother.1, fun hid =>
      hother.2 (List.inj_on_of_nodup_map ho.queued hother.1 hlease hid)⟩
  refine ⟨fun other howes => ?_, ?_, ?_, fun token other other' hother hother' => ?_⟩
  · rcases howes with ⟨token, hother⟩ | hqueued
    · rw [hleases] at hother
      exact hbusy other (Or.inl ⟨token, hother⟩) (ho.apart token other lease hother hlease)
    · exact hbusy other (Or.inr (hkept other hqueued).1) (hkept other hqueued).2
  · intro token token' other other'
    rw [hleases, hleases]
    exact ho.opened token token' other other'
  · rw [hreleases]
    exact (List.filter_sublist.map _).nodup ho.queued
  · rw [hleases] at hother
    exact ho.apart token other other' hother (hkept other' hother').1

end Ownership

section Steps

theorem leaseOf_advance (h : Host) (token token' : Bytes) (stage : Stage) :
    (h.advance token stage).leaseOf token' = h.leaseOf token' := by
  rw [leaseOf, get?_advance]
  split_ifs
  · rw [Option.map_map]
    rfl
  · rfl

structure Still (h h' : Host) : Prop where
  process : h'.process = h.process
  releases : h'.releases = h.releases
  leases : ∀ token, h'.leaseOf token = h.leaseOf token

theorem Still.refl (h : Host) : Still h h := ⟨rfl, rfl, fun _ => rfl⟩

theorem Still.advanced (h : Host) (disk : Storage) (token : Bytes) (stage : Stage) :
    Still h ({ h with disk := disk }.advance token stage) :=
  ⟨rfl, rfl, fun token' => leaseOf_advance { h with disk := disk } token token' stage⟩

theorem request_still (h : Host) (token : Bytes) (q : UploadRequest) (a : HostAction) :
    Still h (h.request sha256 token q a) := by
  have hadvance (stage : Stage) : Still h (h.advance token stage) := .advanced h h.disk token stage
  unfold Host.request
  split
  · split
    · split_ifs
      · exact hadvance _
      · exact hadvance _
    · exact .refl h
  · split
    · exact .advanced h _ token _
    · exact .refl h
  · split
    · split_ifs
      · exact hadvance _
      · split
        · exact hadvance _
        · exact .advanced h _ token _
      · split
        · exact hadvance _
        · exact .advanced h _ token _
    · exact .refl h
  · split
    · split
      · exact hadvance _
      · split_ifs
        · exact hadvance _
        · split
          · exact hadvance _
          · exact .advanced h _ token _
        · split
          · exact hadvance _
          · exact .advanced h _ token _
    · exact .refl h
  · split
    · exact .advanced h _ token _
    · exact .refl h
  · split
    · exact .advanced h _ token _
    · exact .refl h
  · split
    · exact hadvance _
    · exact hadvance _
    · exact .refl h
    · exact .refl h
    · exact hadvance _
  · split
    · exact .advanced h _ token _
    · exact .advanced h _ token _
    · exact .refl h
  · exact .refl h

theorem OneEach.still (ho : h.OneEach) (hstill : Still h h') : h'.OneEach :=
  ho.same hstill.leases hstill.releases fun lease howes => by
    rw [hstill.process]
    exact ho.busy lease howes

theorem OneEach.processed (ho : h.OneEach) (hv : h.process.Valid) {a : Action}
    (hprocess : h'.process = h.process.step enc a)
    (hleases : ∀ token, h'.leaseOf token = h.leaseOf token) (hreleases : h'.releases = h.releases)
    (hends : ∀ lease, h.Owes lease → ¬a.ends lease) : h'.OneEach :=
  ho.same hleases hreleases fun lease howes => by
    rw [hprocess]
    exact (ho.busy lease howes).step hv (hends lease howes)

theorem not_ends {env : Env} {s : Section} {lease : Uploads.Lease}
    (habandon : ∀ released, s ≠ .abandon released) (hpurge : ∀ id, s ≠ .purge id) :
    ¬(Action.critical env s).ends lease := by
  rintro (hrestarts | ⟨env', released, haction, -⟩ | ⟨env', haction⟩)
  · exact nomatch hrestarts
  · injection haction with _ hs
    exact habandon released hs
  · injection haction with _ hs
    exact hpurge _ hs

theorem direct_not_ends {a : Action} (hdirect : a.direct = true) {lease : Uploads.Lease} :
    ¬a.ends lease := by
  rintro (hrestarts | ⟨env, released, rfl, -⟩ | ⟨env, rfl⟩)
  · cases a with
    | launch env => exact nomatch hdirect
    | crash => exact nomatch hdirect
    | _ => exact nomatch hrestarts
  · exact nomatch hdirect
  · exact nomatch hdirect

theorem abandon_not_ends {env : Env} {lease other : Uploads.Lease}
    (hne : other.file.id ≠ lease.file.id) : ¬(Action.critical env (.abandon lease)).ends other := by
  rintro (hrestarts | ⟨env', released, haction, hid⟩ | ⟨env', haction⟩)
  · exact nomatch hrestarts
  · injection haction with _ hs
    injection hs with hs
    rw [← hs] at hid
    exact hne hid.symm
  · injection haction with _ hs
    exact nomatch hs

theorem purge_not_ends {env : Env} {id : Bytes} {lease : Uploads.Lease}
    (hne : lease.file.id ≠ id) : ¬(Action.critical env (.purge id)).ends lease := by
  rintro (hrestarts | ⟨env', released, haction, -⟩ | ⟨env', haction⟩)
  · exact nomatch hrestarts
  · injection haction with _ hs
    exact nomatch hs
  · injection haction with _ hs
    injection hs with hs
    exact hne hs.symm

theorem OneEach.settle (ho : h.OneEach) (hv : h.Valid sha256) {token : Bytes} {q : UploadRequest}
    (hq : h.requests.get? token = some q) (a : HostAction) : (h.settle enc token q a).OneEach := by
  have hlease : h.leaseOf token = some q.lease := by
    rw [leaseOf, hq]
    rfl
  unfold Host.settle
  split
  · split
    · split_ifs
      · exact ho.processed hv.process rfl (leaseOf_advance _ token · _) rfl
          fun lease _ => not_ends (fun _ hs => nomatch hs) fun _ hs => nomatch hs
      · exact ho.processed hv.process rfl (leaseOf_advance _ token · _) rfl
          fun lease _ => not_ends (fun _ hs => nomatch hs) fun _ hs => nomatch hs
      · exact ho
    · exact ho
  · split
    · next env _ _ =>
      have hgone (token'' : Bytes) : ((h.requests.deleteWhere fun other _ =>
          decide (other = token)).get? token'').map (·.lease) =
            if token'' = token then none else h.leaseOf token'' := by
        rw [Table.get?_deleteWhere, leaseOf]
        by_cases hsame : token'' = token
        · cases h.requests.get? token'' <;> simp [hsame]
        · cases h.requests.get? token'' <;> simp [hsame]
      have hbusy (other : Uploads.Lease) (howes : h.Owes other)
          (hne : other.file.id ≠ q.lease.file.id) :
          other.Busy (h.process.step enc (.critical env (.abandon q.lease))).journal :=
        (ho.busy other howes).step hv.process (abandon_not_ends hne)
      split_ifs with henabled hcommits
      · exact ho.gone hlease hgone (Or.inl rfl) hbusy
      · have hfails : h.process.commits enc env (.abandon q.lease) = false := by
          simpa using hcommits
        exact ho.gone hlease hgone (Or.inr ⟨rfl, step_failed hfails⟩) hbusy
      · exact ho
    · exact ho
  · exact ho

theorem OneEach.claim (ho : h.OneEach) (hv : h.Valid sha256) (env : Env)
    (owner epoch id : Bytes) : (h.claim enc env owner epoch id).OneEach := by
  unfold Host.claim
  split_ifs
  swap
  · exact ho
  have hkept (lease : Uploads.Lease) (howes : h.Owes lease) :
      lease.Busy (h.process.step enc (.critical env (.claim owner epoch id))).journal :=
    (ho.busy lease howes).step hv.process
      (not_ends (fun _ hs => nomatch hs) fun _ hs => nomatch hs)
  cases hhanded : h.process.handed (.critical env (.claim owner epoch id)) with
  | nil => exact ho.same (fun _ => rfl) rfl hkept
  | cons lease rest =>
    have hmem : lease ∈ h.process.handed (.critical env (.claim owner epoch id)) := by
      rw [hhanded]
      exact List.mem_cons_self
    obtain ⟨-, -, -, -, r, hafter, -, hepoch⟩ := Process.handed_spec enc hv.filed hmem
    obtain ⟨r₀, hr₀, hreserved⟩ := handed_reserved hv.filed hmem
    refine @OneEach.claimed h _ ho lease (fun token => ?_) rfl (fun other howes hid => ?_) hkept ?_
    · rw [leaseOf, Table.get?_upsert, leaseOf]
      split_ifs with hsame
      · cases h.requests.get? lease.token <;> rfl
      · rfl
    · rw [← hid] at hr₀
      exact (ho.busy other howes).not_reserved hr₀ hreserved
    · refine ⟨_, hafter, Or.inl ?_⟩
      simp [Uploads.leased, Uploads.claimedRow, hepoch]

theorem OneEach.clean (ho : h.OneEach) (hv : h.Valid sha256) {a : HostAction}
    (hsettles : h.Settles a) : (h.clean enc a).OneEach := by
  unfold Host.clean
  split
  · next lease env =>
    split_ifs with hready henabled hcommits
    · have hlease : lease ∈ h.releases := by
        simp only [Bool.and_eq_true, List.contains_iff_mem] at hready
        exact hready.2
      exact ho.dequeued hlease (fun _ => rfl) rfl fun other howes hne =>
        (ho.busy other howes).step hv.process (abandon_not_ends hne)
    · have hfails : h.process.commits enc env (.abandon lease) = false := by
        simpa using hcommits
      refine ho.same (fun _ => rfl) rfl fun other howes => ?_
      change other.Busy (h.process.step enc (.critical env (.abandon lease))).journal
      rw [step_failed hfails]
      exact ho.busy other howes
    · exact ho
    · exact ho
  · split
    · split_ifs
      · exact ho.processed hv.process rfl (fun _ => rfl) rfl
          fun lease _ => not_ends (fun _ hs => nomatch hs) fun _ hs => nomatch hs
      · exact ho
    · exact ho
  · split
    · exact ho.still ⟨rfl, rfl, fun _ => rfl⟩
    · exact ho
  · next env =>
    split
    · next id rest hcleaner =>
      have hfree : ∀ lease, h.Owes lease → lease.file.id ≠ id := by
        simpa only [Settles, hcleaner] using hsettles
      split_ifs
      · exact ho.processed hv.process rfl (fun _ => rfl) rfl
          fun lease howes => purge_not_ends (hfree lease howes)
      · exact ho.processed hv.process rfl (fun _ => rfl) rfl
          fun lease howes => purge_not_ends (hfree lease howes)
      · exact ho
    · exact ho
  · exact ho

theorem Valid.owes_nothing (hv : h.Valid sha256) (hstopped : h.process.running = false)
    (lease : Uploads.Lease) : ¬h.Owes lease := by
  obtain ⟨hrequests, -, hreleases⟩ := hv.stopped hstopped
  rintro (⟨token, htoken⟩ | hqueued)
  · rw [leaseOf, hrequests] at htoken
    exact nomatch htoken
  · rw [hreleases] at hqueued
    exact absurd hqueued List.not_mem_nil

theorem oneEach_nothing (hleases : ∀ token, h.leaseOf token = none) (hreleases : h.releases = []) :
    h.OneEach where
  busy lease := by
    rintro (⟨token, htoken⟩ | hqueued)
    · exact nomatch (hleases token).symm.trans htoken
    · rw [hreleases] at hqueued
      exact absurd hqueued List.not_mem_nil
  opened token _ _ _ htoken := nomatch (hleases token).symm.trans htoken
  queued := by
    rw [hreleases]
    exact List.nodup_nil
  apart token _ _ htoken := nomatch (hleases token).symm.trans htoken

theorem OneEach.restart (ho : h.OneEach) (hv : h.Valid sha256) (a : HostAction) :
    (h.restart enc a).OneEach := by
  unfold Host.restart
  split
  · split_ifs
    · exact ho
    · exact ho.still ⟨rfl, rfl, fun _ => rfl⟩
  · split
    · split_ifs
      · exact ho.still ⟨rfl, rfl, fun _ => rfl⟩
      · exact ho
    · exact ho
  · split
    · exact ho.still ⟨rfl, rfl, fun _ => rfl⟩
    · exact ho
  · next env =>
    dsimp only
    split_ifs with hready
    · have hstopped : h.process.running = false := by
        simp only [Bool.and_eq_true, decide_eq_true_eq] at hready
        exact hready.2.1
      refine ho.same (fun _ => rfl) rfl fun lease howes => ?_
      exact absurd howes (hv.owes_nothing hstopped lease)
    · exact ho
  · exact oneEach_nothing (fun _ => rfl) rfl
  · exact ho

theorem OneEach.step (ho : h.OneEach) (hv : h.Valid sha256) {a : HostAction}
    (hsettles : h.Settles a) : (h.step sha256 enc a).OneEach := by
  revert hsettles
  apply Host.step_cases (P := fun a h' => h.Settles a → h'.OneEach)
  case hidle => exact fun _ _ => ho
  case hrelay =>
    exact fun _ hdirect _ =>
      ho.processed hv.process rfl (fun _ => rfl) rfl fun lease _ => direct_not_ends hdirect
  case hclaim => exact fun env owner epoch id _ => ho.claim hv env owner epoch id
  case hrequest => exact fun token q a _ _ => ho.still (request_still h token q a)
  case hsettle => exact fun _ _ a hq _ => ho.settle hv hq a
  case hclean => exact fun a hsettles => ho.clean hv hsettles
  case hrestart => exact fun a _ => ho.restart hv a

/-- What a step does to the journal is what one step of the process does. -/
theorem step_process (h : Host) (a : HostAction) : (h.step sha256 enc a).process = h.process ∨
    ∃ b, (h.step sha256 enc a).process = h.process.step enc b := by
  apply Host.step_cases (P := fun _ h' => h'.process = h.process ∨
    ∃ b, h'.process = h.process.step enc b)
  case hidle => exact fun _ => Or.inl rfl
  case hrelay => exact fun b _ => Or.inr ⟨b, rfl⟩
  case hclaim =>
    intro env owner epoch id
    unfold Host.claim
    split_ifs
    · exact Or.inr ⟨_, rfl⟩
    · exact Or.inl rfl
  case hrequest => exact fun token q a _ => Or.inl (request_still h token q a).process
  case hsettle =>
    intro token q a _
    unfold Host.settle
    split
    · split
      · split_ifs <;> first | exact Or.inr ⟨_, rfl⟩ | exact Or.inl rfl
      · exact Or.inl rfl
    · split
      · split_ifs <;> first | exact Or.inr ⟨_, rfl⟩ | exact Or.inl rfl
      · exact Or.inl rfl
    · exact Or.inl rfl
  case hclean =>
    intro a
    unfold Host.clean
    split
    · split_ifs <;> first | exact Or.inr ⟨_, rfl⟩ | exact Or.inl rfl
    · split
      · split_ifs <;> first | exact Or.inr ⟨_, rfl⟩ | exact Or.inl rfl
      · exact Or.inl rfl
    · split <;> exact Or.inl rfl
    · split
      · split_ifs <;> first | exact Or.inr ⟨_, rfl⟩ | exact Or.inl rfl
      · exact Or.inl rfl
    · exact Or.inl rfl
  case hrestart =>
    intro a
    unfold Host.restart
    split
    · split_ifs <;> exact Or.inl rfl
    · split
      · split_ifs <;> exact Or.inl rfl
      · exact Or.inl rfl
    · split <;> exact Or.inl rfl
    · dsimp only
      split_ifs <;> first | exact Or.inr ⟨_, rfl⟩ | exact Or.inl rfl
    · exact Or.inr ⟨.crash, rfl⟩
    · exact Or.inl rfl


theorem step_quota (hv : h.Valid sha256) (hquota : Quota h.process.journal) (a : HostAction) :
    Quota (h.step sha256 enc a).process.journal := by
  rcases h.step_process a with hprocess | ⟨b, hprocess⟩
  · rw [hprocess]
    exact hquota
  · rw [hprocess]
    exact hv.process.step_quota enc hquota b

/-- The leases are no more than the rows of the ledger. -/
theorem OneEach.count_le (ho : h.OneEach) :
    h.requests.rows.length + h.releases.length ≤ h.process.journal.uploads.rows.length := by
  let open_ids := h.requests.rows.map fun r => r.2.lease.file.id
  let ids := open_ids ++ h.releases.map (·.file.id)
  have hopen {r : Bytes × UploadRequest} (hr : r ∈ h.requests.rows) :
      h.leaseOf r.1 = some r.2.lease := by
    rw [leaseOf, (Table.get?_eq_some_iff _ _ _).mpr hr]
    rfl
  have hnodup : ids.Nodup := by
    refine List.Nodup.append ?_ ho.queued ?_
    · refine List.Nodup.map_on (fun r hr r' hr' hid => ?_) h.requests.unique.of_map
      have hkey := ho.opened r.1 r'.1 _ _ (hopen hr) (hopen hr') hid
      exact List.inj_on_of_nodup_map h.requests.unique hr hr' hkey
    · intro id hid hid'
      obtain ⟨r, hr, rfl⟩ := List.mem_map.mp hid
      obtain ⟨lease, hlease, hsame⟩ := List.mem_map.mp hid'
      exact ho.apart r.1 _ _ (hopen hr) hlease hsame.symm
  have hsubset : ids ⊆ h.process.journal.uploads.rows.map Prod.fst := by
    intro id hid
    have hrow (lease : Uploads.Lease) (howes : h.Owes lease) :
        lease.file.id ∈ h.process.journal.uploads.rows.map Prod.fst := by
      obtain ⟨r, hr, -⟩ := ho.busy lease howes
      exact List.mem_map.mpr ⟨_, (Table.get?_eq_some_iff _ _ _).mp hr, rfl⟩
    rcases List.mem_append.mp hid with hid | hid
    · obtain ⟨r, hr, rfl⟩ := List.mem_map.mp hid
      exact hrow _ (Or.inl ⟨r.1, hopen hr⟩)
    · obtain ⟨lease, hlease, rfl⟩ := List.mem_map.mp hid
      exact hrow _ (Or.inr hlease)
  have hlength := (hnodup.subperm hsubset).length_le
  simpa [ids, open_ids] using hlength

end Steps

end Host

/-- In every run that purges no row while a lease of it is held or its release
waits, the releases that wait and the leases of open uploads are at most 256. -/
theorem releases_bounded (sha256 : Bytes → Bytes) (enc : Encoding) (epoch : Bytes)
    (actions : List HostAction)
    (meets : ∀ before a after, actions = before ++ a :: after →
      ((hosting sha256 enc).run { process := .new epoch } before).Settles a) :
    let h := (hosting sha256 enc).run { process := .new epoch } actions
    h.releases.length + h.requests.rows.length ≤ 256 := by
  intro h
  have hinitial := Host.new_initial sha256 epoch
  obtain ⟨-, ho, hquota⟩ := (hosting sha256 enc).run_invariant_when
    (I := fun h => h.Valid sha256 ∧ h.OneEach ∧ Quota h.process.journal)
    (C := fun h a => h.Settles a)
    (fun _ a hi hsettles => ⟨(hi.1.step a).valid, hi.2.1.step hi.1 hsettles,
      Host.step_quota hi.1 hi.2.2 a⟩)
    { process := .new epoch } actions
    ⟨hinitial.valid, Host.oneEach_nothing (fun _ => rfl) rfl, quota_new epoch⟩ meets
  have hcount := ho.count_le
  have hrows : h.process.journal.uploads.rows.length ≤ 256 := hquota.count
  have hcount : h.requests.rows.length + h.releases.length ≤
      h.process.journal.uploads.rows.length := hcount
  omega

namespace Sample

def blank : Upload where
  id := text "DAAAAAAAAAAAAAAAAAAAAA"
  name := text "blank.txt"
  mimeType := text "text/plain"
  bytes := text "0"
  sha256 := text "e3b0c44298fc1c149afbf4c8996fb92427ae41e4649b934ca495991b7852b855"

/-- SHA-256 of an empty file. -/
def blankDigest : Bytes := (hexToBytes blank.sha256).getD []

def sha256OfBlank (bytes : Bytes) : Bytes := if bytes = [] then blankDigest else []

def blankRow (state : Phase) (token : Bytes) : UploadRow :=
  { Uploads.reservation device epoch blank 0 1 with state := state, lease := token }

def blankLease (token : Bytes) : Uploads.Lease where
  serverEpoch := epoch
  file := blank
  token := token

def resting (issued : List Bytes) (releases : List Uploads.Lease) (next : Nat) : Host where
  process := { journal := { epoch := epoch }, running := true, issued := issued }
  disk := { next := next }
  storage := true
  releases := releases

def blankTransfer (token : Bytes) (n : Nat) : Transfer where
  name := blank.name
  temporary := text ".tmp-" ++ token
  expected := 0
  digest := blankDigest
  directory := n
  file := n + 1

/-- An empty file comes and goes, and its release fails. -/
def transfer (token : Bytes) : List HostAction := [
  .relay (.critical { now := 1 } (.reserve device epoch blank)),
  .claim { now := 2, fresh := [token] } device epoch blank.id,
  .start token,
  .sweep token (.open .ok),
  .directory token .ok,
  .temporary token .ok,
  .sealFile token .ok,
  .complete token { now := 3 },
  .abort token,
  .release token { now := 4, faults := [true] },
  .relay (.critical { now := 5 } (.cancel device epoch blank.id))]

/-- A transfer, and the cleanup after it, which fails to release anything. -/
def cycle (token : Bytes) (releases : List Uploads.Lease) : List HostAction :=
  transfer token ++ (releases.map fun lease => .retry lease { now := 6, faults := [true] }) ++ [
  .clean { now := 6 },
  .reclaim (.open .ok),
  .reclaim (.unlink blank.name .ok),
  .reclaim (.finish .ok),
  .purge { now := 7 }]

section Cycle

variable (token : Bytes) (issued : List Bytes) (releases : List Uploads.Lease) (n : Nat)

def stored (row : UploadRow) (disk : Storage) (cleaner : Cleaner) : Host where
  process := {
    journal := { epoch := epoch, uploads := .single blank.id row }
    running := true
    issued := issued }
  disk := disk
  storage := true
  releases := releases
  cleaner := cleaner

def uploading (row : UploadRow) (disk : Storage) (stage : Stage) : Host where
  process := {
    journal := { epoch := epoch, uploads := .single blank.id row }
    running := true
    issued := issued }
  disk := disk
  storage := true
  requests := .single token { lease := blankLease token, stage := stage }
  releases := releases

theorem blank_temporary : text ".tmp-" ++ token ≠ blank.name := by
  intro h
  have hhead : blank.name.take 5 = text ".tmp-" := by
    rw [← h]
    exact List.take_left' rfl
  exact absurd hhead (by decide)

theorem blank_plan (hvalid : validId token = true) : plan (blankLease token) =
    some { blankTransfer token 0 with } := by
  have hblank : Attachments.validate (blankLease token).file = .ok 0 := by rfl
  have hname : (blankLease token).file.name ≠ text ".tmp-" ++ (blankLease token).token :=
    (blank_temporary token).symm
  have hdigest : hexToBytes (blankLease token).file.sha256 = some blankDigest := by rfl
  have htoken : validId (blankLease token).token = true := hvalid
  rw [plan, hblank]
  simp only [htoken, temporaryName, if_neg hname, hdigest]
  rfl

theorem reserve_step : (resting issued releases n).step sha256OfBlank encoding
    (.relay (.critical { now := 1 } (.reserve device epoch blank))) =
      stored issued releases (blankRow .reserved []) { next := n } .idle := by
  rfl

theorem claim_step (hvalid : validId token = true) (hnew : token ∉ issued) :
    (stored issued releases (blankRow .reserved []) { next := n } .idle).step sha256OfBlank
        encoding (.claim { now := 2, fresh := [token] } device epoch blank.id) =
      uploading token (token :: issued) releases (blankRow .receiving token) { next := n }
        .claimed := by
  let h := stored issued releases (blankRow .reserved []) { next := n } .idle
  have henabled : h.process.enabled
      (.critical { now := 2, fresh := [token] } (.claim device epoch blank.id)) := by
    refine ⟨rfl, fun id hid => ?_⟩
    rw [List.mem_singleton.mp hid]
    exact ⟨hvalid, hnew⟩
  have hstorage : h.storage = true := rfl
  rw [Host.step, Host.claim, if_pos hstorage, Process.step, if_pos henabled, Process.handed,
    if_pos henabled]
  rfl

variable (row : UploadRow) (disk : Storage)

theorem uploading_get (stage : Stage) :
    (uploading token issued releases row disk stage).requests.get? token =
      some { lease := blankLease token, stage := stage } :=
  Table.get?_single _ _

theorem uploading_advance (disk' : Storage) (stage stage' : Stage) :
    { uploading token issued releases row disk stage with disk := disk' }.advance token stage' =
      uploading token issued releases row disk' stage' := by
  simp [Host.advance, uploading]

theorem start_step (hvalid : validId token = true) :
    (uploading token issued releases row disk .claimed).step sha256OfBlank encoding (.start token) =
      uploading token issued releases row disk (.clearing { id := blank.id }) := by
  have hplan : (plan (blankLease token)).isSome = true := by
    rw [blank_plan token hvalid]
    rfl
  simp only [Host.step, uploading_get, Host.request, if_pos hplan]
  exact uploading_advance token issued releases row disk disk _ _

theorem sweep_step :
    (uploading token issued releases row { next := n } (.clearing { id := blank.id })).step
        sha256OfBlank encoding (.sweep token (.open .ok)) =
      uploading token issued releases row { next := n } .cleared := by
  simp only [Host.step, uploading_get, Host.request]
  exact uploading_advance token issued releases row _ _ _ _

def blankDisk (files : Table Bytes (File UInt8)) (n next : Nat) : Storage where
  directories := .single blank.id { handle := n, files := files }
  next := next

def received : Storage :=
  blankDisk (.single (text ".tmp-" ++ token) { handle := n + 1 }) n (n + 2)

def installed : Storage :=
  blankDisk (.single blank.name { handle := n + 1, synced := true }) n (n + 2)

theorem directory_step :
    (uploading token issued releases row { next := n } .cleared).step sha256OfBlank encoding
        (.directory token .ok) =
      uploading token issued releases row (blankDisk .empty n (n + 1)) (.created n) := by
  simp only [Host.step, uploading_get, Host.request]
  exact uploading_advance token issued releases row _ _ _ _

theorem opened_blank (files : Table Bytes (File UInt8)) (next : Nat) :
    (blankDisk files n next).opened n = some { handle := n, files := files } := by
  simp [Disk.opened, blankDisk, Table.single]

theorem within_blank (files : Table Bytes (File UInt8)) (next : Nat) (f) :
    (blankDisk files n next).within n f = blankDisk (f files) n next := by
  simp [Disk.within, blankDisk]

theorem temporary_step (hvalid : validId token = true) :
    (uploading token issued releases row (blankDisk .empty n (n + 1)) (.created n)).step
        sha256OfBlank encoding (.temporary token .ok) =
      uploading token issued releases row (received token n)
        (.receiving (blankTransfer token n)) := by
  have hcreate : (blankDisk .empty n (n + 1)).create n (blankTransfer token 0).temporary =
      some (n + 1, received token n) := by
    rw [Disk.create, opened_blank]
    simp only [within_blank]
    rfl
  simp only [Host.step, uploading_get, Host.request, blank_plan token hvalid]
  rw [if_neg (by decide : ¬Call.ok = Call.refused)]
  have hdisk : (uploading token issued releases row (blankDisk .empty n (n + 1))
      (.created n)).disk = blankDisk .empty n (n + 1) := rfl
  rw [hdisk, hcreate]
  exact uploading_advance token issued releases row _ _ _ _

theorem received_install : (received token n).install n (text ".tmp-" ++ token) blank.name =
    some (installed n) := by
  have hfree : (Table.single (text ".tmp-" ++ token) ({ handle := n + 1 } : File UInt8)).get?
      blank.name = none := by
    simp [Table.single, Table.get?, blank_temporary token]
  have hrenamed : Disk.renamed (.single (text ".tmp-" ++ token) { handle := n + 1 })
      (text ".tmp-" ++ token) blank.name ({ handle := n + 1 } : File UInt8) =
        .single blank.name { handle := n + 1, synced := true } := by
    rw [Disk.renamed, Table.deleteWhere_single (by simp)]
    rfl
  rw [Disk.install, received, opened_blank]
  simp only [Table.get?_single, within_blank, hrenamed, hfree]
  rfl

theorem blank_seal : (blankTransfer token n).sealFile sha256OfBlank (received token n) .ok =
    (true, installed n) := by
  have hname : (blankTransfer token n).temporary ≠ (blankTransfer token n).name :=
    blank_temporary token
  have hsize : (received token n).size? n (n + 1) = some 0 := by
    rw [Disk.size?, received, opened_blank]
    simp [Table.single]
  have hreceived : ((blankTransfer token n).received != (blankTransfer token n).expected) = false :=
    rfl
  have hhash : (sha256OfBlank (blankTransfer token n).hashed != (blankTransfer token n).digest) =
      false := by
    rfl
  have hready : (decide ((blankTransfer token n).temporary = (blankTransfer token n).name) ||
      (received token n).size? (blankTransfer token n).directory (blankTransfer token n).file !=
        some (blankTransfer token n).expected || decide (Call.ok = Call.refused)) = false := by
    rw [decide_eq_false hname, show (received token n).size? (blankTransfer token n).directory
      (blankTransfer token n).file = some 0 from hsize]
    rfl
  have hinstall : (received token n).install (blankTransfer token n).directory
      (blankTransfer token n).temporary (blankTransfer token n).name = some (installed n) :=
    received_install token n
  simp only [Transfer.sealFile, Transfer.install, hreceived, hhash, hready, hinstall]
  rfl

theorem seal_step :
    (uploading token issued releases row (received token n)
        (.receiving (blankTransfer token n))).step sha256OfBlank encoding (.sealFile token .ok) =
      uploading token issued releases row (installed n) (.sealed (blankTransfer token n)) := by
  simp only [Host.step, uploading_get, Host.request]
  have hdisk : (uploading token issued releases row (received token n)
      (.receiving (blankTransfer token n))).disk = received token n := rfl
  rw [hdisk, blank_seal]
  exact uploading_advance token issued releases row _ _ _ _

theorem complete_step :
    (uploading token issued releases (blankRow .receiving token) disk
        (.sealed (blankTransfer token n))).step sha256OfBlank encoding
          (.complete token { now := 3 }) =
      uploading token issued releases (blankRow .ready token) disk .published := by
  let h := uploading token issued releases (blankRow .receiving token) disk
    (.sealed (blankTransfer token n))
  have henabled : h.process.enabled (.critical { now := 3 } (.complete (blankLease token))) :=
    ⟨rfl, fun _ hid => absurd hid List.not_mem_nil⟩
  have hleased : Uploads.leased (blankLease token) blank.id (blankRow .receiving token) = true := by
    simp [Uploads.leased, blankRow, blankLease, Uploads.reservation]
  let j : Journal := { epoch := epoch, uploads := .single blank.id (blankRow .ready token) }
  have hconn : h.process.conn { now := 3 } =
      ⟨{ epoch := epoch, uploads := .single blank.id (blankRow .receiving token) }, [], []⟩ := rfl
  have hselect : ((Table.single blank.id (blankRow .receiving token)).select
      (Uploads.leased (blankLease token))).length = 1 := by
    simp [Table.select, Table.single, hleased]
  have hset : Uploads.setPhase (Uploads.leased (blankLease token)) .ready
      { epoch := epoch, uploads := .single blank.id (blankRow .receiving token) } = j := by
    simp [Uploads.setPhase, hleased]
    rfl
  have hcomplete : (Uploads.complete (blankLease token)).run (h.process.conn { now := 3 }) =
      (.ok (), ⟨j, [], []⟩) := by
    have hepoch : decide ((blankLease token).serverEpoch = epoch) = true := rfl
    rw [hconn, Uploads.complete]
    simp only [Sql.bind_run, Sql.query_run_calm, Sql.require_run, hepoch, if_true,
      Sql.statement_run_calm, hselect, hset, decide_true]
  have hsection : ((Section.complete (blankLease token)).tx encoding 3).run
      (h.process.conn { now := 3 }) = (.ok none, ⟨j, [], []⟩) := by
    simp only [Section.tx, Sql.bind_run, hcomplete]
    rfl
  have hlocked : h.process.locked { now := 3 }
      ((Section.complete (blankLease token)).tx encoding 3) = (.ok none,
        (uploading token issued releases (blankRow .ready token) disk .published).process) := by
    rw [Process.locked, hsection]
    rfl
  have hcommits : (uploading token issued releases (blankRow .receiving token) disk
      (.sealed (blankTransfer token n))).process.commits encoding { now := 3 }
        (.complete (blankLease token)) = true := by
    change h.process.commits encoding { now := 3 } (.complete (blankLease token)) = true
    simp only [Process.commits, hlocked]
  have hstep : h.process.step encoding (.critical { now := 3 } (.complete (blankLease token))) =
      (uploading token issued releases (blankRow .ready token) disk .published).process := by
    rw [Process.step, if_pos henabled]
    simp only [Process.apply, hlocked]
  simp only [Host.step, uploading_get, Host.settle]
  rw [if_pos henabled, hstep, hcommits]
  simp [Host.advance, uploading]

theorem abort_step :
    (uploading token issued releases row disk .published).step sha256OfBlank encoding
        (.abort token) =
      uploading token issued releases row disk .closed := by
  simp only [Host.step, uploading_get, Host.request]
  exact uploading_advance token issued releases row disk disk _ _

theorem release_step :
    (uploading token issued releases row disk .closed).step sha256OfBlank encoding
        (.release token { now := 4, faults := [true] }) =
      stored issued (releases ++ [blankLease token]) row disk .idle := by
  have henabled : (uploading token issued releases row disk .closed).process.enabled
      (.critical { now := 4, faults := [true] } (.abandon (blankLease token))) :=
    ⟨rfl, fun _ hid => absurd hid List.not_mem_nil⟩
  simp only [Host.step, uploading_get, Host.settle]
  rw [if_pos henabled, Process.step, if_pos henabled]
  have hgone : (uploading token issued releases row disk .closed).requests.deleteWhere
      (fun token' _ => token' = token) = .empty := Table.deleteWhere_single (decide_eq_true rfl)
  rw [hgone]
  rfl

theorem cancel_step :
    (stored issued releases (blankRow .ready token) disk .idle).step sha256OfBlank encoding
        (.relay (.critical { now := 5 } (.cancel device epoch blank.id))) =
      stored issued releases (blankRow .deleting token) disk .idle := by
  rfl

theorem retry_step (h : Host) (lease : Uploads.Lease) :
    h.step sha256OfBlank encoding (.retry lease { now := 6, faults := [true] }) = h := by
  rw [Host.step, Host.clean]
  split_ifs with hready henabled hcommits
  · exact nomatch hcommits
  · rw [Process.step, if_pos henabled]
    rfl
  · rfl
  · rfl

theorem clean_step :
    (stored issued releases (blankRow .deleting token) disk .idle).step sha256OfBlank encoding
        (.clean { now := 6 }) =
      stored issued releases (blankRow .deleting token) disk (.removing { id := blank.id } []) := by
  rfl

theorem open_step (files : Table Bytes (File UInt8)) (next : Nat) :
    (stored issued releases row (blankDisk files n next) (.removing { id := blank.id } [])).step
        sha256OfBlank encoding (.reclaim (.open .ok)) =
      stored issued releases row (blankDisk files n next)
        (.removing { id := blank.id, directory := some n } []) := by
  rfl

theorem unlink_step (file : File UInt8) (next : Nat) :
    (stored issued releases row (blankDisk (.single blank.name file) n next)
        (.removing { id := blank.id, directory := some n } [])).step sha256OfBlank encoding
          (.reclaim (.unlink blank.name .ok)) =
      stored issued releases row (blankDisk .empty n next)
        (.removing { id := blank.id, directory := some n, count := 1 } []) := by
  have hunlink : (blankDisk (.single blank.name file) n next).unlink n blank.name =
      blankDisk .empty n next := by
    rw [Disk.unlink, within_blank, Table.deleteWhere_single (by simp)]
  rw [← hunlink]
  rfl

theorem finish_step (next : Nat) :
    (stored issued releases row (blankDisk .empty n next)
        (.removing { id := blank.id, directory := some n, count := 1 } [])).step sha256OfBlank
          encoding (.reclaim (.finish .ok)) =
      stored issued releases row { next := next } (.purging blank.id []) := by
  rfl

theorem purge_step :
    (stored issued releases (blankRow .deleting token) { next := n } (.purging blank.id [])).step
        sha256OfBlank encoding (.purge { now := 7 }) =
      resting issued releases n := by
  rfl

theorem retries_run (h : Host) (leases : List Uploads.Lease) :
    (hosting sha256OfBlank encoding).run h
      (leases.map fun lease => .retry lease { now := 6, faults := [true] }) = h := by
  induction leases with
  | nil => rfl
  | cons lease rest ih =>
    have hstep : (hosting sha256OfBlank encoding).step h
      (.retry lease { now := 6, faults := [true] }) = h := retry_step h lease
    rw [List.map_cons, Machine.run_cons, hstep, ih]

theorem cycle_run (hvalid : validId token = true) (hnew : token ∉ issued) :
    (hosting sha256OfBlank encoding).run (resting issued releases n) (cycle token releases) =
      resting (token :: issued) (releases ++ [blankLease token]) (n + 2) := by
  have htransfer := calc
    (hosting sha256OfBlank encoding).run (resting issued releases n) (transfer token)
    _ = (hosting sha256OfBlank encoding).run
        (uploading token (token :: issued) releases (blankRow .receiving token) { next := n }
          .cleared)
        [.directory token .ok, .temporary token .ok, .sealFile token .ok,
          .complete token { now := 3 }, .abort token,
          .release token { now := 4, faults := [true] },
          .relay (.critical { now := 5 } (.cancel device epoch blank.id))] := by
      simp only [transfer, Machine.run_cons, hosting, reserve_step,
        claim_step token issued releases n hvalid hnew, start_step token _ _ _ _ hvalid,
        sweep_step]
    _ = (hosting sha256OfBlank encoding).run
        (uploading token (token :: issued) releases (blankRow .ready token) (installed n)
          .published)
        [.abort token, .release token { now := 4, faults := [true] },
          .relay (.critical { now := 5 } (.cancel device epoch blank.id))] := by
      simp only [Machine.run_cons, hosting, directory_step, temporary_step token _ _ _ _ hvalid,
        seal_step, complete_step]
    _ = stored (token :: issued) (releases ++ [blankLease token]) (blankRow .deleting token)
        (installed n) .idle := by
      simp only [Machine.run_cons, Machine.run_nil, hosting, abort_step, release_step, cancel_step]
  rw [cycle, Machine.run_append, Machine.run_append, htransfer, retries_run]
  simp only [Machine.run_cons, Machine.run_nil, hosting, clean_step, installed, open_step,
    unlink_step, finish_step, purge_step]

end Cycle

def tokenOf (n : Nat) : Bytes :=
  [48 + UInt8.ofNat (n / 100), 48 + UInt8.ofNat (n / 10 % 10), 48 + UInt8.ofNat (n % 10)] ++
    List.replicate 19 65

def numberOf : Bytes → Nat
  | a :: b :: c :: _ => (a - 48).toNat * 100 + (b - 48).toNat * 10 + (c - 48).toNat
  | _ => 0

theorem tokenOf_valid : ∀ n < 257, validId (tokenOf n) = true := by
  decide +kernel

theorem numberOf_tokenOf : ∀ n < 257, numberOf (tokenOf n) = n := by
  decide +kernel

def leasesTo (n : Nat) : List Uploads.Lease := (List.range n).map fun i => blankLease (tokenOf i)

def tokensTo (n : Nat) : List Bytes := ((List.range n).map tokenOf).reverse ++ [epoch]

/-- So many cycles after the start of the relay. -/
def flood : Nat → List HostAction
  | 0 => [.launch { now := 0 }]
  | n + 1 => flood n ++ cycle (tokenOf n) (leasesTo n)

theorem flood_run (n : Nat) (h : n ≤ 257) :
    (hosting sha256OfBlank encoding).run { process := .new epoch } (flood n) =
      resting (tokensTo n) (leasesTo n) (2 * n) := by
  induction n with
  | zero => rfl
  | succ n ih =>
    have hnew : tokenOf n ∉ tokensTo n := by
      rw [tokensTo, List.mem_append, List.mem_reverse, List.mem_map, List.mem_singleton]
      rintro (⟨i, hi, hsame⟩ | hsame)
      · have hi : i < n := List.mem_range.mp hi
        have hnumber := congrArg numberOf hsame
        rw [numberOf_tokenOf i (by omega), numberOf_tokenOf n (by omega)] at hnumber
        omega
      · have hnumber := congrArg numberOf hsame
        rw [numberOf_tokenOf n (by omega), show numberOf epoch = 1887 from rfl] at hnumber
        omega
    rw [flood, Machine.run_append, ih (by omega),
      cycle_run _ _ _ _ (tokenOf_valid n (by omega)) hnew,
      tokensTo, tokensTo, leasesTo, leasesTo, List.range_succ, List.map_append, List.map_append,
      List.reverse_append]
    rfl

/-- A reservation that is cancelled and purged before any transfer. -/
def cancelBlank : List HostAction := [
  .launch { now := 0 },
  .relay (.critical { now := 1 } (.reserve device epoch blank)),
  .relay (.critical { now := 2 } (.cancel device epoch blank.id)),
  .clean { now := 3 },
  .reclaim (.open .ok),
  .purge { now := 4 }]

end Sample

theorem releases_bounded_cancelled :
    let h := (hosting Sample.sha256OfBlank Sample.encoding).run { process := .new Sample.epoch }
      Sample.cancelBlank
    h.releases.length + h.requests.rows.length ≤ 256 := by
  refine releases_bounded _ _ _ _ (Machine.meets_cons (C := Host.Settles) _ trivial ?_)
  iterate 4 refine Machine.meets_cons (C := Host.Settles) _ trivial ?_
  refine Machine.meets_cons (C := Host.Settles) _ ?_ (Machine.meets_nil _)
  rintro lease (⟨token, htoken⟩ | hqueued)
  · exact nomatch htoken
  · exact absurd hqueued List.not_mem_nil

/-- Nothing limits the releases that fail under one identifier. -/
theorem releases_bounded_flood :
    let h := (hosting Sample.sha256OfBlank Sample.encoding).run { process := .new Sample.epoch }
      (Sample.flood 257)
    ¬h.releases.length + h.requests.rows.length ≤ 256 := by
  intro h
  have hrun : h = _ := Sample.flood_run 257 (Nat.le_refl _)
  rw [hrun]
  simp [Sample.resting, Sample.leasesTo, Table.empty]

end Zimbr.Relay
