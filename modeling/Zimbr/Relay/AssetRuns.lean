import Zimbr.Relay.AssetRules
import Zimbr.Relay.AssetService
import Zimbr.Relay.Dispatch

set_option autoImplicit false

/-!
# Runs of the asset service

What was published or served under a URL keeps its entity tag for good, and the
queue and the cache stay within their bounds.
-/
namespace Zimbr.Relay
open Library AssetStore

namespace Lane

def job? : Lane → Option Job
  | .collecting job | .admitting job | .reading job | .transforming job _ _ => some job
  | .idle | .checking _ _ | .choosing _ | .maintaining => none

def roomy : Lane → Bool
  | .reading _ | .transforming _ _ _ => true
  | .idle | .checking _ _ | .choosing _ | .collecting _ | .admitting _ | .maintaining => false

@[simp] theorem inspecting_job? (epoch : Bytes) (rest : List AssetStore.Source) :
    (inspecting epoch rest).job? = none := by cases rest <;> rfl

@[simp] theorem inspecting_roomy (epoch : Bytes) (rest : List AssetStore.Source) :
    (inspecting epoch rest).roomy = false := by cases rest <;> rfl

@[simp] theorem ended_job? (contact : Bool) : (ended contact).job? = none := by
  cases contact <;> rfl

@[simp] theorem ended_roomy (contact : Bool) : (ended contact).roomy = false := by
  cases contact <;> rfl

end Lane

namespace AssetOutput

def key : AssetOutput → AssetKey
  | .published key _ _ | .served key _ _ => key

def etag : AssetOutput → Bytes
  | .published _ hash _ => hash
  | .served _ etag _ => etag

def body? : AssetOutput → Option Bytes
  | .published _ _ bytes => some bytes
  | .served _ _ body => body

end AssetOutput

namespace AssetService

/-- An issued version, and the entity tag on record while that version is current. -/
def Known (h : AssetService) (key : AssetKey) (tag : Option Bytes) : Prop :=
  key.2.1 ∈ h.issued ∧ h.store.Tagged key tag

/-- What holds between two critical sections, given what was put out so far. -/
structure Consistent (sha256 : Bytes → Vector UInt8 32) (h : AssetService)
    (outs : List AssetOutput) : Prop where
  filed : ∀ key r, h.store.representations.get? key = some r → r.record.key = key
  queue : h.store.work.rows.length ≤ maxQueue
  room : usedBytes h.store ≤ if h.lane.roomy then cacheBudget - maxDerivative else cacheBudget
  versions : ∀ id row, h.store.sources.get? id = some row → row.version ∈ h.issued
  lane : ∀ job, h.lane.job? = some job → h.Known job.key job.etag
  requests : ∀ token key value, h.requests.get? token = some (key, value) →
    ∀ tag, value.etag = some tag → h.Known key (some tag)
  outputs : ∀ o ∈ outs, h.Known o.key (some o.etag)
  bodies : ∀ o ∈ outs, ∀ b, o.body? = some b → digest sha256 b = o.etag
  agree : ∀ o ∈ outs, ∀ o' ∈ outs, o.key = o'.key → o.etag = o'.etag

variable {sha256 : Bytes → Vector UInt8 32} {hashId : Bytes → Bytes} {enc : Encoding}
  {h h' : AssetService} {outs : List AssetOutput} {env : Env}

def moved (h : AssetService) (env : Env) (s : AssetStore) : AssetService :=
  { h with store := s, issued := env.fresh ++ h.issued }

theorem Known.moved {s : AssetStore} {key : AssetKey} {tag : Option Bytes} (hknown : h.Known key tag)
    (hfresh : ∀ id ∈ env.fresh, id ∉ h.issued) (hsound : Sound (· ∈ env.fresh) h.store s) :
    (h.moved env s).Known key tag :=
  ⟨List.mem_append_right _ hknown.1,
    hsound.tagged (fun hnew => hfresh _ hnew hknown.1) hknown.2⟩

namespace Consistent

theorem moved {s : AssetStore} (hI : Consistent sha256 h outs)
    (hfresh : ∀ id ∈ env.fresh, id ∉ h.issued) (hsound : Sound (· ∈ env.fresh) h.store s) :
    Consistent sha256 (h.moved env s) outs where
  filed := hsound.filed
  queue := hsound.queue
  room := le_trans hsound.bytes hI.room
  versions := fun id row hrow => by
    rcases hsound.version hrow with hnew | ⟨row₀, hrow₀, hsame⟩
    · exact List.mem_append_left _ hnew
    · exact List.mem_append_right _ (hsame ▸ hI.versions id row₀ hrow₀)
  lane := fun job hjob => (hI.lane job hjob).moved hfresh hsound
  requests := fun token key value hvalue tag htag =>
    (hI.requests token key value hvalue tag htag).moved hfresh hsound
  outputs := fun o ho => (hI.outputs o ho).moved hfresh hsound
  bodies := hI.bodies
  agree := hI.agree

theorem enter (hI : Consistent sha256 h outs) {lane : Lane}
    (hjob : ∀ job, lane.job? = some job → h.Known job.key job.etag)
    (hroom : lane.roomy = true → usedBytes h.store ≤ cacheBudget - maxDerivative) :
    Consistent sha256 { h with lane := lane } outs where
  filed := hI.filed
  queue := hI.queue
  room := by
    dsimp only
    split_ifs with hroomy
    · exact hroom hroomy
    · refine le_trans hI.room ?_
      split_ifs
      · exact Nat.sub_le _ _
      · exact le_refl _
  versions := hI.versions
  lane := hjob
  requests := hI.requests
  outputs := hI.outputs
  bodies := hI.bodies
  agree := hI.agree

theorem leave (hI : Consistent sha256 h outs) {lane : Lane} (hjob : lane.job? = none)
    (hroom : lane.roomy = false) : Consistent sha256 { h with lane := lane } outs := by
  refine hI.enter (fun job hsome => ?_) fun hroomy => ?_
  · rw [hjob] at hsome
    cases hsome
  · rw [hroom] at hroomy
    cases hroomy

theorem done (hI : Consistent sha256 h outs) (job : Job) :
    Consistent sha256 { h with lane := .done job } outs :=
  hI.leave (Lane.ended_job? _) (Lane.ended_roomy _)

theorem transform (hI : Consistent sha256 h outs) {job : Job} (hlane : h.lane = .reading job)
    (signature : Option Bytes) (refused : Option Int) :
    Consistent sha256 { h with lane := .transforming job signature refused } outs := by
  have hroom := hI.room
  rw [hlane, Lane.roomy, if_pos rfl] at hroom
  refine hI.enter (fun job' hjob => hI.lane job' ?_) fun _ => hroom
  rw [hlane]
  exact hjob

theorem answer (hI : Consistent sha256 h outs) {requests : Table Nat (AssetKey × Lookup)}
    (hrequests : ∀ token r, requests.get? token = some r →
      h.requests.get? token = some r ∨ ∀ tag, r.2.etag = some tag → h.Known r.1 (some tag)) :
    Consistent sha256 { h with requests := requests } outs where
  filed := hI.filed
  queue := hI.queue
  room := hI.room
  versions := hI.versions
  lane := hI.lane
  requests := fun token key value hvalue tag htag => by
    rcases hrequests token (key, value) hvalue with hold | hnew
    · exact hI.requests token key value hold tag htag
    · exact hnew tag htag
  outputs := hI.outputs
  bodies := hI.bodies
  agree := hI.agree

/-- Outputs of known entity tags of current keys agree with those before them. -/
theorem emit (hI : Consistent sha256 h outs) {o : AssetOutput} (hknown : h.Known o.key (some o.etag))
    (hcurrent : h.store.current o.key) (hbody : ∀ b, o.body? = some b → digest sha256 b = o.etag) :
    Consistent sha256 h (outs ++ [o]) := by
  have hsame : ∀ o' ∈ outs, o'.key = o.key → o'.etag = o.etag := by
    intro o' ho' hkey
    have hother := (hI.outputs o' ho').2 (hkey ▸ hcurrent)
    rw [hkey, hknown.2 hcurrent, Option.some.injEq, Option.some.injEq] at hother
    exact hother.symm
  exact { hI with
    outputs := List.forall_mem_append.mpr ⟨hI.outputs, List.forall_mem_singleton.mpr hknown⟩
    bodies := List.forall_mem_append.mpr ⟨hI.bodies, List.forall_mem_singleton.mpr hbody⟩
    agree := by
      simp only [List.mem_append, List.mem_singleton]
      rintro o₁ (h₁ | rfl) o₂ (h₂ | rfl) hkey
      · exact hI.agree o₁ h₁ o₂ h₂ hkey
      · exact hsame o₁ h₁ hkey
      · exact (hsame o₂ h₂ hkey.symm).symm
      · rfl }

end Consistent

theorem Consistent.publish (hI : Consistent sha256 h outs) {job : Job} {hash output : Bytes} {n : Nat}
    {s : AssetStore} (hjob : h.lane.job? = some job) (hroomy : h.lane.roomy = true)
    (hcurrent : h.store.current job.key) (hagree : job.etag = none ∨ job.etag = some hash)
    (hpublished : AssetStore.Published job.key hash n h.store s) (hn : n ≤ maxDerivative)
    (hdigest : digest sha256 output = hash) :
    Consistent sha256 { h with store := s, lane := .done job }
      (outs ++ [.published job.key hash output]) := by
  obtain ⟨hissued, htag⟩ := hI.lane job hjob
  have hkeep {key : AssetKey} {tag : Bytes} (hknown : h.Known key (some tag)) :
      { h with store := s, lane := Lane.done job }.Known key (some tag) :=
    ⟨hknown.1, hpublished.tagged htag hagree hknown.2⟩
  have hbase : Consistent sha256 { h with store := s, lane := .done job } outs := {
    filed := hpublished.filed hI.filed
    queue := by
      rw [hpublished.queue]
      exact hI.queue
    room := by
      have hroom := hI.room
      rw [hroomy, if_pos rfl] at hroom
      have hbudget : maxDerivative ≤ cacheBudget := by decide
      rw [Lane.done, Lane.ended_roomy]
      have hbytes := hpublished.bytes
      simp only [Bool.false_eq_true, if_false]
      omega
    versions := fun id row hrow => by
      obtain ⟨row₀, hrow₀, hsame⟩ := hpublished.versions id row hrow
      exact hsame ▸ hI.versions id row₀ hrow₀
    lane := fun other hother => by
      rw [Lane.done, Lane.ended_job?] at hother
      cases hother
    requests := fun token key value hvalue tag hetag =>
      hkeep (hI.requests token key value hvalue tag hetag)
    outputs := fun o ho => hkeep (hI.outputs o ho)
    bodies := hI.bodies
    agree := hI.agree }
  refine hbase.emit (o := .published job.key hash output) ⟨hissued, hpublished.tag htag⟩
    (hpublished.stays _ hcurrent) fun b hb => ?_
  rw [← Option.some.inj hb]
  exact hdigest

theorem digest_ne (bytes : Bytes) : digest sha256 bytes ≠ [] := by
  intro h
  have hlength := congrArg List.length h
  rw [digest, List.length_flatMap] at hlength
  simp at hlength

theorem outcome_bytes {job : Job} {refused : Option Int} {made : Made} {unchanged : Bool}
    {info : ImageInfo} {output : Bytes}
    (h : outcome job refused made unchanged = .ok (info, output)) : info.bytes ≤ maxDerivative := by
  unfold outcome at h
  split at h
  · cases h
  · split at h
    · next result hmade =>
      split_ifs at h
      obtain rfl := Except.ok.inj h
      unfold mediaConvert at hmade
      split at hmade
      · split_ifs at hmade with haccept
        obtain ⟨rfl, rfl⟩ := Prod.mk.inj (Except.ok.inj hmade)
        simp only [acceptable, Bool.and_eq_true, decide_eq_true_eq] at haccept
        exact haccept.1.1.1.2
      · cases hmade
    · cases h

section Sections

variable {α : Type} {m : StoreTx α} {r : Except Error α}

/-- One critical section leaves the lane and the requests to its caller. -/
theorem locked_eq (hrun : h.locked env m = (r, h')) :
    m.run { db := h.store, faults := env.faults, fresh := env.fresh } = (r, {
      (m.run { db := h.store, faults := env.faults, fresh := env.fresh }).2 with db := h'.store }) ∧
      h' = h.moved env h'.store := by
  obtain ⟨rfl, rfl⟩ := Prod.mk.inj hrun
  exact ⟨rfl, rfl⟩

theorem locked_sound (hI : Consistent sha256 h outs) (hm : SoundBy (· ∈ env.fresh) h.store m)
    (hrun : h.locked env m = (r, h')) : Sound (· ∈ env.fresh) h.store h'.store := by
  obtain ⟨hresult, -⟩ := locked_eq hrun
  exact (hm.run hresult (.refl hI.filed hI.queue) fun _ hid => hid).1

theorem locked_consistent (hI : Consistent sha256 h outs)
    (hfresh : ∀ id ∈ env.fresh, id ∉ h.issued) (hm : SoundBy (· ∈ env.fresh) h.store m)
    (hrun : h.locked env m = (r, h')) : Consistent sha256 h' outs := by
  rw [(locked_eq hrun).2]
  exact hI.moved hfresh (locked_sound hI hm hrun)

theorem locked_lane (hrun : h.locked env m = (r, h')) : h'.lane = h.lane := by
  rw [(locked_eq hrun).2]
  rfl

theorem Consistent.found (hI : Consistent sha256 h outs) {key : AssetKey} {tag : Bytes}
    (hcurrent : h.store.current key) (htag : h.store.etag? key = some (some tag)) :
    h.Known key (some tag) := by
  obtain ⟨row, hrow, hversion⟩ := hcurrent
  exact ⟨hversion ▸ hI.versions key.1 row hrow, fun _ => htag⟩

end Sections

section Responses

variable {key : AssetKey} {value : Lookup} {bytes : Option Bytes} {now : Int}

theorem respondTx_sound {F : Bytes → Prop} {s₀ : AssetStore} :
    SoundBy F s₀ (respondTx sha256 enc now key value bytes) := by
  unfold respondTx
  split
  · exact .transaction (.bind lookup_sound fun _ => .bind evicted_sound fun _ => .pure)
  · exact .bind lookup_sound fun _ => .pure

theorem respondTx_ok {b : Bytes} {c c' : Conn AssetStore Bytes}
    (hrun : (respondTx sha256 enc now key value bytes).run c = (.ok (some b), c')) :
    value.etag = some (digest sha256 b) ∧ c.db.current key := by
  unfold respondTx at hrun
  split at hrun
  · obtain ⟨c₁, c₂, -, -, hbody, -⟩ := Sql.transaction_ok hrun
    obtain ⟨_, c₃, -, hbody⟩ := Sql.bind_ok hbody
    obtain ⟨_, c₄, -, hbody⟩ := Sql.bind_ok hbody
    cases (Sql.pure_ok hbody).1
  · next b' hverified =>
    obtain ⟨_, c₁, hlookup, hrun⟩ := Sql.bind_ok hrun
    obtain rfl := Option.some.inj (Sql.pure_ok hrun).1
    obtain ⟨size, -, hfilter⟩ := Option.bind_eq_some_iff.mp hverified
    have hcheck := (Option.filter_eq_some_iff.mp hfilter).2
    simp only [Bool.and_eq_true, decide_eq_true_eq] at hcheck
    exact ⟨hcheck.2, (lookup_ok hlookup).1⟩

theorem served_body {etag b b' : Bytes} {ifNoneMatch : Option Bytes}
    (hbody : (served key etag ifNoneMatch b).body? = some b') : b' = b := by
  unfold served AssetOutput.body? at hbody
  dsimp only at hbody
  split_ifs at hbody
  exact (Option.some.inj hbody).symm

end Responses

section Actions

variable (hI : Consistent sha256 h outs) (hfresh : ∀ id ∈ env.fresh, id ∉ h.issued)
include hI hfresh

theorem requested_consistent {token : Nat} {present : Bool} {id version : Bytes}
    {variant : AssetVariant} :
    Consistent sha256 (h.requested env token present id version variant) outs := by
  unfold requested
  split_ifs
  · exact hI
  · split
    · next value h' hrun =>
      have hsound := locked_sound hI (.transaction lookup_sound) hrun
      have hI' := locked_consistent hI hfresh (.transaction lookup_sound) hrun
      obtain ⟨hresult, hmoved⟩ := locked_eq hrun
      obtain ⟨c₁, c₂, hdb, -, hlookup, -⟩ := Sql.transaction_ok hresult
      obtain ⟨hcurrent, htag⟩ := lookup_ok hlookup
      rw [hdb] at hcurrent htag
      split_ifs
      · refine hI'.answer fun other r hr => ?_
        rw [Table.get?_upsert] at hr
        split_ifs at hr
        · refine Or.inr fun tag hvalue => ?_
          obtain rfl : ((id, version, variant), value) = r := by
            rw [← Option.some.inj hr]
            cases h'.requests.get? token <;> rfl
          rw [hmoved]
          exact (hI.found hcurrent (hvalue ▸ htag)).moved hfresh hsound
        · exact Or.inl hr
      · exact hI'
    · next hrun => exact locked_consistent hI hfresh (.transaction lookup_sound) hrun

theorem checked_consistent : Consistent sha256 (h.checked env) outs := by
  unfold checked
  split
  · split
    · next hrun =>
      exact (locked_consistent hI hfresh dueSources_sound hrun).leave (Lane.inspecting_job? _ _)
        (Lane.inspecting_roomy _ _)
    · next hrun => exact (locked_consistent hI hfresh dueSources_sound hrun).leave rfl rfl
  · exact hI

theorem inspected_consistent {opened : Except Int Bytes} :
    Consistent sha256 (h.inspected enc env opened) outs := by
  unfold inspected
  split
  · split
    · next hrun =>
      exact (locked_consistent hI hfresh checkSource_sound hrun).leave (Lane.inspecting_job? _ _)
        (Lane.inspecting_roomy _ _)
    · next hrun => exact (locked_consistent hI hfresh checkSource_sound hrun).leave rfl rfl
  · exact hI

theorem chosen_consistent : Consistent sha256 (h.chosen env) outs := by
  unfold chosen
  split
  · split
    · next job h' hrun =>
      have hI' := locked_consistent hI hfresh nextJob_sound hrun
      obtain ⟨hcurrent, htag⟩ := nextJob_ok (locked_eq hrun).1
      refine hI'.enter (fun job' hjob => ?_) fun hroomy => (by cases hroomy)
      obtain rfl := Option.some.inj hjob
      obtain ⟨row, hrow, hversion⟩ := hcurrent
      exact ⟨hversion ▸ hI'.versions _ row hrow, fun _ => htag⟩
    · next hrun =>
      exact (locked_consistent hI hfresh nextJob_sound hrun).leave (Lane.ended_job? _)
        (Lane.ended_roomy _)
  · exact hI

theorem collected_consistent : Consistent sha256 (h.collected enc env) outs := by
  unfold collected
  split
  · next job hlane =>
    split
    · next hrun =>
      refine (locked_consistent hI hfresh collect_sound hrun).enter (fun job' hjob => ?_)
        fun hroomy => (by cases hroomy)
      refine (locked_consistent hI hfresh collect_sound hrun).lane job' ?_
      rw [locked_lane hrun, hlane]
      exact hjob
    · next hrun => exact (locked_consistent hI hfresh collect_sound hrun).leave rfl rfl
  · exact hI

theorem admitted_consistent : Consistent sha256 (h.admitted env) outs := by
  unfold admitted
  have hsafe : SoundBy (· ∈ env.fresh) h.store enoughSpace := .query
  split
  · next job hlane =>
    split
    · next h' hrun =>
      have hI' := locked_consistent hI hfresh hsafe hrun
      refine hI'.enter (fun job' hjob => hI'.lane job' ?_) fun _ => ?_
      · rw [locked_lane hrun, hlane]
        exact hjob
      · obtain ⟨henough, hdb⟩ := Sql.query_ok (locked_eq hrun).1
        dsimp only at henough hdb
        rw [hdb]
        exact of_decide_eq_true henough.symm
    · next hrun => exact (locked_consistent hI hfresh hsafe hrun).done job
  · exact hI

theorem photoRead_consistent {job : Job} {photoCurrent : Bool} {bytes : Bytes}
    (hlane : h.lane = .reading job) :
    Consistent sha256 (h.photoRead sha256 enc env job photoCurrent bytes) outs := by
  unfold photoRead
  dsimp only
  split_ifs
  · exact hI.done job
  · split
    · next hrun =>
      exact (locked_consistent hI hfresh checkPhoto_sound hrun).transform
        ((locked_lane hrun).trans hlane) _ _
    · next hrun => exact (locked_consistent hI hfresh checkPhoto_sound hrun).done job

theorem opened_consistent {input : Except Int Bytes} {photoCurrent : Bool} :
    Consistent sha256 (h.opened sha256 enc env input photoCurrent) outs := by
  unfold opened
  split
  · next job hlane =>
    split
    · exact photoRead_consistent hI hfresh hlane
    · have hsafe : SoundBy (· ∈ env.fresh) h.store (payloadInput sha256 job) := by
        refine .bind .query fun live => ?_
        cases live with
        | false => exact .pure
        | true =>
          refine .bind .query fun blob => ?_
          cases blob with
          | none => exact .pure
          | some bytes =>
            dsimp only
            split_ifs
            · exact .pure
            · exact .pure
      split
      · next hrun =>
        exact (locked_consistent hI hfresh hsafe hrun).transform ((locked_lane hrun).trans hlane) _ _
      · next hrun => exact (locked_consistent hI hfresh hsafe hrun).done job
    · exact hI.transform hlane _ _
    · exact hI.transform hlane _ _
  · exact hI

theorem maintained_consistent : Consistent sha256 (h.maintained enc env) outs := by
  unfold maintained
  split
  · exact (locked_consistent hI hfresh collect_sound rfl).leave rfl rfl
  · exact hI

/-- The last critical section of a conversion publishes what was made, or nothing. -/
theorem completed_consistent {job : Job} {signature : Option Bytes} {refused : Option Int}
    {result : Made} {r : Except Error Bool} (hlane : h.lane = .transforming job signature refused)
    (hbytes : ∀ info output, result = .ok (info, output) → info.bytes ≤ maxDerivative)
    (hrun : h.locked env (completed enc env.now job signature (hashed sha256 result)) = (r, h')) :
    (r ≠ .ok true ∧ Consistent sha256 { h' with lane := .done job } outs) ∨
      r = .ok true ∧ ∃ info output, result = .ok (info, output) ∧
        Consistent sha256 { h' with lane := .done job }
          (outs ++ [.published job.key (digest sha256 output) output]) := by
  obtain ⟨hresult, hmoved⟩ := locked_eq hrun
  have hhash : ∀ info hash, hashed sha256 result = .ok (info, hash) → hash ≠ [] := by
    intro info hash hok
    cases result with
    | error code => cases hok
    | ok made =>
      obtain ⟨-, rfl⟩ := Prod.mk.inj (Except.ok.inj hok)
      exact digest_ne made.2
  rcases completed_cases (F := (· ∈ env.fresh)) hhash hI.filed hI.queue (fun _ hid => hid) hresult with
    ⟨hnone, hsound⟩ | ⟨hdone, info, hash, s₁, hok, hcurrent, hagree, hpublished, hsound⟩
  · refine Or.inl ⟨hnone, ?_⟩
    rw [hmoved]
    exact (hI.moved hfresh hsound).done job
  · cases result with
    | error code => cases hok
    | ok made =>
      obtain ⟨info', output⟩ := made
      obtain ⟨rfl, rfl⟩ := Prod.mk.inj (Except.ok.inj hok)
      refine Or.inr ⟨hdone, info', output, rfl, ?_⟩
      have hnext := hI.publish (by rw [hlane]; rfl : h.lane.job? = some job) (by rw [hlane]; rfl) hcurrent
        hagree hpublished (hbytes info' output rfl) rfl
      rw [hmoved]
      exact hnext.moved hfresh hsound

theorem converted_consistent {made : Made} {photoCurrent unchanged installed : Bool} :
    Consistent sha256 (h.converted sha256 enc env made photoCurrent unchanged installed).2
      (outs ++ publication sha256
        (h.converted sha256 enc env made photoCurrent unchanged installed).1) := by
  unfold converted
  split
  · next job signature refused hlane =>
    dsimp only
    split_ifs
    · rw [publication, List.append_nil]
      exact hI.done job
    · rcases hrun : h.locked env (completed enc env.now job signature
        (hashed sha256 (outcome job refused made unchanged))) with ⟨r, h'⟩
      rcases completed_consistent hI hfresh hlane (fun _ _ => outcome_bytes) hrun with
        ⟨hnone, hnext⟩ | ⟨rfl, info, output, hok, hnext⟩
      · split
        · next hr =>
          exact absurd (Prod.mk.inj hr).1 hnone
        · next hr _ =>
          rw [publication, List.append_nil, ← (Prod.mk.inj hr).2]
          exact hnext
      · rw [hok]
        exact hnext
  · rw [publication, List.append_nil]
    exact hI

theorem responded_consistent {token : Nat} {present valid : Bool}
    {ifNoneMatch bytes : Option Bytes} :
    Consistent sha256 (h.responded sha256 enc env token present bytes).2
      (outs ++ response valid ifNoneMatch (h.responded sha256 enc env token present bytes).1) := by
  unfold responded
  split
  · rw [response, List.append_nil]
    exact hI
  · next key value hrequest =>
    dsimp only
    have hI₁ : Consistent sha256 { h with
        requests := h.requests.deleteWhere fun other _ => other = token } outs := by
      refine hI.answer fun other r hr => Or.inl ?_
      rw [Table.get?_deleteWhere, Option.filter_eq_some_iff] at hr
      exact hr.1
    split_ifs
    · rw [response, List.append_nil]
      exact hI₁
    · split
      · next b h' hrun =>
        obtain ⟨hetag, hcurrent⟩ := respondTx_ok (locked_eq hrun).1
        have hserved := hI.requests token key value hrequest _ hetag
        have hsound := locked_sound hI₁ respondTx_sound hrun
        rw [(locked_eq hrun).2, response, hetag]
        cases value.ref.mimeType with
        | none =>
          rw [List.append_nil]
          exact hI₁.moved hfresh hsound
        | some mimeType =>
          dsimp only
          split_ifs
          · refine (hI₁.emit (o := served key (digest sha256 b) ifNoneMatch b) hserved hcurrent
              fun b' hb' => ?_).moved hfresh hsound
            rw [served_body hb']
            rfl
          · rw [List.append_nil]
            exact hI₁.moved hfresh hsound
      · next hrun =>
        rw [response, List.append_nil]
        exact locked_consistent hI₁ hfresh respondTx_sound hrun

end Actions

theorem Consistent.store (hI : Consistent sha256 h outs) {s : AssetStore}
    (hsound : Sound (· ∈ ([] : List Bytes)) h.store s) :
    Consistent sha256 { h with store := s } outs :=
  let env : Env := { now := 0, faults := [], fresh := [] }
  have hfresh : ∀ id ∈ env.fresh, id ∉ h.issued := fun _ hid => absurd hid List.not_mem_nil
  hI.moved hfresh hsound

theorem Consistent.quiet (hI : Consistent sha256 h outs) : Consistent sha256 h (outs ++ []) := by
  rw [List.append_nil]
  exact hI

theorem apply_consistent (hI : Consistent sha256 h outs) {a : AssetAction} (henabled : h.enabled a) :
    Consistent sha256 (h.apply sha256 hashId enc a) (outs ++ h.emit sha256 enc a) := by
  have hsame : Sound (· ∈ ([] : List Bytes)) h.store h.store := .refl hI.filed hI.queue
  cases a with
  | respond env token present valid ifNoneMatch bytes =>
    exact responded_consistent hI (henabled env rfl)
  | convert env made photoCurrent unchanged installed =>
    exact converted_consistent hI (henabled env rfl)
  | elsewhere journal =>
    exact Consistent.quiet (hI.store (hsame.of_tables rfl rfl hI.queue))
  | prioritize ids =>
    exact Consistent.quiet (hI.store (hsame.sources fun _ => rfl))
  | reset env =>
    exact Consistent.quiet (locked_consistent hI (henabled env rfl) resetStore_sound rfl)
  | attach env owner value sources =>
    exact Consistent.quiet (locked_consistent hI (henabled env rfl) (.transaction attach_sound) rfl)
  | previews env owner value artwork =>
    exact Consistent.quiet (locked_consistent hI (henabled env rfl) (.transaction previews_sound) rfl)
  | avatar env identity photo =>
    exact Consistent.quiet (locked_consistent hI (henabled env rfl) (.transaction avatar_sound) rfl)
  | request env token present id version variant =>
    exact Consistent.quiet (requested_consistent hI (henabled env rfl))
  | check env =>
    exact Consistent.quiet (checked_consistent hI (henabled env rfl))
  | inspect env opened =>
    exact Consistent.quiet (inspected_consistent hI (henabled env rfl))
  | contactWork =>
    refine Consistent.quiet ?_
    rw [apply]
    split
    · exact hI.leave rfl rfl
    · exact hI
  | choose env =>
    exact Consistent.quiet (chosen_consistent hI (henabled env rfl))
  | collect env =>
    exact Consistent.quiet (collected_consistent hI (henabled env rfl))
  | approve env =>
    exact Consistent.quiet (admitted_consistent hI (henabled env rfl))
  | read env input photoCurrent =>
    exact Consistent.quiet (opened_consistent hI (henabled env rfl))
  | maintain env =>
    exact Consistent.quiet (maintained_consistent hI (henabled env rfl))
  | release =>
    exact Consistent.quiet (hI.leave rfl rfl)
  | crash =>
    have hempty : Consistent sha256 { h with requests := .empty } outs :=
      hI.answer fun _ _ hr => (by cases hr)
    exact Consistent.quiet (hempty.leave rfl rfl)

theorem step_consistent (hI : Consistent sha256 h outs) (a : AssetAction) :
    Consistent sha256 (h.step sha256 hashId enc a) (outs ++ h.out sha256 enc a) := by
  unfold step out
  split_ifs with henabled
  · exact apply_consistent hI henabled
  · rw [List.append_nil]
    exact hI

def start (journal : Journal) : AssetService := { store := { journal := journal } }

theorem start_consistent (journal : Journal) : Consistent sha256 (start journal) [] where
  filed := fun _ _ hr => (by cases hr)
  queue := Nat.zero_le _
  room := Nat.zero_le _
  versions := fun _ _ hrow => (by cases hrow)
  lane := fun _ hjob => (by cases hjob)
  requests := fun _ _ _ hvalue => (by cases hvalue)
  outputs := fun _ ho => absurd ho List.not_mem_nil
  bodies := fun _ ho => absurd ho List.not_mem_nil
  agree := fun _ ho => absurd ho List.not_mem_nil

theorem run_consistent (journal : Journal) (actions : List AssetAction) :
    Consistent sha256 ((assetService sha256 hashId enc).run (start journal) actions)
      ((assetService sha256 hashId enc).emitted (start journal) actions) :=
  (assetService sha256 hashId enc).run_emitted_invariant (I := Consistent sha256)
    (fun _ _ a hI => step_consistent hI a) (start journal) [] actions (start_consistent journal)

/-- All bytes published or served under one URL have one SHA-256, the entity tag. -/
theorem urls_immutable (journal : Journal) (actions : List AssetAction) :
    let outs := (assetService sha256 hashId enc).emitted (start journal) actions
    (∀ o ∈ outs, ∀ b, o.body? = some b → digest sha256 b = o.etag) ∧
      ∀ o ∈ outs, ∀ o' ∈ outs, o.key = o'.key → o.etag = o'.etag :=
  have hI := run_consistent journal actions
  ⟨hI.bodies, hI.agree⟩

namespace Sample

def shade (bytes : Bytes) : Vector UInt8 32 := Vector.replicate 32 (bytes.headD 0)

def service : Machine AssetService AssetAction AssetOutput :=
  assetService shade id Relay.Sample.encoding

def photo : Bytes := text "AAAAAAAAAAAAAAAAAAAAAA"
def firstVersion : Bytes := text "BAAAAAAAAAAAAAAAAAAAAA"
def nextVersion : Bytes := text "CAAAAAAAAAAAAAAAAAAAAA"

def owner : Message where
  conversationId := text "DAAAAAAAAAAAAAAAAAAAAA"
  sender := []
  direction := .outgoing
  service := text "imessage"
  timestamp := text "2001-01-01T00:00:00.000000000Z"
  kind := .attachment
  decoding := .plain
  observedStatus := .sent

def image : ImageInfo := { width := 1, height := 1, png := 1, still := 1, bytes := 1 }

def photoSource : AttachmentSource :=
  { id := text "a", filename := text "a.png", uti := [], transferState := 5 }

def registerPhoto : List AssetAction := [
  .attach { now := 0, fresh := [photo, firstVersion] } (text "guid") owner [photoSource],
  .request { now := 1 } 1 true photo firstVersion .inlineImage]

def convertPhoto (now : Int) (fresh : List Bytes) (output : Bytes) : List AssetAction := [
  .check { now := now }, .inspect { now := now } (.ok (text "file")), .choose { now := now },
  .collect { now := now }, .approve { now := now },
  .read { now := now } (.ok (text "file")) true,
  .convert { now := now, fresh := fresh } (.ok (image, output)) true true true,
  .maintain { now := now }]

def evictPhoto : List AssetAction := [
  .request { now := 4 } 1 true photo firstVersion .inlineImage,
  .respond { now := 4 } 1 true true none none]

def photoRun : List AssetAction :=
  registerPhoto ++ convertPhoto 2 [] [7] ++ evictPhoto ++ convertPhoto 5 [nextVersion] [8]

end Sample

/-- The photo is published once; a second conversion to other bytes is not, and the photo
has another version from then on. -/
example : ((Sample.service.emitted (start { epoch := text "e" }) Sample.photoRun).map fun o =>
      (o.key, o.etag)) =
        [((Sample.photo, Sample.firstVersion, .inlineImage), digest Sample.shade [7])] ∧
    (Sample.service.run (start { epoch := text "e" }) Sample.photoRun).store.sources.rows.map
      (fun r => r.2.version) = [Sample.nextVersion] := by
  decide +kernel

/-- The queue and the cache stay within their bounds, whatever was published. -/
theorem store_bounded (journal : Journal) (actions : List AssetAction) :
    let store := ((assetService sha256 hashId enc).run (start journal) actions).store
    store.work.rows.length ≤ maxQueue ∧ usedBytes store ≤ cacheBudget := by
  have hI := @run_consistent sha256 hashId enc journal actions
  refine ⟨hI.queue, le_trans hI.room ?_⟩
  split_ifs
  · exact Nat.sub_le _ _
  · exact le_refl _

end AssetService

end Zimbr.Relay
