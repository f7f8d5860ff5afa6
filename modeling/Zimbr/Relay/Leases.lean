import Zimbr.Relay.Originals

set_option autoImplicit false

/-!
# Leases of the upload ledger

Every step moves the row of an upload by at most one of few moves. A lease is
live while its row is receiving under its token; tokens are never reused, so a
lease that died stays dead, whatever happens to its identifier.
-/
namespace Zimbr.Relay
open Library

/-- A request took the completed upload, or gave its original up. -/
def Used (r r' : UploadRow) : Prop :=
  r' = r ∨ (r.state = .ready ∨ r.state = .pinned) ∧ (r'.state = .pinned ∨ r'.state = .deleting) ∧
    r'.record = r.record ∧ r'.owner = r.owner ∧ r'.epoch = r.epoch

/-- What one step does to the row of an upload; `handed` are the leases it
hands out. -/
inductive Moves (a : Action) (handed : List Uploads.Lease) (id : Bytes) :
    Option UploadRow → Option UploadRow → Prop where
  | absent : Moves a handed id none none
  | used (r r' : UploadRow) (h : Used r r') : Moves a handed id (some r) (some r')
  | reserved (r : UploadRow) (state : r.state = .reserved) (file : r.record.id = id) :
    Moves a handed id none (some r)
  | claimed (r : UploadRow) (lease : Uploads.Lease) (hands : handed = [lease])
    (drawn : lease.token ∈ a.fresh) (file : lease.file = r.record)
    (epoch : lease.serverEpoch = r.epoch) (state : r.state = .reserved) :
    Moves a handed id (some r) (some (Uploads.claimedRow lease.token r))
  | completed (r : UploadRow) (env : Env) (lease : Uploads.Lease)
    (action : a = .critical env (.complete lease)) (live : Uploads.leased lease id r = true) :
    Moves a handed id (some r) (some { r with state := .ready })
  | released (r : UploadRow) (env : Env) (lease : Uploads.Lease)
    (action : a = .critical env (.abandon lease)) (live : Uploads.leased lease id r = true) :
    Moves a handed id (some r) (some { r with state := .reserved })
  | recovered (r : UploadRow) (env : Env) (action : a = .launch env)
    (state : r.state = .receiving) : Moves a handed id (some r) (some { r with state := .reserved })
  | retired (r : UploadRow) (state : r.state = .reserved ∨ r.state = .ready) :
    Moves a handed id (some r) (some { r with state := .deleting })
  | purged (r : UploadRow) (env : Env) (action : a = .critical env (.purge id))
    (state : r.state = .deleting) : Moves a handed id (some r) none

section Used

theorem Used.trans {r₁ r₂ r₃ : UploadRow} (h : Used r₁ r₂) (h' : Used r₂ r₃) : Used r₁ r₃ := by
  rcases h with rfl | ⟨hbefore, hafter, hrecord, howner, hepoch⟩
  · exact h'
  · rcases h' with rfl | ⟨-, hafter', hrecord', howner', hepoch'⟩
    · exact Or.inr ⟨hbefore, hafter, hrecord, howner, hepoch⟩
    · exact Or.inr ⟨hbefore, hafter', hrecord'.trans hrecord, howner'.trans howner,
        hepoch'.trans hepoch⟩

theorem Used.eq {r r' : UploadRow} (h : Used r r') (hready : r.state ≠ .ready)
    (hpinned : r.state ≠ .pinned) : r' = r := by
  rcases h with h | ⟨hstate | hstate, -⟩
  · exact h
  · exact absurd hstate hready
  · exact absurd hstate hpinned

theorem usedRows_refl (o : Option UploadRow) : Option.Rel Used o o := by
  cases o with
  | none => exact .none
  | some r => exact .some (Or.inl rfl)

theorem usedRows_trans {o₁ o₂ o₃ : Option UploadRow} (h : Option.Rel Used o₁ o₂)
    (h' : Option.Rel Used o₂ o₃) : Option.Rel Used o₁ o₃ := by
  cases h with
  | none => exact h'
  | some h =>
    cases h' with
    | some h' => exact .some (h.trans h')

variable {scope : Scope} {j j' : Journal}

theorem Spared.used (h : Spared j j') (id : Bytes) :
    Option.Rel Used (j.uploads.get? id) (j'.uploads.get? id) := by
  rcases h id with hsame | ⟨r, requestId, hr, hpinned, -, -, hafter⟩
  · rw [hsame]
    exact usedRows_refl _
  · rw [hr, hafter]
    exact .some (Or.inr ⟨Or.inr hpinned, Or.inr rfl, rfl, rfl, rfl⟩)

theorem Change.used (h : Change scope j j') (hledger : scope.ledger = false) (id : Bytes) :
    Option.Rel Used (j.uploads.get? id) (j'.uploads.get? id) := by
  cases h with
  | quiet h _ => exact h.spared.used id
  | published r _ h _ => exact h.spared.used id
  | request v row found _ _ _ updated => exact (updated.spared (by rw [found]; rfl)).used id
  | accepted input owner v h =>
    rcases h.uploads id with ⟨-, hsame⟩ | ⟨file, -, r, -, hr, -, -, -, hready, hafter⟩
    · rw [hsame]
      exact usedRows_refl _
    · rw [hr, hafter]
      exact .some (Or.inr ⟨Or.inl hready, Or.inl rfl, rfl, rfl, rfl⟩)
  | pruned cut h =>
    rw [h.effect]
    exact usedRows_refl _
  | ledger allowed _ =>
    rw [hledger] at allowed
    cases allowed
  | reset epoch _ h => exact h.spared.used id

theorem Changed.used (h : Changed scope j j') (hledger : scope.ledger = false) (id : Bytes) :
    Option.Rel Used (j.uploads.get? id) (j'.uploads.get? id) := by
  induction h with
  | refl => exact usedRows_refl _
  | tail _ h ih => exact usedRows_trans ih (h.used hledger id)

theorem Moves.of_used {a : Action} {handed : List Uploads.Lease} {id : Bytes}
    {o o' : Option UploadRow} (h : Option.Rel Used o o') : Moves a handed id o o' := by
  cases h with
  | none => exact .absent
  | some h => exact .used _ _ h

theorem Moves.same {a : Action} {handed : List Uploads.Lease} {id : Bytes}
    {o o' : Option UploadRow} (h : o' = o) : Moves a handed id o o' := by
  rw [h]
  exact .of_used (usedRows_refl o)

end Used

namespace Process

variable {enc : Encoding} {p : Process}

def handed (p : Process) : Action → List Uploads.Lease
  | .critical env (.claim owner epoch id) =>
    if p.enabled (.critical env (.claim owner epoch id)) then
      match (p.locked env (Uploads.claim owner epoch id)).1 with
      | .ok (.write lease) => [lease]
      | _ => []
    else []
  | _ => []

theorem moves_setPhase {a : Action} {handed : List Uploads.Lease} {id : Bytes}
    {q : Bytes → UploadRow → Bool} {phase : Phase} {j : Journal}
    (h : ∀ r, j.uploads.get? id = some r → q id r = true →
      Moves a handed id (some r) (some { r with state := phase })) :
    Moves a handed id (j.uploads.get? id) ((Uploads.setPhase q phase j).uploads.get? id) := by
  rw [Uploads.setPhase_get?]
  cases hr : j.uploads.get? id with
  | none => exact .absent
  | some r =>
    rw [Option.map_some]
    by_cases hq : q id r = true
    · rw [if_pos hq]
      exact h r hr hq
    · rw [if_neg hq]
      exact .used r r (Or.inl rfl)

/-- What a section of the ledger commits moves every row as its operation says. -/
theorem section_moves {env : Env} {s : Section} {inserted : Option Bytes}
    {c' : Conn Journal Bytes} (hledger : s.ledger = true)
    (henabled : p.enabled (.critical env s))
    (hrun : (s.tx enc env.now).run (p.conn env) = (.ok inserted, c')) (id : Bytes) :
    Moves (.critical env s) (p.handed (.critical env s)) id (p.journal.uploads.get? id)
      (c'.db.uploads.get? id) := by
  cases s with
  | post input ready owner => exact nomatch hledger
  | ingest resets first parts imports last => exact nomatch hledger
  | write ops => exact nomatch hledger
  | prune countLimit => exact nomatch hledger
  | reserve owner epoch file =>
    obtain ⟨_, c₁, hreserve, hrun⟩ := Sql.bind_ok hrun
    rw [(Sql.pure_ok hrun).2]
    rcases Uploads.reserve_ok hreserve with ⟨hdb, -⟩ | ⟨size, uploads, hadmitted⟩
    · exact .same (by rw [hdb]; rfl)
    · have hinsert : p.journal.uploads.insert file.id
          (Uploads.reservation owner epoch file size env.now) = some uploads := hadmitted.inserted
      rw [hadmitted.effect, Table.get?_insert hinsert]
      split_ifs with hid
      · rw [hid, Table.get?_of_insert hinsert]
        exact .reserved _ rfl rfl
      · exact .same rfl
  | claim owner epoch id' =>
    obtain ⟨claimed, c₁, hclaim, hrun⟩ := Sql.bind_ok hrun
    rw [(Sql.pure_ok hrun).2]
    rcases Uploads.claim_ok hclaim with
      ⟨found, -, hdb⟩ | ⟨r, token, hdrawn, hr, -, -, hstate, hclaimed, hdb⟩
    · exact .same (by rw [hdb]; rfl)
    · have hr : p.journal.uploads.get? id' = some r := hr
      have hhanded : p.handed (.critical env (.claim owner epoch id')) =
          [{ serverEpoch := r.epoch, file := r.record, token := token }] := by
        rw [handed, if_pos henabled, locked, hclaim, hclaimed]
      rw [hdb, Table.get?_modify]
      split_ifs with hid
      · have hrow : (p.conn env).db.uploads.get? id = some r := by
          rw [hid]
          exact hr
        rw [hrow, hid, hr]
        exact .claimed r _ hhanded hdrawn rfl rfl hstate
      · exact .same rfl
  | complete lease =>
    obtain ⟨_, c₁, hcomplete, hrun⟩ := Sql.bind_ok hrun
    rw [(Sql.pure_ok hrun).2, (Uploads.complete_ok hcomplete).2.2]
    exact moves_setPhase fun r _ hleased => .completed r env lease rfl hleased
  | abandon lease =>
    obtain ⟨_, c₁, habandon, hrun⟩ := Sql.bind_ok hrun
    rw [(Sql.pure_ok hrun).2, Uploads.abandon_ok habandon]
    exact moves_setPhase fun r _ hleased => .released r env lease rfl hleased
  | cancel owner epoch id' =>
    obtain ⟨_, c₁, hcancel, hrun⟩ := Sql.bind_ok hrun
    obtain ⟨r, hr, -, hstate, hdb⟩ := Uploads.cancel_ok hcancel
    have hr : p.journal.uploads.get? id' = some r := hr
    rw [(Sql.pure_ok hrun).2, hdb]
    refine moves_setPhase fun r' hr' hid => .retired r' ?_
    rw [of_decide_eq_true hid, hr, Option.some.injEq] at hr'
    rw [← hr']
    exact hstate
  | expire =>
    obtain ⟨_, c₁, hexpire, hrun⟩ := Sql.bind_ok hrun
    rw [(Sql.pure_ok hrun).2, Uploads.expire_ok hexpire]
    exact moves_setPhase fun r _ hexpired => .retired r (Uploads.expired_state hexpired)
  | purge id' =>
    obtain ⟨_, c₁, hpurge, hrun⟩ := Sql.bind_ok hrun
    rw [(Sql.pure_ok hrun).2, Uploads.purge_ok hpurge, Table.get?_deleteWhere]
    change Moves _ _ id (p.journal.uploads.get? id) ((p.journal.uploads.get? id).filter _)
    cases hr : p.journal.uploads.get? id with
    | none => exact .absent
    | some r =>
      by_cases hpurged : id = id' ∧ r.state = .deleting
      · rw [Option.filter_some, if_neg (by simp [hpurged])]
        exact .purged r env (by rw [hpurged.1]) hpurged.2
      · rw [Option.filter_some, if_pos (by simpa using not_and_or.mp hpurged)]
        exact .used r r (Or.inl rfl)

/-- A start returns the rows of interrupted transfers before it recovers sends. -/
theorem Valid.opened_moves (h : p.Valid) (env : Env) (id : Bytes) :
    Moves (.launch env) [] id (p.journal.uploads.get? id)
      ((p.opened env).journal.uploads.get? id) := by
  rcases hrecover : Uploads.recover.run (p.conn env) with ⟨r, c₁⟩
  have hk₁ : Keyed c₁.db := by
    cases r with
    | error e => exact (of_aborts Uploads.recover_aborts hrecover).keyed h.keyed
    | ok u => exact (Uploads.recover_kept hrecover).changed.keyed h.keyed
  have hstartup : Option.Rel Used (c₁.db.uploads.get? id)
      ((p.opened env).journal.uploads.get? id) := by
    rcases hrun : (startup env.now).run c₁ with ⟨e | required, c₂⟩
    · simp only [opened, hrecover, hrun]
      exact (of_aborts startup_aborts hrun).used rfl id
    · simp only [opened, hrecover, hrun]
      have hchanged : Changed { recovers := true } c₁.db c₂.db := startup_ok rfl hk₁ hrun
      exact hchanged.used rfl id
  cases r with
  | error e =>
    have hdb : c₁.db = p.journal := Uploads.recover_aborts _ _ _ hrecover
    rw [hdb] at hstartup
    exact .of_used hstartup
  | ok u =>
    rw [Uploads.recover_ok hrecover, Uploads.setPhase_get?] at hstartup
    change Option.Rel Used ((p.journal.uploads.get? id).map _) _ at hstartup
    cases hr : p.journal.uploads.get? id with
    | none =>
      rw [hr, Option.map_none] at hstartup
      exact .of_used hstartup
    | some r =>
      rw [hr, Option.map_some] at hstartup
      by_cases hreceiving : r.state = .receiving
      · rw [if_pos (decide_eq_true hreceiving)] at hstartup
        rcases hafter : (p.opened env).journal.uploads.get? id with _ | r'
        · rw [hafter] at hstartup
          cases hstartup
        · rw [hafter] at hstartup
          cases hstartup with
          | some hused =>
            rw [hused.eq (fun hs => by cases hs) fun hs => by cases hs]
            exact .recovered r env rfl hreceiving
      · rw [if_neg (by simpa using hreceiving)] at hstartup
        exact .of_used hstartup

theorem Valid.step_moves (enc : Encoding) (h : p.Valid) (a : Action) (id : Bytes) :
    Moves a (p.handed a) id (p.journal.uploads.get? id)
      ((p.step enc a).journal.uploads.get? id) := by
  by_cases henabled : p.enabled a
  · by_cases hledger : a.ledger = true
    · unfold Process.step
      rw [if_pos henabled]
      cases a with
      | launch env => exact h.opened_moves env id
      | critical env s =>
        change Moves _ _ id _ (((s.tx enc env.now).run (p.conn env)).2.db.uploads.get? id)
        rcases hrun : (s.tx enc env.now).run (p.conn env) with ⟨e | inserted, c'⟩
        · exact .same (by rw [section_aborts s _ _ _ hrun]; rfl)
        · exact section_moves hledger henabled hrun id
      | crash => exact nomatch hledger
      | prepareSend env gate source => exact nomatch hledger
      | invoke invocation => exact nomatch hledger
      | commitResult env => exact nomatch hledger
      | recover env => exact nomatch hledger
      | prepareObservation env gate => exact nomatch hledger
      | publish env readReady candidate => exact nomatch hledger
      | reset env expected => exact nomatch hledger
    · have hplain : a.ledger = false := by simpa using hledger
      have hstepped : Stepped (p.scope a) p.journal (p.step enc a).journal := (h.step a).2
      refine .of_used ?_
      rcases hstepped with hchanged | ⟨epoch, -, middle, hreset, hchanged⟩
      · exact hchanged.used hplain id
      · exact usedRows_trans (hreset.spared.used id) (hchanged.used rfl id)
  · refine .same ?_
    unfold Process.step
    rw [if_neg henabled]

theorem handed_disabled {a : Action} (h : ¬p.enabled a) : p.handed a = [] := by
  cases a with
  | critical env s =>
    cases s with
    | claim owner epoch id => exact if_neg h
    | _ => rfl
  | _ => rfl

/-- A handed lease names a row that the step claimed under a new token. -/
theorem handed_spec (enc : Encoding)
    (filed : ∀ id r, p.journal.uploads.get? id = some r → r.record.id = id)
    {a : Action} {lease : Uploads.Lease} (h : lease ∈ p.handed a) :
    p.handed a = [lease] ∧ lease.token ∈ a.fresh ∧ lease.token ∉ p.issued ∧
      (p.step enc a).issued = a.fresh ++ p.issued ∧
      ∃ r, (p.step enc a).journal.uploads.get? lease.file.id =
        some (Uploads.claimedRow lease.token r) ∧ lease.file = r.record ∧
          lease.serverEpoch = r.epoch := by
  by_cases henabled : p.enabled a
  swap
  · rw [handed_disabled henabled] at h
    exact absurd h List.not_mem_nil
  cases a with
  | critical env s =>
    cases s with
    | claim owner epoch id =>
      have hissued : (p.step enc (.critical env (.claim owner epoch id))).issued =
          env.fresh ++ p.issued := by
        rw [Process.step, if_pos henabled]
        rfl
      rcases hclaim : (Uploads.claim owner epoch id).run (p.conn env) with ⟨e | claimed, c'⟩
      · rw [handed, if_pos henabled, locked, hclaim] at h
        exact absurd h List.not_mem_nil
      rcases Uploads.claim_ok hclaim with
        ⟨found, hclaimed, -⟩ | ⟨r, token, hdrawn, hr, -, -, -, hclaimed, hdb⟩
      · rw [handed, if_pos henabled, locked, hclaim, hclaimed] at h
        exact absurd h List.not_mem_nil
      have hhanded : p.handed (.critical env (.claim owner epoch id)) =
          [{ serverEpoch := r.epoch, file := r.record, token := token }] := by
        rw [handed, if_pos henabled, locked, hclaim, hclaimed]
      rw [hhanded, List.mem_singleton] at h
      have hr : p.journal.uploads.get? id = some r := hr
      have hrun : ((Section.claim owner epoch id).tx enc env.now).run (p.conn env) =
          (.ok none, c') := by
        rw [Section.tx, Sql.bind_run, hclaim]
        rfl
      rw [h, hhanded]
      refine ⟨rfl, hdrawn, (enabled_fresh henabled token hdrawn).2, hissued, r, ?_, rfl, rfl⟩
      rw [Process.step, if_pos henabled]
      simp only [apply, locked, hrun]
      have hrow : (p.conn env).db.uploads.get? id = some r := hr
      rw [filed id r hr, hdb, Table.get?_modify, if_pos rfl, hrow]
      rfl
    | _ => exact absurd h List.not_mem_nil
  | _ => exact absurd h List.not_mem_nil

end Process

def leasing (enc : Encoding) : Machine Process Action Uploads.Lease where
  step := Process.step enc
  out := Process.handed

def Uploads.Lease.Live (lease : Uploads.Lease) (j : Journal) : Prop :=
  ∃ r, j.uploads.get? lease.file.id = some r ∧ Uploads.leased lease lease.file.id r = true

def lastLease (leases : List Uploads.Lease) (id : Bytes) : Option Uploads.Lease :=
  ChangeLog.latest (fun lease => lease.file.id) leases id

/-- The leases handed out so far have distinct tokens, and a row is receiving
under the latest lease of its identifier. -/
structure Leased (p : Process) (leases : List Uploads.Lease) : Prop where
  filed : ∀ id r, p.journal.uploads.get? id = some r → r.record.id = id
  issued : ∀ lease ∈ leases, lease.token ∈ p.issued
  tokens : (leases.map fun lease => lease.token).Nodup
  latest : ∀ id r, p.journal.uploads.get? id = some r → r.state = .receiving →
    ∃ lease, lastLease leases id = some lease ∧ lease.token = r.lease

theorem leased_new (epoch : Bytes) : Leased (.new epoch) [] where
  filed _ _ h := nomatch h
  issued _ h := absurd h List.not_mem_nil
  tokens := List.nodup_nil
  latest _ _ h := nomatch h

/-- What one step may do to leases and retired rows, after the given leases
were handed out. -/
structure LeaseStep (leases : List Uploads.Lease) (a : Action) (j j' : Journal) : Prop where
  /-- Only a start, or an operation with the token of the latest claim, ends a transfer. -/
  ended : ∀ id r, j.uploads.get? id = some r → r.state = .receiving →
    j'.uploads.get? id = some r ∨
      (∃ env, a = .launch env) ∧ j'.uploads.get? id = some { r with state := .reserved } ∨
      ∃ env lease last, lastLease leases id = some last ∧ lease.file.id = id ∧
        lease.token = last.token ∧
        (a = .critical env (.complete lease) ∧ j'.uploads.get? id = some { r with state := .ready } ∨
          a = .critical env (.abandon lease) ∧
            j'.uploads.get? id = some { r with state := .reserved })
  /-- An operation with a stale lease changes nothing. -/
  stale : ∀ env lease, a = .critical env (.complete lease) ∨ a = .critical env (.abandon lease) →
    ¬lease.Live j → j' = j
  /-- A retired row changes no more until it is purged. -/
  retired : ∀ id r, j.uploads.get? id = some r → r.state = .deleting →
    j'.uploads.get? id = some r ∨
      (∃ env, a = .critical env (.purge id)) ∧ j'.uploads.get? id = none
  /-- Only a purge removes a row, and only a retired one. -/
  removed : ∀ id r, j.uploads.get? id = some r → j'.uploads.get? id = none →
    r.state = .deleting ∧ ∃ env, a = .critical env (.purge id)

section Steps

variable {enc : Encoding} {p : Process} {leases : List Uploads.Lease}

theorem Moves.filed {a : Action} {handed : List Uploads.Lease} {id : Bytes}
    {o o' : Option UploadRow} (h : Moves a handed id o o')
    (ho : ∀ r, o = some r → r.record.id = id) : ∀ r, o' = some r → r.record.id = id := by
  intro r' hr'
  cases h with
  | absent => exact nomatch hr'
  | used r _ h =>
    rw [Option.some.injEq] at hr'
    rcases h with rfl | ⟨-, -, hrecord, -⟩
    · exact ho r' (by rw [hr'])
    · rw [← hr', hrecord]
      exact ho r rfl
  | reserved _ _ file => exact Option.some.inj hr' ▸ file
  | claimed r => exact Option.some.inj hr' ▸ ho r rfl
  | completed r => exact Option.some.inj hr' ▸ ho r rfl
  | released r => exact Option.some.inj hr' ▸ ho r rfl
  | recovered r => exact Option.some.inj hr' ▸ ho r rfl
  | retired r => exact Option.some.inj hr' ▸ ho r rfl
  | purged => exact nomatch hr'

/-- A row that is receiving after a step was receiving before it, or was claimed by it. -/
theorem Moves.receiving {a : Action} {handed : List Uploads.Lease} {id : Bytes}
    {o : Option UploadRow} {r' : UploadRow} (h : Moves a handed id o (some r'))
    (hstate : r'.state = .receiving) : o = some r' ∨
      ∃ r lease, o = some r ∧ handed = [lease] ∧ lease.token ∈ a.fresh ∧ lease.file = r.record ∧
        r' = Uploads.claimedRow lease.token r := by
  generalize ho' : some r' = o' at h
  cases h with
  | absent => exact nomatch ho'
  | used r _ h =>
    rw [Option.some.injEq] at ho'
    rw [← ho'] at h ⊢
    rcases h with hsame | ⟨-, hafter | hafter, -⟩
    · exact Or.inl (congrArg some hsame.symm)
    · exact nomatch hstate.symm.trans hafter
    · exact nomatch hstate.symm.trans hafter
  | reserved _ state => exact nomatch (Option.some.inj ho' ▸ hstate).symm.trans state
  | claimed r lease hands drawn file =>
    exact Or.inr ⟨r, lease, rfl, hands, drawn, file, Option.some.inj ho'⟩
  | completed r =>
    rw [Option.some.inj ho'] at hstate
    exact nomatch hstate
  | released r =>
    rw [Option.some.inj ho'] at hstate
    exact nomatch hstate
  | recovered r =>
    rw [Option.some.inj ho'] at hstate
    exact nomatch hstate
  | retired r =>
    rw [Option.some.inj ho'] at hstate
    exact nomatch hstate
  | purged => exact nomatch ho'

theorem Leased.step (hv : p.Valid) (h : Leased p leases) (a : Action) :
    Leased (p.step enc a) (leases ++ p.handed a) := by
  have hmoves := hv.step_moves enc a
  have hspec := fun lease (hlease : lease ∈ p.handed a) =>
    Process.handed_spec enc h.filed hlease
  have hkept : ∀ token ∈ p.issued, token ∈ (p.step enc a).issued := (hv.step_epoch a).2
  refine ⟨fun id => (hmoves id).filed (h.filed id), fun lease hlease => ?_, ?_,
    fun id r hr hstate => ?_⟩
  · rcases List.mem_append.mp hlease with hlease | hlease
    · exact hkept _ (h.issued lease hlease)
    · obtain ⟨-, hdrawn, -, hissued, -⟩ := hspec lease hlease
      rw [hissued]
      exact List.mem_append_left _ hdrawn
  · rw [List.map_append]
    refine h.tokens.append ?_ fun token htoken hnew => ?_
    · cases hhanded : p.handed a with
      | nil => exact List.nodup_nil
      | cons lease rest =>
        have hsingle := (hspec lease (by rw [hhanded]; exact List.mem_cons_self)).1
        rw [← hhanded, hsingle]
        exact List.nodup_singleton _
    · obtain ⟨old, hold, htold⟩ := List.mem_map.mp htoken
      obtain ⟨lease, hlease, htlease⟩ := List.mem_map.mp hnew
      have hfresh := (hspec lease hlease).2.2.1
      rw [htlease, ← htold] at hfresh
      exact hfresh (h.issued old hold)
  · by_cases hclaimed : ∃ lease ∈ p.handed a, lease.file.id = id
    · obtain ⟨lease, hlease, hid⟩ := hclaimed
      obtain ⟨hhanded, -, -, -, claimed, hrow, -⟩ := hspec lease hlease
      rw [hid, hr, Option.some.injEq] at hrow
      refine ⟨lease, ?_, by rw [hrow]; rfl⟩
      rw [hhanded, lastLease, ChangeLog.latest_snoc, if_pos hid]
    · have hlast : lastLease (leases ++ p.handed a) id = lastLease leases id := by
        cases hhanded : p.handed a with
        | nil => rw [List.append_nil]
        | cons lease rest =>
          have hlease : lease ∈ p.handed a := by
            rw [hhanded]
            exact List.mem_cons_self
          rw [← hhanded, (hspec lease hlease).1, lastLease, ChangeLog.latest_snoc,
            if_neg fun hid => hclaimed ⟨lease, hlease, hid⟩]
          rfl
      have hmove := hmoves id
      rw [hr] at hmove
      rw [hlast]
      rcases hmove.receiving hstate with hsame | ⟨before, lease, hbefore, hhanded, -, hfile, -⟩
      · exact h.latest id r hsame hstate
      · refine absurd ⟨lease, ?_, ?_⟩ hclaimed
        · rw [hhanded]
          exact List.mem_singleton_self _
        · rw [hfile]
          exact h.filed id before hbefore

theorem Leased.dead (hv : p.Valid) (h : Leased p leases) {lease : Uploads.Lease}
    (hlease : lease ∈ leases) (hdead : ¬lease.Live p.journal) (a : Action) :
    ¬lease.Live (p.step enc a).journal := by
  rintro ⟨r, hr, hleased⟩
  obtain ⟨-, -, htoken, hstate⟩ := Uploads.leased_id hleased
  have hmove := hv.step_moves enc a lease.file.id
  rw [hr] at hmove
  rcases hmove.receiving hstate with hsame | ⟨before, last, -, hhanded, hdrawn, -, hclaimed⟩
  · exact hdead ⟨r, hsame, hleased⟩
  · have hfresh := (Process.handed_spec enc h.filed
      (hhanded ▸ List.mem_singleton_self last)).2.2.1
    rw [hclaimed] at htoken
    have hreused : last.token = lease.token := htoken
    rw [hreused] at hfresh
    exact hfresh (h.issued lease hlease)

theorem Leased.live (h : Leased p leases) {lease : Uploads.Lease} (hlive : lease.Live p.journal) :
    ∃ last, lastLease leases lease.file.id = some last ∧ last.token = lease.token ∧
      (lease ∈ leases → lease = last) := by
  obtain ⟨r, hr, hleased⟩ := hlive
  obtain ⟨-, -, htoken, hstate⟩ := Uploads.leased_id hleased
  obtain ⟨last, hlast, hlastToken⟩ := h.latest _ r hr hstate
  refine ⟨last, hlast, hlastToken.trans htoken, fun hlease => ?_⟩
  exact List.inj_on_of_nodup_map h.tokens hlease (ChangeLog.latest_mem hlast)
    (htoken.symm.trans hlastToken.symm)

/-- An operation whose lease is not live changes nothing. -/
theorem Process.stale {env : Env} {lease : Uploads.Lease} {s : Section}
    (hs : s = .complete lease ∨ s = .abandon lease) (hdead : ¬lease.Live p.journal) :
    (p.step enc (.critical env s)).journal = p.journal := by
  have hunleased : ∀ id r, p.journal.uploads.get? id = some r →
      Uploads.leased lease id r = false := by
    intro id r hr
    by_contra hleased
    have hleased : Uploads.leased lease id r = true := by simpa using hleased
    rw [(Uploads.leased_id hleased).1] at hr hleased
    exact hdead ⟨r, hr, hleased⟩
  unfold Process.step
  by_cases henabled : p.enabled (.critical env s)
  swap
  · rw [if_neg henabled]
  rw [if_pos henabled]
  change ((s.tx enc env.now).run (p.conn env)).2.db = p.journal
  rcases hrun : (s.tx enc env.now).run (p.conn env) with ⟨e | inserted, c'⟩
  · exact section_aborts s _ _ _ hrun
  rcases hs with rfl | rfl
  · obtain ⟨_, c₁, hcomplete, hrun⟩ := Sql.bind_ok hrun
    exact absurd (Uploads.complete_ok hcomplete).2.1 hdead
  · obtain ⟨_, c₁, habandon, hrun⟩ := Sql.bind_ok hrun
    rw [(Sql.pure_ok hrun).2, Uploads.abandon_ok habandon]
    exact Uploads.setPhase_eq_self hunleased

theorem Leased.leaseStep (hv : p.Valid) (h : Leased p leases) (a : Action) :
    LeaseStep leases a p.journal (p.step enc a).journal := by
  have hmoves := hv.step_moves enc a
  refine ⟨fun id r hr hstate => ?_, fun env lease ha hdead => ?_, fun id r hr hstate => ?_,
    fun id r hr hnone => ?_⟩
  · have hmove := hmoves id
    obtain ⟨last, hlast, hlastToken⟩ := h.latest id r hr hstate
    rw [hr] at hmove
    generalize ho' : (p.step enc a).journal.uploads.get? id = o' at hmove
    cases hmove with
    | used r' _ h =>
      have hsame := h.eq (fun hs => nomatch hstate.symm.trans hs)
        fun hs => nomatch hstate.symm.trans hs
      exact Or.inl (congrArg some hsame)
    | claimed _ _ _ _ _ _ hreserved => exact nomatch hstate.symm.trans hreserved
    | completed _ env lease action live =>
      obtain ⟨hid, -, htoken, -⟩ := Uploads.leased_id live
      exact Or.inr (Or.inr ⟨env, lease, last, hlast, hid.symm,
        htoken.symm.trans hlastToken.symm, Or.inl ⟨action, rfl⟩⟩)
    | released _ env lease action live =>
      obtain ⟨hid, -, htoken, -⟩ := Uploads.leased_id live
      exact Or.inr (Or.inr ⟨env, lease, last, hlast, hid.symm,
        htoken.symm.trans hlastToken.symm, Or.inr ⟨action, rfl⟩⟩)
    | recovered _ env action _ => exact Or.inr (Or.inl ⟨⟨env, action⟩, rfl⟩)
    | retired _ hunused =>
      rcases hunused with hs | hs <;> exact nomatch hstate.symm.trans hs
    | purged _ _ _ hdeleting => exact nomatch hstate.symm.trans hdeleting
  · rcases ha with rfl | rfl
    · exact Process.stale (Or.inl rfl) hdead
    · exact Process.stale (Or.inr rfl) hdead
  · have hmove := hmoves id
    rw [hr] at hmove
    generalize ho' : (p.step enc a).journal.uploads.get? id = o' at hmove
    cases hmove with
    | used r' _ h =>
      have hsame := h.eq (fun hs => nomatch hstate.symm.trans hs)
        fun hs => nomatch hstate.symm.trans hs
      exact Or.inl (congrArg some hsame)
    | claimed _ _ _ _ _ _ hreserved => exact nomatch hstate.symm.trans hreserved
    | completed _ _ _ _ live => exact nomatch hstate.symm.trans (Uploads.leased_id live).2.2.2
    | released _ _ _ _ live => exact nomatch hstate.symm.trans (Uploads.leased_id live).2.2.2
    | recovered _ _ _ hreceiving => exact nomatch hstate.symm.trans hreceiving
    | retired _ hunused =>
      rcases hunused with hs | hs <;> exact nomatch hstate.symm.trans hs
    | purged _ env action _ => exact Or.inr ⟨⟨env, action⟩, rfl⟩
  · have hmove := hmoves id
    rw [hr, hnone] at hmove
    cases hmove with
    | purged _ env action hdeleting => exact ⟨hdeleting, env, action⟩

/-- A completed upload stays ready, pinned or retired while its row is there. -/
def Uploaded (id : Bytes) (p : Process) : Prop :=
  ∃ r, p.journal.uploads.get? id = some r ∧
    (r.state = .ready ∨ r.state = .pinned ∨ r.state = .deleting)

theorem Uploaded.step (hv : p.Valid) {id : Bytes} (h : Uploaded id p) (a : Action) :
    Uploaded id (p.step enc a) ∨ (p.step enc a).journal.uploads.get? id = none := by
  obtain ⟨r, hr, hstate⟩ := h
  have hmove := hv.step_moves enc a id
  unfold Uploaded
  rw [hr] at hmove
  generalize (p.step enc a).journal.uploads.get? id = o' at hmove
  cases hmove with
  | used _ r' h =>
    refine Or.inl ⟨r', rfl, ?_⟩
    rcases h with hsame | ⟨-, hafter, -⟩
    · rw [hsame]
      exact hstate
    · exact Or.inr hafter
  | claimed _ _ _ _ _ _ hreserved => simp [hreserved] at hstate
  | completed => exact Or.inl ⟨_, rfl, Or.inl rfl⟩
  | released _ _ _ _ live => simp [(Uploads.leased_id live).2.2.2] at hstate
  | recovered _ _ _ hreceiving => simp [hreceiving] at hstate
  | retired => exact Or.inl ⟨_, rfl, Or.inr (Or.inr rfl)⟩
  | purged => exact Or.inr rfl

end Steps

section Runs

variable {enc : Encoding} {p : Process} {leases : List Uploads.Lease}

theorem run_leased (hv : p.Valid) (h : Leased p leases) (actions : List Action) :
    Leased ((leasing enc).run p actions) (leases ++ (leasing enc).emitted p actions) :=
  ((leasing enc).run_emitted_invariant (I := fun q leases => q.Valid ∧ Leased q leases)
    (fun _ _ a hq => ⟨(hq.1.step a).1, hq.2.step hq.1 a⟩) p leases actions ⟨hv, h⟩).2

theorem run_dead (hv : p.Valid) (h : Leased p leases) {lease : Uploads.Lease}
    (hlease : lease ∈ leases) (hdead : ¬lease.Live p.journal) (actions : List Action) :
    ¬lease.Live ((leasing enc).run p actions).journal :=
  ((leasing enc).run_emitted_invariant
    (I := fun q leases => q.Valid ∧ Leased q leases ∧ lease ∈ leases ∧ ¬lease.Live q.journal)
    (fun _ _ a hq => ⟨(hq.1.step a).1, hq.2.1.step hq.1 a, List.mem_append_left _ hq.2.2.1,
      hq.2.1.dead hq.1 hq.2.2.1 hq.2.2.2 a⟩)
    p leases actions ⟨hv, h, hlease, hdead⟩).2.2.2

theorem run_uploaded (hv : p.Valid) {id : Bytes} (h : Uploaded id p) (actions : List Action)
    (hend : ¬Uploaded id ((relay enc).run p actions)) : ∃ earlier later,
    actions = earlier ++ later ∧ ((relay enc).run p earlier).journal.uploads.get? id = none := by
  apply (relay enc).established (I := Process.Valid) (P := fun q => ¬Uploaded id q)
    (Q := fun q => q.journal.uploads.get? id = none) (fun _ a hq => (hq.step a).1) ?_ p actions hv
    (not_not.mpr h) hend
  intro q a hq hlost
  by_cases hbefore : Uploaded id q
  · exact Or.inr ((hbefore.step hq a).resolve_left hlost)
  · exact Or.inl hbefore

end Runs

/-- In every run: every step respects the leases; a live lease is the latest one
of its upload; a lease that died stays dead; and an upload that was ready or
pinned is reserved or receiving again only after its row was purged. -/
theorem leases_safe (enc : Encoding) {p : Process} {earlier : List Uploads.Lease}
    (initial : p.Initial) (leased : Leased p earlier) (actions : List Action) :
    let run := (relay enc).run p
    let handed := fun past => earlier ++ (leasing enc).emitted p past
    (∀ before a after, actions = before ++ a :: after →
      LeaseStep (handed before) a (run before).journal (run (before ++ [a])).journal) ∧
    (∀ lease, lease.Live (run actions).journal →
      ∃ last, lastLease (handed actions) lease.file.id = some last ∧ last.token = lease.token ∧
        (lease ∈ handed actions → lease = last)) ∧
    ∀ before after, actions = before ++ after →
      (∀ lease ∈ handed before, ¬lease.Live (run before).journal →
        ¬lease.Live (run actions).journal) ∧
      ∀ id r, (run before).journal.uploads.get? id = some r → r.state = .ready ∨ r.state = .pinned →
        ∀ r', (run actions).journal.uploads.get? id = some r' →
          r'.state = .reserved ∨ r'.state = .receiving →
          ∃ middle rest, after = middle ++ rest ∧
            (run (before ++ middle)).journal.uploads.get? id = none := by
  intro run handed
  have hrun (past : List Action) : Leased (run past) (handed past) :=
    run_leased initial.valid leased past
  have hvalid (past : List Action) : (run past).Valid := run_valid initial.valid past
  refine ⟨fun before a after _ => ?_, fun lease hlive => (hrun actions).live hlive,
    fun before after hsplit => ⟨fun lease hlease hdead => ?_, fun id r hr hstate r' hr' hstate' => ?_⟩⟩
  · simp only [run, Machine.run_append]
    exact (hrun before).leaseStep (hvalid before) a
  · rw [hsplit]
    simp only [run, Machine.run_append]
    exact run_dead (hvalid before) (hrun before) hlease hdead after
  · have huploaded : Uploaded id (run before) :=
      ⟨r, hr, hstate.imp_right Or.inl⟩
    have hend : ¬Uploaded id ((relay enc).run (run before) after) := by
      rintro ⟨r'', hr'', hstate''⟩
      rw [← Machine.run_append, ← hsplit] at hr''
      have hsame : r'' = r' := Option.some.inj (hr''.symm.trans hr')
      rw [hsame] at hstate''
      rcases hstate' with hs | hs <;> simp [hs] at hstate''
    obtain ⟨middle, rest, hafter, hnone⟩ := run_uploaded (hvalid before) huploaded after hend
    refine ⟨middle, rest, hafter, ?_⟩
    simp only [run, Machine.run_append]
    exact hnone

/-- The lease of the photo is live once it is claimed, and is the latest of its upload. -/
theorem leases_safe_photo :
    let claiming := Sample.sendPhoto.take 3
    Sample.lease.Live ((relay Sample.encoding).run (.new Sample.epoch) claiming).journal ∧
      lastLease ((leasing Sample.encoding).emitted (.new Sample.epoch) claiming) Sample.file.id =
        some Sample.lease := by
  intro claiming
  have hrow : (((relay Sample.encoding).run (.new Sample.epoch) claiming).journal.uploads.get?
      Sample.file.id).any (Uploads.leased Sample.lease Sample.file.id) = true := by decide +kernel
  obtain ⟨r, hr, hleased⟩ := (Option.any_eq_true _ _).mp hrow
  have hhanded : Sample.lease ∈
      (leasing Sample.encoding).emitted (.new Sample.epoch) claiming := by decide +kernel
  have hlive : Sample.lease.Live
      ((relay Sample.encoding).run (.new Sample.epoch) claiming).journal := ⟨r, hr, hleased⟩
  obtain ⟨last, hlast, -, hlatest⟩ := (leases_safe Sample.encoding
    (Process.new_initial Sample.epoch) (leased_new Sample.epoch) claiming).2.1 _ hlive
  exact ⟨hlive, hlast.trans (congrArg some (hlatest hhanded).symm)⟩

end Zimbr.Relay
