import Zimbr.Relay.Ledger

set_option autoImplicit false

/-!
# What each critical section commits
-/
namespace Zimbr.Relay
open Library

def Section.scope (s : Section) (fresh : List Bytes) : Scope where
  fresh := if s.resets then fresh else []
  ledger := s.ledger
  reconciles := s.reconciles

variable {scope : Scope} {c c' : Conn Journal Bytes} {now : Int} {u : Unit}

theorem Kept.changed {j j' : Journal} (h : Kept j j') : Changed { ledger := true } j j' :=
  (Change.ledger rfl h).single

theorem ingest_ok {enc : Encoding} {resets : Bool} {first parts last : List IngestOp}
    {imports : Bytes → List IngestOp} (hk : Keyed c.db)
    (h : (ingest enc now resets first parts imports last).run c = (.ok u, c')) :
    Stepped { fresh := if resets then c.fresh else [], reconciles := true } c.db c'.db := by
  obtain ⟨c₁, c₂, hdb₁, hfresh₁, h, hend⟩ := Sql.transaction_ok h
  rw [hend, ← hdb₁]
  rw [← hdb₁] at hk
  have hrest {d : Conn Journal Bytes} (hk : Keyed d.db) (h : (do
      Sql.each (perform enc now) first
      reconcile enc now parts imports
      Sql.each (perform enc now) last : Tx Unit).run d = (.ok u, c₂)) :
      Changed { reconciles := true } d.db c₂.db := by
    obtain ⟨_, d₁, hfirst, h⟩ := Sql.bind_ok h
    obtain ⟨_, d₂, hreconcile, hlast⟩ := Sql.bind_ok h
    have hd₁ : Changed { reconciles := true } d.db d₁.db := (performAll_ok hfirst).changed
    have hd₂ := hd₁.trans (reconcile_ok rfl (hd₁.keyed hk) hreconcile)
    exact hd₂.trans (performAll_ok hlast).changed
  dsimp only at h
  split_ifs at h with hresets
  · obtain ⟨_, c₃, hreset, h⟩ := Sql.bind_ok h
    obtain ⟨epoch, hepoch, hreset⟩ := reset_ok hk hreset
    have hchange : Change { fresh := c₁.fresh } c₁.db c₃.db := .reset epoch hepoch hreset
    have hk₃ := hchange.keyed hk
    refine Or.inr ⟨epoch, ?_, c₃.db, hreset, hrest hk₃ h⟩
    rw [if_pos hresets, ← hfresh₁]
    exact hepoch
  · exact Or.inl (hrest hk h)

/-- What a successful `POST /v1/messages` found or wrote. -/
theorem accepting_ok {input : SendInput} {ready : Bool} {owner : Bytes} {a : Accepted}
    (h : (Section.accepting now input ready owner).run c = (.ok a, c')) :
    validate input = .ok () ∧ input.serverEpoch = c.db.epoch ∧
    ((a.fresh = true ∧ ready = true ∧
        AcceptedAs c.db input (if input.attachments = [] then none else some owner) a.record c'.db) ∨
      (c'.db = c.db ∧ ∃ row, c.db.sendRequests.get? input.requestId = some row ∧
        row.payload = input ∧ a = { record := row.record, fresh := false } ∧
        (input.attachments ≠ [] → c.db.sendOwners.get? input.requestId = some owner))) := by
  unfold Section.accepting at h
  split_ifs at h with hfiles
  · obtain ⟨_, c₁, hrequire, h⟩ := Sql.bind_ok h
    rw [(Sql.require_ok hrequire).2] at h
    obtain ⟨hvalid, hepoch, hcase⟩ := acceptImpl_ok h
    refine ⟨hvalid, hepoch, hcase.imp (fun h => ?_) fun ⟨hdb, row, hrow, hpayload, ha, howner⟩ =>
      ⟨hdb, row, hrow, hpayload, ha, fun hne => absurd hfiles hne⟩⟩
    rw [if_pos hfiles]
    exact h
  · obtain ⟨hvalid, hepoch, hcase⟩ := acceptImpl_ok h
    refine ⟨hvalid, hepoch, hcase.imp (fun h => ?_) id⟩
    rw [if_neg hfiles]
    exact h

/-- What a section that succeeds commits, and the request it inserted. -/
theorem section_ok {enc : Encoding} {s : Section} {inserted : Option Bytes} (hk : Keyed c.db)
    (h : (s.tx enc now).run c = (.ok inserted, c')) :
    Stepped (s.scope c.fresh) c.db c'.db ∧ ∀ id, inserted = some id →
      c.db.sendRequests.get? id = none ∧ (c'.db.sendRequests.get? id).isSome = true := by
  have hquiet {j' : Journal} {scope : Scope} (hj : Stepped scope c.db j')
      (hc' : c'.db = j') (hinserted : inserted = none) :
      Stepped scope c.db c'.db ∧ ∀ id, inserted = some id →
      c.db.sendRequests.get? id = none ∧ (c'.db.sendRequests.get? id).isSome = true := by
    rw [hc', hinserted]
    exact ⟨hj, fun id hid => nomatch hid⟩
  cases s with
  | post input ready owner =>
    obtain ⟨a, c₁, haccept, h⟩ := Sql.bind_ok h
    obtain ⟨hinserted, hc'⟩ := Sql.pure_ok h
    rw [hc']
    obtain ⟨-, -, hcase⟩ := accepting_ok haccept
    rcases hcase with ⟨hfresh, -, haccepted⟩ | ⟨hdb, row, -, -, ha, -⟩
    · refine ⟨.plain (Change.accepted input _ _ haccepted).single, fun id hid => ?_⟩
      rw [hinserted, if_pos hfresh, Option.some.injEq] at hid
      obtain ⟨route, at_, hrows⟩ := haccepted.rows
      rw [← hid]
      exact ⟨haccepted.absent, by rw [hrows, if_pos rfl]; rfl⟩
    · refine ⟨?_, fun id hid => ?_⟩
      · rw [hdb]
        exact Stepped.refl _
      · rw [hinserted, ha] at hid
        exact nomatch hid
  | ingest resets first parts imports last =>
    obtain ⟨_, c₁, hrun, h⟩ := Sql.bind_ok h
    obtain ⟨hinserted, hc'⟩ := Sql.pure_ok h
    exact hquiet (ingest_ok hk hrun) (congrArg Conn.db hc') hinserted
  | write ops =>
    obtain ⟨_, c₁, hrun, h⟩ := Sql.bind_ok h
    obtain ⟨hinserted, hc'⟩ := Sql.pure_ok h
    obtain ⟨c₂, c₃, hdb₂, -, hrun, hend⟩ := Sql.transaction_ok hrun
    refine hquiet ?_ (congrArg Conn.db hc') hinserted
    rw [hend, ← hdb₂]
    exact .plain (performAll_ok hrun).changed
  | prune countLimit =>
    obtain ⟨_, c₁, hrun, h⟩ := Sql.bind_ok h
    obtain ⟨hinserted, hc'⟩ := Sql.pure_ok h
    exact hquiet (.plain (prune_ok hrun)) (congrArg Conn.db hc') hinserted
  | reserve owner epoch file =>
    obtain ⟨_, c₁, hrun, h⟩ := Sql.bind_ok h
    obtain ⟨hinserted, hc'⟩ := Sql.pure_ok h
    exact hquiet (Or.inl (Uploads.reserve_kept hrun).changed) (congrArg Conn.db hc') hinserted
  | claim owner epoch id =>
    obtain ⟨_, c₁, hrun, h⟩ := Sql.bind_ok h
    obtain ⟨hinserted, hc'⟩ := Sql.pure_ok h
    exact hquiet (Or.inl (Uploads.claim_kept hrun).changed) (congrArg Conn.db hc') hinserted
  | complete lease =>
    obtain ⟨_, c₁, hrun, h⟩ := Sql.bind_ok h
    obtain ⟨hinserted, hc'⟩ := Sql.pure_ok h
    have hkept : Kept c.db c₁.db := by
      rw [(Uploads.complete_ok hrun).2.2]
      exact Uploads.leased_kept
    exact hquiet (Or.inl hkept.changed) (congrArg Conn.db hc') hinserted
  | abandon lease =>
    obtain ⟨_, c₁, hrun, h⟩ := Sql.bind_ok h
    obtain ⟨hinserted, hc'⟩ := Sql.pure_ok h
    have hkept : Kept c.db c₁.db := by
      rw [Uploads.abandon_ok hrun]
      exact Uploads.leased_kept
    exact hquiet (Or.inl hkept.changed) (congrArg Conn.db hc') hinserted
  | cancel owner epoch id =>
    obtain ⟨_, c₁, hrun, h⟩ := Sql.bind_ok h
    obtain ⟨hinserted, hc'⟩ := Sql.pure_ok h
    exact hquiet (Or.inl (Uploads.cancel_kept hrun).changed) (congrArg Conn.db hc') hinserted
  | expire =>
    obtain ⟨_, c₁, hrun, h⟩ := Sql.bind_ok h
    obtain ⟨hinserted, hc'⟩ := Sql.pure_ok h
    exact hquiet (Or.inl (Uploads.expire_kept hrun).changed) (congrArg Conn.db hc') hinserted
  | purge id =>
    obtain ⟨_, c₁, hrun, h⟩ := Sql.bind_ok h
    obtain ⟨hinserted, hc'⟩ := Sql.pure_ok h
    exact hquiet (Or.inl (Uploads.purge_kept hrun).changed) (congrArg Conn.db hc') hinserted

section Errors

theorem acceptImpl_aborts (input : SendInput) (ready : Bool) (owner : Option Bytes) :
    Sql.Aborts (acceptImpl now input ready owner) :=
  .bind .lift fun _ => .transaction

theorem accepting_aborts (input : SendInput) (ready : Bool) (owner : Bytes) :
    Sql.Aborts (Section.accepting now input ready owner) := by
  unfold Section.accepting
  split_ifs
  · exact .bind .require fun _ => acceptImpl_aborts input ready none
  · exact acceptImpl_aborts input ready (some owner)

theorem section_aborts {enc : Encoding} (s : Section) : Sql.Aborts (s.tx enc now) := by
  cases s with
  | post input ready owner => exact .map (accepting_aborts input ready owner)
  | ingest resets first parts imports last => exact .map .transaction
  | write ops => exact .map .transaction
  | prune countLimit => exact .map .transaction
  | reserve owner epoch file => exact .map (.bind .lift fun _ => .transaction)
  | claim owner epoch id => exact .map .transaction
  | complete lease => exact .map (Uploads.complete_aborts lease)
  | abandon lease => exact .map (Uploads.abandon_aborts lease)
  | cancel owner epoch id => exact .map .transaction
  | expire => exact .map Uploads.expire_aborts
  | purge id => exact .map (Uploads.purge_aborts id)

end Errors

section Workers

theorem commitResult_aborts (work : Work) (outcome : Sends.Outcome) (result : Automation) :
    Sql.Aborts (commitResult now work outcome result) := by
  apply Sql.Aborts.bind .query
  intro epoch
  split_ifs
  · exact Sql.Reads.pure.aborts
  · split
    · apply Sql.Aborts.bind .query
      intro row
      apply Sql.Aborts.bind .orThrow
      intro row
      apply Sql.Aborts.bind .orThrow
      intro v
      exact .transaction
    · exact .transaction

theorem publish_aborts (readReady : Bool) (work : Observation.Work)
    (candidate : Option Observation.Candidate) :
    Sql.Aborts (Observation.publish now readReady work candidate) := by
  apply Sql.Aborts.bind .query
  intro epoch
  apply Sql.Aborts.bind (progress_reads "identity")
  intro identity
  split_ifs
  · exact Sql.Reads.pure.aborts
  · apply Sql.Aborts.bind .query
    intro row
    apply Sql.Aborts.bind .orThrow
    intro row
    apply Sql.Aborts.bind .orThrow
    intro part
    apply Sql.Aborts.bind .query
    intro mid
    apply Sql.Aborts.bind .orThrow
    intro change
    split
    · exact Sql.Reads.pure.aborts
    · exact .transaction

theorem rejectQueued_aborts (v : SendRequest) (code : String) :
    Sql.Aborts (rejectQueued now v code) :=
  .bind .orThrow fun _ => .transaction

theorem prepareSend_aborts (gate : Bool) (source : Option Source) :
    Sql.Aborts (prepareSend now gate source) := by
  unfold prepareSend
  split_ifs
  · exact Sql.Reads.pure.aborts
  · apply Sql.Aborts.bind .query
    intro head
    split
    · exact Sql.Reads.pure.aborts
    · apply Sql.Aborts.bind .query
      intro epoch
      apply Sql.Aborts.bind .require
      intro _
      apply Sql.Aborts.bind .query
      intro route
      apply Sql.Aborts.bind .orThrow
      intro route
      split
      · exact .map (rejectQueued_aborts _ _)
      · apply Sql.Aborts.bind .orThrow
        intro source
        apply Sql.Aborts.bind (revalidate_reads source)
        intro _
        split
        · exact .map (rejectQueued_aborts _ _)
        · exact Sql.Reads.throw.aborts
        · exact .map .transaction

theorem holds_row {j : Journal} (hk : Keyed j) {id : Bytes} {row : SendRequestRow}
    (hrow : j.sendRequests.get? id = some row) : Holds j row.record :=
  ⟨row, by rw [(hk id row hrow).requestId, hrow], rfl⟩

theorem prepareObservation_ok {gate : Bool} {work : Option Observation.Work} (hk : Keyed c.db)
    (h : (Observation.prepare now gate).run c = (.ok work, c')) :
    Changed scope c.db c'.db ∧ ∀ w, work = some w → Holds c'.db w.request := by
  have hnothing {d : Conn Journal Bytes} (hd : d.db = c.db)
      (h : (return none : Tx (Option Observation.Work)).run d = (.ok work, c')) :
      Changed scope c.db c'.db ∧ ∀ w, work = some w → Holds c'.db w.request := by
    obtain ⟨hwork, hc'⟩ := Sql.pure_ok h
    rw [hc', hwork, hd]
    exact ⟨Changed.refl _, fun _ hw => nomatch hw⟩
  unfold Observation.prepare at h
  split_ifs at h
  · exact hnothing rfl h
  · obtain ⟨item, c₁, hitem, h⟩ := Sql.bind_ok h
    have hdb₁ := (Sql.query_ok hitem).2
    split at h
    · exact hnothing hdb₁ h
    · next item =>
      obtain ⟨identity, c₂, hidentity, h⟩ := Sql.bind_ok h
      have hdb₂ : c₂.db = c.db := ((progress_reads "identity").ok hidentity).trans hdb₁
      split at h
      · exact hnothing hdb₂ h
      · next identity =>
        obtain ⟨found, c₃, hfound, h⟩ := Sql.bind_ok h
        obtain ⟨hfound, hdb₃⟩ := Sql.query_ok hfound
        obtain ⟨w, c₄, hw, h⟩ := Sql.bind_ok h
        obtain ⟨hw, hc₄⟩ := Sql.orThrow_ok hw
        obtain ⟨part, c₅, hpart, h⟩ := Sql.bind_ok h
        obtain ⟨-, hc₅⟩ := Sql.orThrow_ok hpart
        obtain ⟨_, c₆, hset, h⟩ := Sql.bind_ok h
        obtain ⟨hwork, hc'⟩ := Sql.pure_ok h
        have hdb₅ : c₅.db = c.db := by rw [hc₅, hc₄, hdb₃, hdb₂]
        rw [hfound, Observation.workFor] at hw
        simp only [Option.bind_eq_bind, Option.bind_eq_some_iff, Option.some.injEq] at hw
        obtain ⟨row, hrow, time, -, floor, -, mode, -, route, -, hw⟩ := hw
        rw [hdb₂] at hrow
        have hholds := holds_row hk hrow
        rw [hc', Sql.execute_ok hset, hdb₅]
        refine ⟨?_, fun w' hw' => ?_⟩
        · apply Change.single
          refine .quiet ⟨rfl, fun _ => rfl, fun _ => rfl, fun _ row hrow hdispatched =>
            Or.inr ⟨row, hrow, hdispatched⟩, rfl, .of_eq rfl⟩
            ⟨rfl, rfl, rfl, rfl, rfl, rfl, fun k => ?_⟩
          obtain ⟨kind, id⟩ := k
          cases kind <;> rfl
        · rw [hwork, Option.some.injEq] at hw'
          rw [← hw', ← hw]
          exact hholds

theorem prepareObservation_aborts (gate : Bool) : Sql.Aborts (Observation.prepare now gate) := by
  unfold Observation.prepare
  split_ifs
  · exact Sql.Reads.pure.aborts
  · apply Sql.Aborts.bind .query
    intro item
    split
    · exact Sql.Reads.pure.aborts
    · apply Sql.Aborts.bind (progress_reads "identity")
      intro identity
      split
      · exact Sql.Reads.pure.aborts
      · apply Sql.Aborts.bind .query
        intro found
        apply Sql.Aborts.bind .orThrow
        intro work
        apply Sql.Aborts.bind .orThrow
        intro part
        exact .map .execute

theorem postReset_ok {expected : Bytes} {answer : Snapshot} (hk : Keyed c.db)
    (h : (postReset now expected).run c = (.ok answer, c')) :
    (answer.serverEpoch = c'.db.epoch ∧ answer.cursor = cursor c'.db.epoch c'.db.sequence) ∧
    ((answer.fresh = false ∧ expected ≠ c.db.epoch ∧ c'.db = c.db) ∨
      (answer.fresh = true ∧ expected = c.db.epoch ∧
        ∃ epoch ∈ c.fresh, ResetTo epoch c.db c'.db)) := by
  obtain ⟨_, c₀, hnamed, h⟩ := Sql.bind_ok h
  rw [(Sql.require_ok hnamed).2] at h
  obtain ⟨current, c₁, hcurrent, h⟩ := Sql.bind_ok h
  obtain ⟨hcurrent', hdb₁⟩ := Sql.query_ok hcurrent
  have hfresh₁ : c₁.fresh = c.fresh := statement_fresh hcurrent
  rw [← hdb₁] at hk hcurrent' ⊢
  split_ifs at h with hexpected
  · obtain ⟨c₂, c₃, hdb₂, hfresh₂, h, hend⟩ := Sql.transaction_ok h
    obtain ⟨_, c₄, hreset, h⟩ := Sql.bind_ok h
    obtain ⟨epoch, c₅, hepoch, h⟩ := Sql.bind_ok h
    obtain ⟨sequence, c₆, hsequence, h⟩ := Sql.bind_ok h
    obtain ⟨hepoch, hdb₅⟩ := Sql.query_ok hepoch
    obtain ⟨hsequence, hdb₆⟩ := Sql.query_ok hsequence
    obtain ⟨hanswer, hc₃⟩ := Sql.pure_ok h
    have hdb : c'.db = c₄.db := by rw [hend, hc₃, hdb₆, hdb₅]
    obtain ⟨id, hid, hreset⟩ := reset_ok (hdb₂ ▸ hk) hreset
    rw [hdb, hanswer, hepoch, hsequence, hdb₅]
    refine ⟨⟨rfl, rfl⟩, Or.inr ⟨rfl, hexpected.trans hcurrent', id, ?_, ?_⟩⟩
    · rw [← hfresh₁, ← hfresh₂]
      exact hid
    · rw [← hdb₂]
      exact hreset
  · obtain ⟨_, c₂, hrequire, h⟩ := Sql.bind_ok h
    rw [(Sql.require_ok hrequire).2] at h
    obtain ⟨sequence, c₃, hsequence, h⟩ := Sql.bind_ok h
    obtain ⟨hsequence, hdb₃⟩ := Sql.query_ok hsequence
    obtain ⟨hanswer, hc'⟩ := Sql.pure_ok h
    rw [hc', hdb₃, hanswer, hsequence, hcurrent']
    exact ⟨⟨rfl, rfl⟩, Or.inl ⟨rfl, fun he => hexpected (he.trans hcurrent'.symm), rfl⟩⟩

theorem postReset_aborts (expected : Bytes) : Sql.Aborts (postReset now expected) := by
  refine .bind .require fun _ => .bind .query fun current => ?_
  split_ifs
  · exact .transaction
  · exact .bind .require fun _ => .map Sql.Reads.query.aborts

/-- Startup recovers the interrupted dispatches of a compatible journal. -/
theorem startup_ok {required : Bool} (hrecovers : scope.recovers = true) (hk : Keyed c.db)
    (h : (startup now).run c = (.ok required, c')) : Changed scope c.db c'.db := by
  obtain ⟨epoch, c₁, hepoch, h⟩ := Sql.bind_ok h
  rw [← (Sql.query_ok hepoch).2] at hk ⊢
  split_ifs at h
  · obtain ⟨_, c₂, hrecover, h⟩ := Sql.bind_ok h
    rw [(Sql.pure_ok h).2]
    exact recover_ok hrecovers hk hrecover
  · rw [(Sql.pure_ok h).2]
    exact Changed.refl _

theorem startup_aborts : Sql.Aborts (startup now) := by
  apply Sql.Aborts.bind .query
  intro epoch
  split_ifs
  · exact .map .transaction
  · exact Sql.Reads.pure.aborts

end Workers

end Zimbr.Relay
