import Zimbr.Relay.Sections

set_option autoImplicit false

/-!
# Runs of the relay

Every step of the process is a sequence of journal changes, and what a worker
holds stays behind the stored record it came from.
-/
namespace Zimbr.Relay
open Library

/-- Requests and owners outlive every change, and records go on from one another. -/
structure Evolves (j j' : Journal) : Prop where
  rows : ∀ id row, j.sendRequests.get? id = some row →
    ∃ row', j'.sendRequests.get? id = some row' ∧ row'.epoch = row.epoch ∧
      row'.payload = row.payload ∧ Follows row.record row'.record
  owners : ∀ id owner, j.sendOwners.get? id = some owner → j'.sendOwners.get? id = some owner

theorem Evolves.refl (j : Journal) : Evolves j j where
  rows _ row h := ⟨row, h, rfl, rfl, Follows.refl _⟩
  owners _ _ h := h

theorem Evolves.trans {j₁ j₂ j₃ : Journal} (h : Evolves j₁ j₂) (h' : Evolves j₂ j₃) :
    Evolves j₁ j₃ where
  rows id row hrow := by
    obtain ⟨row', hrow', hepoch', hpayload', hfollows'⟩ := h.rows id row hrow
    obtain ⟨row'', hrow'', hepoch'', hpayload'', hfollows''⟩ := h'.rows id row' hrow'
    exact ⟨row'', hrow'', hepoch''.trans hepoch', hpayload''.trans hpayload',
      hfollows'.trans hfollows''⟩
  owners id owner howner := h'.owners id owner (h.owners id owner howner)

section Changes

variable {scope : Scope} {j j' : Journal}

theorem Quiet.evolves (h : Quiet j j') : Evolves j j' where
  rows id row hrow := by
    obtain ⟨row', hrow', hcore⟩ := h.after hrow
    simp only [SendRequestRow.core, Prod.mk.injEq] at hcore
    obtain ⟨hepoch, hpayload, hrecord, -, -⟩ := hcore
    exact ⟨row', hrow', hepoch, hpayload, hrecord ▸ Follows.refl _⟩
  owners id owner howner := by
    rw [h.owners]
    exact howner

theorem Change.evolves (h : Change scope j j') : Evolves j j' := by
  cases h with
  | quiet h _ => exact h.evolves
  | published r _ h _ => exact h.evolves
  | request v row found follows _ _ updated =>
    refine ⟨fun id row' hrow' => ?_, fun id owner howner => ?_⟩
    · rw [updated.get?]
      split_ifs with hid
      · subst hid
        rw [found, Option.some.injEq] at hrow'
        rw [found, ← hrow']
        exact ⟨writeRow v row, rfl, rfl, rfl, follows⟩
      · exact ⟨row', hrow', rfl, rfl, Follows.refl _⟩
    · rw [updated.sendOwners]
      exact howner
  | accepted input owner v h =>
    refine ⟨fun id row hrow => ?_, fun id owner' howner => ?_⟩
    · obtain ⟨route, now, hrows⟩ := h.rows
      have hne : id ≠ input.requestId := by
        rintro rfl
        rw [h.absent] at hrow
        cases hrow
      rw [hrows, if_neg hne]
      exact ⟨row, hrow, rfl, rfl, Follows.refl _⟩
    · rw [h.owners, if_neg]
      · exact howner
      · rintro ⟨rfl, hfiles⟩
        rw [h.unowned hfiles] at howner
        cases howner
  | pruned cut h =>
    rw [h.effect]
    exact ⟨fun _ row hrow => ⟨row, hrow, rfl, rfl, Follows.refl _⟩, fun _ _ howner => howner⟩
  | ledger _ h =>
    obtain ⟨uploads, rfl⟩ := h.only
    exact ⟨fun _ row hrow => ⟨row, hrow, rfl, rfl, Follows.refl _⟩, fun _ _ howner => howner⟩
  | reset epoch _ h =>
    refine ⟨fun id row hrow => ?_, fun id owner howner => by rw [h.owners]; exact howner⟩
    cases h.requests id with
    | absent before _ _ =>
      rw [before] at hrow
      cases hrow
    | settled row' before _ after _ =>
      rw [before] at hrow
      exact ⟨row', after, by rw [Option.some.inj hrow], by rw [Option.some.inj hrow],
        by rw [Option.some.inj hrow]; exact Follows.refl _⟩
    | written row' v revision before _ _ held after _ =>
      rw [before, Option.some.injEq] at hrow
      rw [← hrow]
      exact ⟨_, after, rfl, rfl, (heldRequest_follows held).1.revision revision⟩
    | legacy row' v before _ _ held after _ =>
      rw [before, Option.some.injEq] at hrow
      rw [← hrow]
      exact ⟨_, after, rfl, rfl, (heldRequest_follows held).1⟩

theorem Changed.evolves (h : Changed scope j j') : Evolves j j' := by
  induction h with
  | refl => exact Evolves.refl j
  | tail _ h ih => exact ih.trans h.evolves

theorem Tracks.evolves {v : SendRequest} (h : Tracks j v) (he : Evolves j j') : Tracks j' v := by
  obtain ⟨row, hrow, hfollows⟩ := h
  obtain ⟨row', hrow', -, -, hfollows'⟩ := he.rows _ row hrow
  exact ⟨row', hrow', hfollows.trans hfollows'⟩

end Changes

def Projected (j : Journal) (id : Bytes) (row : SendRequestRow) : Prop :=
  ∀ n : Nat, (j.sendParts.get? (id, n)).map SendPartRow.core =
    (row.record.parts[n]?).map fun part => (part.state, part.messageId)

/-- A journal as a relay of any version left it: each request row, with its
columns and its part rows, shows one record; only requests of the current epoch
are pending; and the retained events follow the log. -/
structure Inherited (j : Journal) : Prop where
  keyed : Keyed j
  projected : ∀ id row, j.sendRequests.get? id = some row → Projected j id row
  referenced : ∀ id n, j.sendRequests.get? id = none → j.sendParts.get? (id, n) = none
  current : ∀ id row, j.sendRequests.get? id = some row → Live row.state → row.epoch = j.epoch
  logged : Logged j
  recorded : ∀ id row, j.sendRequests.get? id = some row → latestRequest j id = none →
    (id, row.record) ∈ j.held

theorem inherited_new (epoch : Bytes) : Inherited { epoch := epoch } where
  keyed id row h := nomatch h
  projected id row h := nomatch h
  referenced id n _ := rfl
  current id row h := nomatch h
  logged := by
    refine ⟨rfl, Nat.zero_le _, Nat.le_refl _, fun e he => absurd he List.not_mem_nil, ?_,
      fun e he => absurd he List.not_mem_nil, fun k e he => (nomatch he), ?_⟩
    · intro seq row hrow
      exact nomatch hrow
    · rintro ⟨kind, id⟩ r hr -
      cases kind with
      | request => rfl
      | conversation => exact nomatch hr
      | message => exact nomatch hr
      | identity => exact nomatch hr
  recorded id row h := nomatch h

/-- A work item the sender may run: its request or part is marked dispatching. -/
structure Engaged (j : Journal) (work : Work) : Prop where
  tracks : Tracks j work.v
  text : work.part = none → work.v.parts = [] ∧ work.v.state = .dispatching
  part : ∀ i, work.part = some i → ∃ p, work.v.parts[i]? = some p ∧ p.state = .dispatching

theorem Engaged.evolves {j j' : Journal} {work : Work} (h : Engaged j work) (he : Evolves j j') :
    Engaged j' work :=
  ⟨h.tracks.evolves he, h.text, h.part⟩

theorem Dispatched.engaged {j j' : Journal} {work : Work} (h : Dispatched j work j') :
    Engaged j' work := by
  obtain ⟨row, -, -, -, hdispatching⟩ := h.before
  obtain ⟨row', n, hrow', hrecord⟩ := h.after
  obtain ⟨htext, hpart⟩ := dispatching_marks hdispatching
  refine ⟨⟨row', hrow', ?_⟩, htext, fun i hi => ?_⟩
  · rw [hrecord]
    exact (Follows.refl _).revision n
  · obtain ⟨hnext, hparts⟩ := hpart i hi
    obtain ⟨p, hp, -, -⟩ := Sends.next_spec hnext
    exact ⟨{ p with state := .dispatching }, by rw [hparts, Sends.getElem?_modify_ite, hp]; simp, rfl⟩

def Sender.work : Sender → Option Work
  | .prepared work => some work
  | .automated work _ _ => some work
  | .idle | .recovering => none

namespace Process

structure Valid (p : Process) : Prop where
  keyed : Keyed p.journal
  sender : ∀ work, p.sender.work = some work → Engaged p.journal work
  observer : ∀ work, p.observer = some work → Tracks p.journal work.request

/-- A relay that is not running, over the journal an earlier run left. The
identifiers in its journal were issued before. -/
structure Initial (p : Process) : Prop where
  inherited : Inherited p.journal
  stopped : p.running = false
  idle : p.sender = .idle
  unobserved : p.observer = none
  issued : p.journal.epoch ∈ p.issued
  issuedRows : ∀ id row, p.journal.sendRequests.get? id = some row → row.epoch ∈ p.issued

def new (epoch : Bytes) : Process where
  journal := { epoch := epoch }
  issued := [epoch]

theorem new_initial (epoch : Bytes) : (new epoch).Initial where
  inherited := inherited_new epoch
  stopped := rfl
  idle := rfl
  unobserved := rfl
  issued := List.mem_singleton_self epoch
  issuedRows _ _ h := nomatch h

theorem Initial.valid {p : Process} (h : p.Initial) : p.Valid where
  keyed := h.inherited.keyed
  sender work hw := by
    rw [h.idle] at hw
    exact nomatch hw
  observer work hw := by
    rw [h.unobserved] at hw
    exact nomatch hw

end Process

def Action.fresh : Action → List Bytes
  | .launch env | .critical env _ | .prepareSend env _ _ | .commitResult env | .recover env
  | .prepareObservation env _ | .publish env _ _ | .reset env _ => env.fresh
  | .crash | .invoke _ => []

/-- The action works on the upload ledger; a start recovers it. -/
def Action.ledger : Action → Bool
  | .launch _ => true
  | .critical _ s => s.ledger
  | _ => false

def Action.recovers : Action → Bool
  | .launch _ | .recover _ => true
  | _ => false

def Action.reconciles : Action → Bool
  | .critical _ s => s.reconciles
  | _ => false

def Process.sent (p : Process) : Action → Option SendRequest
  | .commitResult _ =>
    match p.sender with
    | .automated work _ _ => some work.v
    | _ => none
  | _ => none

def Process.echo (p : Process) : Action → Option (Observation.Work × Observation.Candidate)
  | .publish _ _ (some echo) => p.observer.map fun work => (work, echo)
  | _ => none

def Process.epochs (p : Process) (a : Action) : List Bytes := if p.resets a then a.fresh else []

def Process.scope (p : Process) (a : Action) : Scope where
  fresh := p.epochs a
  ledger := a.ledger
  recovers := a.recovers
  reconciles := a.reconciles
  sent := p.sent a
  echo := p.echo a

namespace Process

variable {enc : Encoding} {p : Process} {env : Env}

theorem Valid.of_stepped (h : p.Valid) {p' : Process} {scope : Scope}
    (hj : Stepped scope p.journal p'.journal)
    (hsender : ∀ work, p'.sender.work = some work →
      p.sender.work = some work ∨ Engaged p'.journal work)
    (hobserver : ∀ work, p'.observer = some work →
      p.observer = some work ∨ Tracks p'.journal work.request) :
    p'.Valid ∧ Stepped scope p.journal p'.journal := by
  refine ⟨⟨hj.changed.keyed h.keyed, fun work hw => ?_, fun work hw => ?_⟩, hj⟩
  · rcases hsender work hw with hw | hw
    · exact (h.sender work hw).evolves hj.changed.evolves
    · exact hw
  · rcases hobserver work hw with hw | hw
    · exact (h.observer work hw).evolves hj.changed.evolves
    · exact hw

theorem of_aborts {α : Type} {m : Tx α} (hm : Sql.Aborts m) {c c' : Conn Journal Bytes} {e : Error}
    (h : m.run c = (.error e, c')) : Changed {} c.db c'.db := by
  rw [hm _ _ _ h]
  exact Changed.refl _

/-- A reset request may end the wait for a reset; else it only works on the journal. -/
theorem resetBy_eq (p : Process) (env : Env) (expected : Bytes) :
    ∃ required, p.resetBy env expected = { p with
      journal := ((postReset env.now expected).run (p.conn env)).2.db
      issued := env.fresh ++ p.issued
      resetRequired := required } := by
  unfold resetBy locked
  split
  · next h => exact ⟨false, by rw [← (Prod.mk.inj h).2]⟩
  · next h => exact ⟨p.resetRequired, by rw [← (Prod.mk.inj h).2]⟩

theorem Valid.publish (h : p.Valid) {work : Observation.Work} (hobserver : p.observer = some work)
    {readReady : Bool} {candidate : Option Observation.Candidate} {c' : Conn Journal Bytes} {u : Unit}
    (hrun : (Observation.publish env.now readReady work candidate).run (p.conn env) = (.ok u, c')) :
    ∃ j, (j = p.journal ∨
        Change { p.scope (.publish env readReady candidate) with fresh := [] } p.journal j) ∧
      Changed {} j c'.db := by
  have hecho (echo : Observation.Candidate) (he : candidate = some echo) :
      p.echo (.publish env readReady candidate) = some (work, echo) := by
    rw [he]
    simp only [Process.echo, hobserver, Option.map_some]
  exact publish_ok h.keyed hecho (h.observer work hobserver) hrun

/-- One step of the process makes the changes of one step and keeps it valid. -/
theorem Valid.apply (h : p.Valid) (a : Action) :
    (p.apply enc a).Valid ∧ Stepped (p.scope a) p.journal (p.apply enc a).journal := by
  have hidle : p.Valid ∧ Stepped (p.scope a) p.journal p.journal := ⟨h, Stepped.refl _⟩
  have hk := h.keyed
  cases a with
  | crash =>
    exact h.of_stepped (.inl (Ingested.silent cache_silent.1 cache_silent.2).changed)
      (fun _ hw => nomatch hw) fun _ hw => nomatch hw
  | launch env =>
    rcases hrecover : Uploads.recover.run (p.conn env) with ⟨r, c₁⟩
    have hj₁ : Changed { ledger := true, recovers := true } p.journal c₁.db := by
      cases r with
      | error e => exact (of_aborts Uploads.recover_aborts hrecover).of_plain
      | ok u => exact (Change.ledger rfl (Uploads.recover_kept hrecover)).single
    rcases hstartup : (startup env.now).run c₁ with ⟨e | required, c₂⟩
    · have hj := hj₁.trans (of_aborts startup_aborts hstartup).of_plain
      simp only [Process.apply, opened, hrecover, hstartup]
      exact h.of_stepped (.inl hj) (fun _ hw => Or.inl hw) fun _ hw => Or.inl hw
    · have hj := hj₁.trans (startup_ok rfl (hj₁.keyed hk) hstartup)
      simp only [Process.apply, opened, hrecover, hstartup]
      exact h.of_stepped (.inl hj) (fun _ hw => Or.inl hw) fun _ hw => Or.inl hw
  | critical env s =>
    rcases hrun : (s.tx enc env.now).run (p.conn env) with ⟨e | r, c'⟩
    · have hj : Changed {} p.journal c'.db := of_aborts (section_aborts s) hrun
      simp only [Process.apply, locked, hrun]
      exact h.of_stepped (.plain hj) (fun _ hw => Or.inl hw) fun _ hw => Or.inl hw
    · have hj := (section_ok (c := p.conn env) hk hrun).1
      simp only [Process.apply, locked, hrun]
      exact h.of_stepped hj (fun _ hw => Or.inl hw) fun _ hw => Or.inl hw
  | prepareSend env gate source =>
    simp only [Process.apply]
    split
    · rcases hrun : (prepareSend env.now gate source).run (p.conn env) with ⟨e | work, c'⟩
      · simp only [prepared, locked, hrun]
        exact h.of_stepped (.plain (of_aborts (prepareSend_aborts gate source) hrun))
          (fun _ hw => nomatch hw) fun _ hw => Or.inl hw
      · obtain ⟨hj, hdispatched⟩ : Changed {} p.journal c'.db ∧
            ∀ w, work = some w → Dispatched p.journal w c'.db := prepareSend_ok hk hrun
        cases work with
        | none =>
          simp only [prepared, locked, hrun]
          exact h.of_stepped (.plain hj) (fun _ hw => Or.inl hw) fun _ hw => Or.inl hw
        | some work =>
          simp only [prepared, locked, hrun]
          refine h.of_stepped (.plain hj) (fun w hw => Or.inr ?_) fun _ hw => Or.inl hw
          rw [Sender.work, Option.some.injEq] at hw
          exact hw ▸ (hdispatched work rfl).engaged
    · exact hidle
  | invoke invocation =>
    simp only [Process.apply]
    split
    · next work hsender =>
      have hwork : p.sender.work = some work := by rw [hsender]; rfl
      cases invocation with
      | refused code =>
        exact h.of_stepped (Stepped.refl _) (fun w hw => Or.inl (hwork.trans hw)) fun _ hw => Or.inl hw
      | called result =>
        exact h.of_stepped (Stepped.refl _) (fun w hw => Or.inl (hwork.trans hw)) fun _ hw => Or.inl hw
      | lost ran =>
        exact h.of_stepped (Stepped.refl _) (fun w hw => nomatch hw) fun _ hw => Or.inl hw
    · exact hidle
  | commitResult env =>
    simp only [Process.apply]
    split
    · next work outcome result hsender =>
      have hengaged := h.sender work (by rw [hsender]; rfl)
      rcases hrun : (commitResult env.now work outcome result).run (p.conn env) with ⟨e | u, c'⟩
      · simp only [committed, locked, hrun]
        exact h.of_stepped (.plain (of_aborts (commitResult_aborts work outcome result) hrun))
          (fun _ hw => nomatch hw) fun _ hw => Or.inl hw
      · have hsent : p.sent (.commitResult env) = some work.v := by
          simp only [sent, hsender]
        have hchange : c'.db = p.journal ∨
            Change { p.scope (.commitResult env) with fresh := [] } p.journal c'.db :=
          commitResult_ok hk hsent hengaged.tracks hengaged.text hrun
        have hj : Changed { p.scope (.commitResult env) with fresh := [] } p.journal c'.db := by
          rcases hchange with hsame | hchange
          · rw [hsame]
            exact Changed.refl _
          · exact hchange.single
        simp only [committed, locked, hrun]
        exact h.of_stepped (.inl hj) (fun _ hw => nomatch hw) fun _ hw => Or.inl hw
    · exact hidle
  | recover env =>
    simp only [Process.apply]
    split
    · rcases hrun : (recover env.now).run (p.conn env) with ⟨e | u, c'⟩
      · simp only [recovered, locked, hrun]
        exact h.of_stepped (.plain (of_aborts .transaction hrun)) (fun _ hw => Or.inl hw)
          fun _ hw => Or.inl hw
      · have hj : Changed { p.scope (.recover env) with fresh := [] } p.journal c'.db :=
          recover_ok rfl hk hrun
        simp only [recovered, locked, hrun]
        exact h.of_stepped (.inl hj) (fun _ hw => nomatch hw) fun _ hw => Or.inl hw
    · exact hidle
  | prepareObservation env gate =>
    simp only [Process.apply]
    split
    · rcases hrun : (Observation.prepare env.now (gate && !p.resetRequired)).run (p.conn env) with
        ⟨e | work, c'⟩
      · simp only [observed, locked, hrun]
        exact h.of_stepped (.plain (of_aborts (prepareObservation_aborts _) hrun))
          (fun _ hw => Or.inl hw) fun _ hw => Or.inl hw
      · obtain ⟨hj, hholds⟩ : Changed {} p.journal c'.db ∧
            ∀ w, work = some w → Holds c'.db w.request := prepareObservation_ok hk hrun
        simp only [observed, locked, hrun]
        exact h.of_stepped (.plain hj) (fun _ hw => Or.inl hw) fun w hw => Or.inr (hholds w hw).tracks
    · exact hidle
  | publish env readReady candidate =>
    simp only [Process.apply]
    split
    · next work hobserver =>
      rcases hrun : (Observation.publish env.now readReady work candidate).run (p.conn env) with
        ⟨e | u, c'⟩
      · simp only [published, locked, hrun]
        exact h.of_stepped (.plain (of_aborts (publish_aborts readReady work candidate) hrun))
          (fun _ hw => Or.inl hw) fun _ hw => nomatch hw
      · obtain ⟨j, hfirst, hlater⟩ := h.publish hobserver hrun
        have hj : Changed { p.scope (.publish env readReady candidate) with fresh := [] } p.journal
            c'.db := by
          rcases hfirst with rfl | hchange
          · exact hlater.of_plain
          · exact hchange.single.trans hlater.of_plain
        simp only [published, locked, hrun]
        exact h.of_stepped (.inl hj) (fun _ hw => Or.inl hw) fun _ hw => nomatch hw
    · exact hidle
  | reset env expected =>
    obtain ⟨required, happly⟩ := p.resetBy_eq env expected
    change (p.resetBy env expected).Valid ∧ Stepped _ _ (p.resetBy env expected).journal
    rw [happly]
    refine h.of_stepped ?_ (fun _ hw => Or.inl hw) fun _ hw => Or.inl hw
    rcases hrun : (postReset env.now expected).run (p.conn env) with ⟨e | answer, c'⟩
    · exact .plain (of_aborts (postReset_aborts expected) hrun)
    · rcases (postReset_ok (c := p.conn env) hk hrun).2 with
        ⟨-, -, hdb⟩ | ⟨-, hexpected, epoch, hepoch, hreset⟩
      · rw [hdb]
        exact Stepped.refl _
      · refine Or.inr ⟨epoch, ?_, c'.db, hreset, Changed.refl _⟩
        have hresets : p.resets (.reset env expected) = true := decide_eq_true hexpected
        rw [scope, epochs, if_pos hresets]
        exact hepoch

theorem Valid.commits (h : p.Valid) (env : Env) :
    (p.apply enc (.commitResult env)).journal = p.journal ∨
      Change { p.scope (.commitResult env) with fresh := [] } p.journal
        (p.apply enc (.commitResult env)).journal := by
  simp only [Process.apply]
  split
  · next work outcome result hsender =>
    have hengaged := h.sender work (by rw [hsender]; rfl)
    have hsent : p.sent (.commitResult env) = some work.v := by simp only [sent, hsender]
    rcases hrun : (commitResult env.now work outcome result).run (p.conn env) with ⟨e | u, c'⟩
    · simp only [committed, locked, hrun]
      exact Or.inl (commitResult_aborts work outcome result _ _ _ hrun)
    · simp only [committed, locked, hrun]
      exact commitResult_ok (c := p.conn env) h.keyed hsent hengaged.tracks hengaged.text hrun
  · exact Or.inl rfl

theorem Valid.step (h : p.Valid) (a : Action) :
    (p.step enc a).Valid ∧ Stepped (p.scope a) p.journal (p.step enc a).journal := by
  unfold Process.step
  split_ifs
  · exact h.apply a
  · exact ⟨h, Stepped.refl _⟩

/-- A step that does anything was enabled, and issues what it may draw. -/
theorem step_issued (a : Action) :
    p.step enc a = p ∨ p.enabled a ∧ (p.step enc a).issued = a.fresh ++ p.issued := by
  unfold Process.step
  split_ifs with henabled
  swap
  · exact Or.inl rfl
  have hlocked {α : Type} {env : Env} {m : Tx α} {r : Except Error α} {p' : Process}
      (h : p.locked env m = (r, p')) : p'.issued = env.fresh ++ p.issued := by
    rw [← (Prod.mk.inj h).2]
  cases a with
  | crash => exact Or.inr ⟨henabled, rfl⟩
  | launch env =>
    refine Or.inr ⟨henabled, ?_⟩
    simp only [Process.apply, opened]
    split <;> rfl
  | critical env s => exact Or.inr ⟨henabled, rfl⟩
  | prepareSend env gate source =>
    simp only [Process.apply]
    split
    · refine Or.inr ⟨henabled, ?_⟩
      unfold prepared
      split
      · next heq =>
        have hp := hlocked heq
        exact hp
      · next heq =>
        have hp := hlocked heq
        exact hp
      · next heq =>
        have hp := hlocked heq
        exact hp
    · exact Or.inl rfl
  | invoke invocation =>
    refine Or.inr ⟨henabled, ?_⟩
    simp only [Process.apply]
    split
    · cases invocation <;> rfl
    · rfl
  | commitResult env =>
    simp only [Process.apply]
    split
    · refine Or.inr ⟨henabled, ?_⟩
      unfold committed
      split
      · next heq =>
        have hp := hlocked heq
        exact hp
      · next heq =>
        have hp := hlocked heq
        exact hp
    · exact Or.inl rfl
  | recover env =>
    simp only [Process.apply]
    split
    · refine Or.inr ⟨henabled, ?_⟩
      unfold recovered
      split
      · next heq =>
        have hp := hlocked heq
        exact hp
      · next heq =>
        have hp := hlocked heq
        exact hp
    · exact Or.inl rfl
  | prepareObservation env gate =>
    simp only [Process.apply]
    split
    · refine Or.inr ⟨henabled, ?_⟩
      unfold observed
      split
      · next heq =>
        have hp := hlocked heq
        exact hp
      · next heq =>
        have hp := hlocked heq
        exact hp
    · exact Or.inl rfl
  | publish env readReady candidate =>
    simp only [Process.apply]
    split
    · exact Or.inr ⟨henabled, rfl⟩
    · exact Or.inl rfl
  | reset env expected =>
    obtain ⟨required, happly⟩ := p.resetBy_eq env expected
    exact Or.inr ⟨henabled, congrArg issued happly⟩

/-- What an enabled action may draw is canonical and was never issued. -/
theorem enabled_fresh {a : Action} (h : p.enabled a) :
    ∀ id ∈ a.fresh, validId id = true ∧ id ∉ p.issued := by
  cases a with
  | crash => exact fun _ hid => absurd hid List.not_mem_nil
  | invoke _ => exact fun _ hid => absurd hid List.not_mem_nil
  | launch _ => exact h.2
  | critical _ _ => exact h.2
  | prepareSend _ _ _ => exact h.2
  | commitResult _ => exact h.2
  | recover _ => exact h.2
  | prepareObservation _ _ => exact h.2
  | publish _ _ _ => exact h.2
  | reset _ _ => exact h.2

/-- A step keeps the epoch, or a reset draws one that was never issued. -/
theorem Valid.step_epoch (h : p.Valid) (a : Action) :
    (Changed { p.scope a with fresh := [] } p.journal (p.step enc a).journal ∨
      ∃ epoch middle, ResetTo epoch p.journal middle ∧
        Changed { reconciles := a.reconciles } middle (p.step enc a).journal ∧
        validId epoch = true ∧ epoch ∉ p.issued ∧ epoch ∈ (p.step enc a).issued ∧
        epoch ∈ (p.scope a).fresh) ∧
    ∀ id ∈ p.issued, id ∈ (p.step enc a).issued := by
  have hstepped : Stepped (p.scope a) p.journal (p.step enc a).journal := (h.step a).2
  have hissued : p.step enc a = p ∨ p.enabled a ∧ (p.step enc a).issued = a.fresh ++ p.issued :=
    step_issued a
  rcases hissued with hsame | ⟨henabled, hissued⟩
  · rw [hsame]
    exact ⟨Or.inl (Changed.refl _), fun _ hid => hid⟩
  · refine ⟨hstepped.imp_right ?_, fun id hid => ?_⟩
    · rintro ⟨epoch, hepoch, middle, hreset, hchanged⟩
      have hdrawn : epoch ∈ a.fresh := by
        have hepochs : epoch ∈ p.epochs a := hepoch
        unfold epochs at hepochs
        split_ifs at hepochs with hresets
        · exact hepochs
        · exact absurd hepochs List.not_mem_nil
      obtain ⟨hvalid, hnew⟩ := enabled_fresh henabled epoch hdrawn
      rw [hissued]
      exact ⟨epoch, middle, hreset, hchanged, hvalid, hnew, List.mem_append_left _ hdrawn, hepoch⟩
    · rw [hissued]
      exact List.mem_append_right _ hid

end Process

section Runs

variable {enc : Encoding} {p : Process}

theorem run_valid (h : p.Valid) (actions : List Action) : ((relay enc).run p actions).Valid :=
  (relay enc).run_invariant (fun _ a hp => (hp.step a).1) p actions h

theorem run_evolves (h : p.Valid) (actions : List Action) :
    Evolves p.journal ((relay enc).run p actions).journal :=
  (relay enc).run_related (I := Process.Valid) (R := fun p q => Evolves p.journal q.journal)
    (fun _ => Evolves.refl _) (fun _ _ _ h h' => h.trans h') (fun _ a hp => (hp.step a).1)
    (fun _ a hp => (hp.step a).2.changed.evolves) p actions h

end Runs

end Zimbr.Relay
