import Zimbr.Relay.Dispatch
import Zimbr.Relay.Moments

set_option autoImplicit false

/-!
# Links over whole runs

A message goes to one send, a send keeps its message while the epoch lasts, and
no waiting send of the same content was a candidate when it was linked.
-/
namespace Zimbr.Relay
open Library

section Marks

variable {scope : Scope} {j j' : Journal} {id : Bytes}

/-- Only its own result or a recovery ends the dispatch of a text request. -/
theorem Change.marked (h : Change scope j j') (hfresh : scope.fresh = [])
    (hrecovers : scope.recovers = false) (hsent : scope.sent = none) (hm : Marked j id none) :
    Marked j' id none := by
  obtain ⟨row, hrow, hparts, hstate⟩ := hm
  have hquiet (hq : Quiet j j') : Marked j' id none := by
    obtain ⟨row', hrow', hcore⟩ := hq.after hrow
    simp only [SendRequestRow.core, Prod.mk.injEq] at hcore
    obtain ⟨-, -, hrecord, -, -⟩ := hcore
    exact ⟨row', hrow', by rw [hrecord]; exact hparts, by rw [hrecord]; exact hstate⟩
  cases h with
  | quiet h _ => exact hquiet h
  | published r _ h _ => exact hquiet h
  | request v row' found follows _ links updated =>
    by_cases hid : id = v.requestId
    · subst hid
      rw [found, Option.some.injEq] at hrow
      subst hrow
      cases links with
      | kept _ _ held _ =>
        have hrecovers' := held hparts hstate
        rw [hrecovers] at hrecovers'
        cases hrecovers'
      | sent work sent _ _ _ _ _ =>
        rw [hsent] at sent
        cases sent
      | text _ _ _ _ _ _ settled _ _ _ _ => exact absurd (Or.inr hstate) settled.1
      | part n _ _ _ _ _ _ _ _ before _ _ _ _ => simp [hparts] at before
    · exact ⟨row, by rw [updated.get?, if_neg hid, hrow], hparts, hstate⟩
  | accepted input owner v h =>
    obtain ⟨route, now, hrows⟩ := h.rows
    refine ⟨row, ?_, hparts, hstate⟩
    rw [hrows, if_neg, hrow]
    rintro rfl
    rw [h.absent] at hrow
    cases hrow
  | pruned cut h =>
    rw [h.effect]
    exact ⟨row, hrow, hparts, hstate⟩
  | ledger _ h =>
    obtain ⟨uploads, rfl⟩ := h.only
    exact ⟨row, hrow, hparts, hstate⟩
  | reset _ drawn _ => exact absurd (hfresh ▸ drawn) List.not_mem_nil

theorem Changed.marked (h : Changed scope j j') (hfresh : scope.fresh = [])
    (hrecovers : scope.recovers = false) (hsent : scope.sent = none) (hm : Marked j id none) :
    Marked j' id none := by
  induction h with
  | refl => exact hm
  | tail _ h ih => exact h.marked hfresh hrecovers hsent ih

theorem Marked.unlinked (hk : Keyed j) (hs : Sound j) (hm : Marked j id none) :
    linked j (id, none) = none := by
  obtain ⟨row, hrow, hparts, hstate⟩ := hm
  simp only [linked, hrow, Option.bind_some]
  rw [(hk id row hrow).messageId]
  exact (hs id row hrow).unsettled hparts (Or.inr hstate)

theorem Change.row_epochs {P : Bytes → Prop} (h : Change scope j j') (hepoch : P j.epoch)
    (hrows : ∀ id row, j.sendRequests.get? id = some row → P row.epoch) :
    ∀ id row, j'.sendRequests.get? id = some row → P row.epoch := by
  have hquiet (hq : Quiet j j') : ∀ id row, j'.sendRequests.get? id = some row → P row.epoch := by
    intro id row' hrow'
    obtain ⟨row, hrow, hcore⟩ := hq.before hrow'
    simp only [SendRequestRow.core, Prod.mk.injEq] at hcore
    rw [hcore.1]
    exact hrows id row hrow
  cases h with
  | quiet h _ => exact hquiet h
  | published r _ h _ => exact hquiet h
  | request v row found _ _ _ updated =>
    intro id row' hrow'
    rw [updated.get?] at hrow'
    split_ifs at hrow' with hid
    · rw [hid, found, Option.map_some, Option.some.injEq] at hrow'
      rw [← hrow']
      exact hrows _ row found
    · exact hrows id row' hrow'
  | accepted input owner v h =>
    intro id row' hrow'
    obtain ⟨route, now, hnew⟩ := h.rows
    rw [hnew] at hrow'
    split_ifs at hrow'
    · rw [Option.some.injEq] at hrow'
      rw [← hrow']
      change P input.serverEpoch
      rw [h.current]
      exact hepoch
    · exact hrows id row' hrow'
  | pruned cut h =>
    rw [h.effect]
    exact hrows
  | ledger _ h =>
    obtain ⟨uploads, rfl⟩ := h.only
    exact hrows
  | reset epoch _ h =>
    intro id row' hrow'
    cases h.requests id with
    | absent _ after _ => simp [after] at hrow'
    | settled row before _ after _ =>
      rw [after, Option.some.injEq] at hrow'
      exact hrow' ▸ hrows id row before
    | written row v revision before _ _ _ after _ =>
      rw [after, Option.some.injEq] at hrow'
      rw [← hrow']
      exact hrows id row before
    | legacy row v before _ _ _ after _ =>
      rw [after, Option.some.injEq] at hrow'
      rw [← hrow']
      exact hrows id row before

theorem Changed.row_epochs {P : Bytes → Prop} (h : Changed scope j j') (hfresh : scope.fresh = [])
    (hepoch : P j.epoch) (hrows : ∀ id row, j.sendRequests.get? id = some row → P row.epoch) :
    ∀ id row, j'.sendRequests.get? id = some row → P row.epoch := by
  induction h with
  | refl => exact hrows
  | tail hchanged h ih => exact h.row_epochs ((Changed.grows hchanged hfresh).1 ▸ hepoch) ih

theorem dispatching_message {v v' : SendRequest} {part : Option Nat}
    (h : dispatching v = some (v', part)) (hnone : v.parts = [] → v.messageId = none) :
    v'.messageId = none := by
  unfold dispatching at h
  split_ifs at h with hparts
  · simp only [Option.some.injEq, Prod.mk.injEq] at h
    rw [← h.1]
    exact hnone hparts
  · simp only [Option.bind_eq_bind, Option.bind_eq_some_iff, Option.some.injEq,
      Prod.mk.injEq] at h
    obtain ⟨position, -, w, hstart, rfl, -⟩ := h
    unfold Sends.start at hstart
    split_ifs at hstart
    obtain ⟨-, -, -, -, -, -, -, hmessage, -, -⟩ := Sends.summarize_fields hstart
    exact hmessage

end Marks

namespace Process

/-- A publish follows what its observation read. -/
def Observes (d : Decoders) (digest : List SourceMessage → Bytes) (p : Process) : Action → Prop
  | .publish _ _ candidate =>
    ∀ work, p.observer = some work → Observation.Publishable d digest work candidate
  | _ => True

/-- The journal in which the step linked the send: the one of the pass at the query for
the echo of the request, or the one that an observation is published to. The send had no
message in it, and no other waiting send was a rival. -/
def Moment (enc : Encoding) (p : Process) (k : SendKey) (mid : Bytes) : Action → Prop
  | .critical env (.ingest resets first parts imports _) => ∃ n item d v,
    (reconciling enc env.now resets first parts imports n).run (p.conn env).calm =
        (.ok (some item), d) ∧
      k = (item.1, none) ∧ reconciled d.db env.now item.2.record item.2 = some v ∧
      v.messageId = some mid ∧ Alone d.db k mid
  | .publish _ _ _ => ∃ work, p.observer = some work ∧
    k = (work.request.requestId, some work.position) ∧ Alone p.journal k mid
  | _ => False

/-- The links are sound, and the workers hold nothing that breaks them. -/
structure Credited (p : Process) : Prop where
  valid : p.Valid
  attributed : Attributed p.journal
  issued : p.journal.epoch ∈ p.issued
  issuedRows : ∀ id row, p.journal.sendRequests.get? id = some row → row.epoch ∈ p.issued
  sender : ∀ work, p.sender.work = some work → p.running = true ∧ work.v.messageId = none ∧
    (work.part = none → work.v.serverEpoch = p.journal.epoch →
      Marked p.journal work.v.requestId none)
  observer : ∀ work, p.observer = some work → ∀ part mid,
    work.request.parts[work.position]? = some part → part.messageId = some mid →
    work.request.serverEpoch = p.journal.epoch →
    linked p.journal (work.request.requestId, some work.position) = some mid

theorem new_credited (epoch : Bytes) : (new epoch).Credited where
  valid := (new_initial epoch).valid
  attributed := by
    refine ⟨(inherited_new epoch).keyed, ⟨fun _ _ h => (nomatch h), fun _ _ _ => rfl⟩,
      fun _ _ h => (nomatch h), fun k _ _ hlinked => ?_⟩
    obtain ⟨id, n⟩ := k
    cases n <;> exact nomatch hlinked
  issued := List.mem_singleton_self epoch
  issuedRows _ _ h := nomatch h
  sender _ hw := nomatch hw
  observer _ hw := nomatch hw

section Steps

variable {enc : Encoding} {d : Decoders} {digest : List SourceMessage → Bytes} {p : Process}

theorem Credited.tracked (h : p.Credited) {v : SendRequest} (ht : Tracks p.journal v) :
    v.serverEpoch ∈ p.issued := by
  obtain ⟨row, hrow, hfollows⟩ := ht
  rw [← hfollows.serverEpoch, (h.valid.keyed _ _ hrow).serverEpoch]
  exact h.issuedRows _ row hrow

theorem Credited.sent_unlinked (h : p.Credited) {work : Work} (hwork : p.sender.work = some work)
    (hepoch : work.v.serverEpoch = p.journal.epoch) :
    work.v.messageId = none ∧ linked p.journal (work.v.requestId, none) = none := by
  obtain ⟨-, hmessage, hmarked⟩ := h.sender work hwork
  refine ⟨hmessage, ?_⟩
  cases hpart : work.part with
  | none => exact (hmarked hpart hepoch).unlinked h.valid.keyed h.attributed.sound
  | some i =>
    obtain ⟨⟨row, hrow, hfollows⟩, -, hstarted⟩ := h.valid.sender work hwork
    obtain ⟨part, hp, -⟩ := hstarted i hpart
    have hne : row.record.parts ≠ [] := by
      intro hnil
      simp [hfollows.nil.mp hnil] at hp
    simp only [linked, hrow, Option.bind_some]
    rw [(h.valid.keyed _ _ hrow).messageId]
    exact (h.attributed.sound _ row hrow).whole hne

/-- What an observation publishes shows its part, or follows its message. -/
theorem Credited.observed (h : p.Credited) {work : Observation.Work}
    {echo : Observation.Candidate} (hwork : p.observer = some work)
    (hpublishable : Observation.Publishable d digest work (some echo))
    (hepoch : work.request.serverEpoch = p.journal.epoch) :
    Observation.Shows work echo ∨
      (linked p.journal (work.request.requestId, some work.position)).isSome = true := by
  rcases hpublishable with ⟨part, -, -, before, after, checks, hobserve⟩ |
    ⟨part, mid, hpart, hmid, -⟩
  · exact Or.inl (Observation.observe_shows hobserve)
  · right
    rw [h.observer work hwork part mid hpart hmid hepoch]
    rfl

theorem Credited.sincere (h : p.Credited) {a : Action} (ho : p.Observes d digest a) :
    Sincere { p.scope a with fresh := [] } p.journal := by
  refine ⟨fun v hv hepoch => ?_, fun work echo hecho hepoch => ?_⟩
  · change p.sent a = some v at hv
    unfold sent at hv
    split at hv
    · split at hv
      · next work outcome result hsender =>
        rw [Option.some.injEq] at hv
        rw [← hv] at hepoch ⊢
        exact h.sent_unlinked (by rw [hsender]; rfl) hepoch
      · exact nomatch hv
    · exact nomatch hv
  · change p.echo a = some (work, echo) at hecho
    unfold Process.echo at hecho
    split at hecho
    · rw [Option.map_eq_some_iff] at hecho
      obtain ⟨work', hwork, hecho⟩ := hecho
      rw [Prod.mk.injEq] at hecho
      obtain ⟨rfl, rfl⟩ := hecho
      exact h.observed hwork (ho _ hwork) hepoch
    · exact nomatch hecho

theorem locked_running {α : Type} {env : Env} {m : Tx α} {r : Except Error α} {p' : Process}
    (h : p.locked env m = (r, p')) : p'.running = p.running ∧ p'.observer = p.observer := by
  rw [← (Prod.mk.inj h).2]
  exact ⟨rfl, rfl⟩

/-- A work item the sender still holds was not recovered, or was just marked. -/
theorem Credited.step_sender (h : p.Credited) {a : Action} {work : Work}
    (hw : (p.step enc a).sender.work = some work) : (p.step enc a).running = true ∧
      (p.sender.work = some work ∧
          ((p.step enc a).journal = p.journal ∨ a.recovers = false ∧ p.sent a = none) ∨
        Dispatched p.journal work (p.step enc a).journal) := by
  have hrunning {w : Work} (hw : p.sender.work = some w) : p.running = true := (h.sender w hw).1
  have hidle (hw : p.sender.work = some work) : p.running = true ∧
      (p.sender.work = some work ∧
          (p.journal = p.journal ∨ a.recovers = false ∧ p.sent a = none) ∨
        Dispatched p.journal work p.journal) := ⟨hrunning hw, Or.inl ⟨hw, Or.inl rfl⟩⟩
  unfold Process.step at hw ⊢
  split_ifs at hw ⊢ with henabled
  swap
  · exact hidle hw
  cases a with
  | crash => cases hw
  | launch env =>
    have hsender : (p.opened env).sender = p.sender := by
      simp only [opened]
      split <;> rfl
    change (p.opened env).sender.work = some work at hw
    rw [hsender] at hw
    exact absurd (henabled.1.symm.trans (hrunning hw)) (fun h => by cases h)
  | critical env s => exact ⟨hrunning hw, Or.inl ⟨hw, Or.inr ⟨rfl, rfl⟩⟩⟩
  | prepareSend env gate source =>
    simp only [Process.apply] at hw ⊢
    split at hw
    · next hsender =>
      rcases hrun : (prepareSend env.now gate source).run (p.conn env) with ⟨e | found, c'⟩
      · simp only [prepared, locked, hrun] at hw
        cases hw
      · obtain ⟨-, hdispatched⟩ : Changed {} p.journal c'.db ∧
            ∀ w, found = some w → Dispatched p.journal w c'.db :=
          prepareSend_ok h.valid.keyed hrun
        cases found with
        | none =>
          simp only [prepared, locked, hrun, hsender] at hw
          cases hw
        | some found =>
          simp only [prepared, locked, hrun, Sender.work, Option.some.injEq] at hw ⊢
          rw [← hw]
          refine ⟨?_, Or.inr (hdispatched found rfl)⟩
          have hserving := henabled.1
          simp only [serving, Bool.and_eq_true] at hserving
          exact hserving.1
    · exact hidle hw
  | invoke invocation =>
    simp only [Process.apply] at hw ⊢
    split at hw
    · next found hsender =>
      have hfound : p.sender.work = some found := by rw [hsender]; rfl
      cases invocation with
      | refused code => exact ⟨henabled, Or.inl ⟨hfound.trans hw, Or.inl rfl⟩⟩
      | called result => exact ⟨henabled, Or.inl ⟨hfound.trans hw, Or.inl rfl⟩⟩
      | lost ran => cases hw
    · exact hidle hw
  | commitResult env =>
    simp only [Process.apply] at hw ⊢
    split at hw
    · next found outcome result hsender =>
      rcases hrun : (commitResult env.now found outcome result).run (p.conn env) with ⟨e | u, c'⟩
      · simp only [committed, locked, hrun] at hw
        cases hw
      · simp only [committed, locked, hrun] at hw
        cases hw
    · exact hidle hw
  | recover env =>
    simp only [Process.apply] at hw ⊢
    split at hw
    · next hsender =>
      rcases hrun : (recover env.now).run (p.conn env) with ⟨e | u, c'⟩
      · simp only [recovered, locked, hrun, hsender] at hw
        cases hw
      · simp only [recovered, locked, hrun] at hw
        cases hw
    · exact hidle hw
  | prepareObservation env gate =>
    have hsame : (p.apply enc (.prepareObservation env gate)).sender = p.sender ∧
        (p.apply enc (.prepareObservation env gate)).running = p.running := by
      simp only [Process.apply, Process.observed]
      split
      · split
        · next heq => exact ⟨(locked_sender heq : _), (locked_running heq).1⟩
        · next heq => exact ⟨locked_sender heq, (locked_running heq).1⟩
      · exact ⟨rfl, rfl⟩
    rw [hsame.1] at hw
    exact ⟨hsame.2.trans (hrunning hw), Or.inl ⟨hw, Or.inr ⟨rfl, rfl⟩⟩⟩
  | publish env readReady candidate =>
    have hsame : (p.apply enc (.publish env readReady candidate)).sender = p.sender ∧
        (p.apply enc (.publish env readReady candidate)).running = p.running := by
      simp only [Process.apply]
      split
      · exact ⟨rfl, rfl⟩
      · exact ⟨rfl, rfl⟩
    rw [hsame.1] at hw
    exact ⟨hsame.2.trans (hrunning hw), Or.inl ⟨hw, Or.inr ⟨rfl, rfl⟩⟩⟩
  | reset env expected =>
    obtain ⟨required, happly⟩ := p.resetBy_eq env expected
    change (p.resetBy env expected).sender.work = some work at hw
    change (p.resetBy env expected).running = true ∧ _
    rw [happly] at hw ⊢
    exact ⟨hrunning hw, Or.inl ⟨hw, Or.inr ⟨rfl, rfl⟩⟩⟩

/-- The observer keeps its work, or has just taken it from the journal. -/
theorem Credited.step_observer (h : p.Credited) {a : Action} {work : Observation.Work}
    (hw : (p.step enc a).observer = some work) :
    p.observer = some work ∨ Holds (p.step enc a).journal work.request := by
  unfold Process.step at hw ⊢
  split_ifs at hw ⊢ with henabled
  swap
  · exact Or.inl hw
  cases a with
  | crash => cases hw
  | launch env =>
    have hsame : (p.opened env).observer = p.observer := by
      simp only [opened]
      split <;> rfl
    exact Or.inl (hsame.symm.trans hw)
  | critical env s => exact Or.inl hw
  | prepareSend env gate source =>
    simp only [Process.apply] at hw
    split at hw
    · unfold prepared at hw
      split at hw
      · next heq => exact Or.inl ((locked_running heq).2.symm.trans hw)
      · next heq => exact Or.inl ((locked_running heq).2.symm.trans hw)
      · next heq => exact Or.inl ((locked_running heq).2.symm.trans hw)
    · exact Or.inl hw
  | invoke invocation =>
    simp only [Process.apply] at hw
    split at hw
    · cases invocation <;> exact Or.inl hw
    · exact Or.inl hw
  | commitResult env =>
    simp only [Process.apply] at hw
    split at hw
    · unfold committed at hw
      split at hw
      · next heq => exact Or.inl ((locked_running heq).2.symm.trans hw)
      · next heq => exact Or.inl ((locked_running heq).2.symm.trans hw)
    · exact Or.inl hw
  | recover env =>
    simp only [Process.apply] at hw
    split at hw
    · unfold recovered at hw
      split at hw
      · next heq => exact Or.inl ((locked_running heq).2.symm.trans hw)
      · next heq => exact Or.inl ((locked_running heq).2.symm.trans hw)
    · exact Or.inl hw
  | prepareObservation env gate =>
    simp only [Process.apply] at hw ⊢
    split at hw
    · next hobserver =>
      rcases hrun : (Observation.prepare env.now (gate && !p.resetRequired)).run (p.conn env) with
        ⟨e | found, c'⟩
      · simp only [Process.observed, locked, hrun, hobserver] at hw
        cases hw
      · obtain ⟨-, hholds⟩ : Changed {} p.journal c'.db ∧
            ∀ w, found = some w → Holds c'.db w.request :=
          prepareObservation_ok h.valid.keyed hrun
        simp only [Process.observed, locked, hrun] at hw ⊢
        exact Or.inr (hholds work hw)
    · exact Or.inl hw
  | publish env readReady candidate =>
    simp only [Process.apply] at hw
    split at hw
    · cases hw
    · exact Or.inl hw
  | reset env expected =>
    obtain ⟨required, happly⟩ := p.resetBy_eq env expected
    change (p.resetBy env expected).observer = some work at hw
    rw [happly] at hw
    exact Or.inl hw

structure Credits (p p' : Process) (scope : Scope) : Prop where
  attributed : Attributed p'.journal
  keeps : p'.journal.epoch = p.journal.epoch →
    ∀ k mid, linked p.journal k = some mid → linked p'.journal k = some mid
  credits : ∀ k mid, linked p.journal k ≠ some mid → linked p'.journal k = some mid →
    scope.Credits k

theorem Credited.commits_links (h : p.Credited) {a : Action} (ho : p.Observes d digest a)
    (hsent : p.sent a ≠ none) :
    Attributes { p.scope a with fresh := [] } p.journal (p.step enc a).journal := by
  have hsincere := h.sincere ho
  cases a with
  | commitResult env =>
    unfold Process.step
    split_ifs
    · rcases @Valid.commits enc p h.valid env with hsame | hchange
      · rw [hsame]
        exact h.attributed.refl
      · exact h.attributed.refl.tail hchange rfl hsincere
    · exact h.attributed.refl
  | _ => exact absurd rfl hsent

theorem Credited.step_links (h : p.Credited) {a : Action} (ho : p.Observes d digest a) :
    Credits p (p.step enc a) (p.scope a) := by
  have hsincere := h.sincere ho
  have hstep := (@Valid.step_epoch enc p h.valid a).1
  rcases hstep with hchanged | ⟨epoch, middle, hreset, hchanged, -, hnew, -⟩
  · have hattributes : Attributes { p.scope a with fresh := [] } p.journal (p.step enc a).journal := by
      by_cases hsent : p.sent a = none
      · exact h.attributed.changed hchanged rfl hsent hsincere
      · exact h.commits_links ho hsent
    exact ⟨hattributes.attributed, fun _ => hattributes.keeps, hattributes.credits⟩
  · have hmiddle := h.attributed.reset hreset
    have hattributes := hmiddle.changed hchanged rfl rfl (sincere_silent rfl rfl)
    refine ⟨hattributes.attributed, fun hepoch => ?_, fun k mid hnot hlinked => ?_⟩
    · rw [(hchanged.grows rfl).1, hreset.epoch] at hepoch
      exact absurd (hepoch ▸ h.issued) hnew
    · have hbefore : linked middle k ≠ some mid := by
        intro hmid
        rcases hreset.linked h.valid.keyed hmiddle.keyed h.attributed.mirrored hmiddle.mirrored k with
          hnone | hsame
        · rw [hnone] at hmid
          exact nomatch hmid
        · exact hnot (hsame ▸ hmid)
      rcases hattributes.credits k mid hbefore hlinked with hpass | ⟨work, echo, hecho, -⟩
      · exact Or.inl hpass
      · exact nomatch hecho

/-- A step that links a send decided it on the journal that the step names. -/
theorem Credited.step_moment (h : p.Credited) {a : Action} (ho : p.Observes d digest a)
    {k : SendKey} {mid : Bytes} (hbefore : linked p.journal k ≠ some mid)
    (hafter : linked (p.step enc a).journal k = some mid) : p.Moment enc k mid a := by
  have hsincere := h.sincere ho
  have henabled : p.enabled a := by
    by_contra hnot
    simp only [Process.step, if_neg hnot] at hafter
    exact hbefore hafter
  have hcredits := (h.step_links ho).credits k mid hbefore hafter
  simp only [Process.step, if_pos henabled] at hafter
  rcases hcredits with ⟨-, hreconciles⟩ | ⟨work, echo, hecho, hk⟩
  · cases a with
    | critical env s =>
      cases s with
      | ingest resets first parts imports last =>
        change linked ((Section.tx enc env.now (.ingest resets first parts imports last)).run
          (p.conn env)).2.db k = some mid at hafter
        rcases hrun : (Section.tx enc env.now (.ingest resets first parts imports last)).run
            (p.conn env) with ⟨e | r, c'⟩
        · rw [hrun, section_aborts (.ingest resets first parts imports last) _ _ _ hrun] at hafter
          exact absurd hafter hbefore
        · rw [hrun] at hafter
          obtain ⟨_, c₁, hingest, hend⟩ := Sql.bind_ok hrun
          rw [(Sql.pure_ok hend).2] at hafter
          exact ingest_link (c := p.conn env) h.attributed hingest hbefore hafter
      | _ => cases hreconciles
    | _ => cases hreconciles
  · cases a with
    | publish env ready candidate =>
      change p.echo (.publish env ready candidate) = _ at hecho
      cases candidate with
      | none => cases hecho
      | some candidate =>
        rw [Process.echo, Option.map_eq_some_iff] at hecho
        obtain ⟨work', hobserver, hecho⟩ := hecho
        rw [Prod.mk.injEq] at hecho
        rw [← hecho.1] at hk
        refine ⟨work', hobserver, hk, ?_⟩
        simp only [Process.apply, hobserver] at hafter
        change linked ((Observation.publish env.now ready work' (some candidate)).run
          (p.conn env)).2.db k = some mid at hafter
        rcases hrun : (Observation.publish env.now ready work' (some candidate)).run (p.conn env) with
          ⟨e | r, c'⟩
        · rw [hrun, publish_aborts ready work' _ _ _ _ hrun] at hafter
          exact absurd hafter hbefore
        · rw [hrun] at hafter
          obtain ⟨j, hfirst, hlater⟩ := h.valid.publish hobserver hrun
          rcases hfirst with rfl | hchange
          · exact absurd (((h.attributed.plain hlater).2 k mid).mp hafter) hbefore
          · have hj := h.attributed.change hchange rfl hsincere
            refine ((hchange.relinked rfl h.valid.keyed h.attributed.mirrored h.attributed.sound
              hsincere).made hbefore ?_).2
            exact ((hj.plain hlater).2 k mid).mp hafter
    | _ => cases hecho

theorem Credited.step (h : p.Credited) {a : Action} (ho : p.Observes d digest a) :
    (p.step enc a).Credited := by
  obtain ⟨hattributed, hkeeps, -⟩ := @Credited.step_links enc d digest p h a ho
  obtain ⟨hstep, hissued⟩ := @Valid.step_epoch enc p h.valid a
  have hevolves : Evolves p.journal (p.step enc a).journal := (h.valid.step a).2.changed.evolves
  have hepoch : (p.step enc a).journal.epoch = p.journal.epoch ∨
      (p.step enc a).journal.epoch ∉ p.issued := by
    rcases hstep with hchanged | ⟨epoch, middle, hreset, hchanged, -, hnew, -⟩
    · exact Or.inl (hchanged.grows rfl).1
    · right
      rw [(hchanged.grows rfl).1, hreset.epoch]
      exact hnew
  -- What an earlier epoch issued is never current again.
  have hcurrent {v : SendRequest} (ht : Tracks p.journal v)
      (hv : v.serverEpoch = (p.step enc a).journal.epoch) :
      (p.step enc a).journal.epoch = p.journal.epoch ∧ v.serverEpoch = p.journal.epoch := by
    rcases hepoch with hsame | hnew
    · exact ⟨hsame, hv.trans hsame⟩
    · exact absurd (hv ▸ h.tracked ht) hnew
  have hrows : (p.step enc a).journal.epoch ∈ (p.step enc a).issued ∧
      ∀ id row, (p.step enc a).journal.sendRequests.get? id = some row →
        row.epoch ∈ (p.step enc a).issued := by
    have hold (id : Bytes) (row : SendRequestRow) (hrow : p.journal.sendRequests.get? id = some row) :
        row.epoch ∈ (p.step enc a).issued := hissued _ (h.issuedRows id row hrow)
    rcases hstep with hchanged | ⟨epoch, middle, hreset, hchanged, -, -, hdrawn, hscope⟩
    · exact ⟨(hchanged.grows rfl).1 ▸ hissued _ h.issued,
        hchanged.row_epochs rfl (hissued _ h.issued) hold⟩
    · have hmiddle := (Change.reset epoch hscope hreset).row_epochs (hissued _ h.issued) hold
      have hepoch : middle.epoch ∈ (p.step enc a).issued := hreset.epoch ▸ hdrawn
      exact ⟨(hchanged.grows rfl).1 ▸ hepoch, hchanged.row_epochs rfl hepoch hmiddle⟩
  refine ⟨(h.valid.step a).1, hattributed, hrows.1, hrows.2, fun work hwork => ?_,
    fun work hwork part mid hpart hmid hserver => ?_⟩
  · obtain ⟨hrunning, hsender⟩ := h.step_sender hwork
    refine ⟨hrunning, ?_⟩
    rcases hsender with ⟨hold, hjournal⟩ | hdispatched
    · obtain ⟨-, hmessage, hmarked⟩ := h.sender work hold
      refine ⟨hmessage, fun hpart hserver => ?_⟩
      obtain ⟨hsame, hserver⟩ := hcurrent (h.valid.sender work hold).tracks hserver
      rcases hjournal with hjournal | ⟨hrecovers, hsent⟩
      · rw [hjournal]
        exact hmarked hpart hserver
      · rcases hstep with hchanged | ⟨epoch, middle, hreset, hchanged, -, hnew, -⟩
        · exact hchanged.marked rfl hrecovers hsent (hmarked hpart hserver)
        · rw [(hchanged.grows rfl).1, hreset.epoch] at hsame
          exact absurd (hsame ▸ h.issued) hnew
    · refine ⟨?_, fun hpart _ => hpart ▸ hdispatched.marked⟩
      obtain ⟨row, hrow, hqueued, -, hdispatching⟩ := hdispatched.before
      refine dispatching_message hdispatching fun hnil => ?_
      refine (h.attributed.sound _ row hrow).unsettled hnil (Or.inl ?_)
      rw [← (h.valid.keyed _ row hrow).state, hqueued]
  · rcases h.step_observer hwork with hold | ⟨row, hrow, hrecord⟩
    · obtain ⟨hsame, hserver⟩ := hcurrent (h.valid.observer work hold) hserver
      exact hkeeps hsame _ _ (h.observer work hold part mid hpart hmid hserver)
    · rw [linked_eq hattributed.keyed hattributed.mirrored, hrow, Option.bind_some, hrecord, linkOf,
        hpart, Option.bind_some, hmid]

end Steps

end Process

section Runs

variable {enc : Encoding} {d : Decoders} {digest : List SourceMessage → Bytes} {p : Process}

def Observed (enc : Encoding) (d : Decoders) (digest : List SourceMessage → Bytes) (p : Process)
    (actions : List Action) : Prop :=
  ∀ before a after, actions = before ++ a :: after →
    ((relay enc).run p before).Observes d digest a

theorem run_credited (h : p.Credited) (actions : List Action)
    (observed : Observed enc d digest p actions) : ((relay enc).run p actions).Credited :=
  (relay enc).run_invariant_when (fun _ _ hq ho => hq.step ho) p actions h observed

theorem Observed.left {first later : List Action} (h : Observed enc d digest p (first ++ later)) :
    Observed enc d digest p first := by
  rintro before a after rfl
  exact h before a (after ++ later) (by simp)

theorem Observed.right {first later : List Action} (h : Observed enc d digest p (first ++ later)) :
    Observed enc d digest ((relay enc).run p first) later := by
  rintro before a after rfl
  have ha := h (first ++ before) a after (by simp)
  rwa [Machine.run_append] at ha

theorem run_keeps (h : p.Credited) (actions : List Action)
    (observed : Observed enc d digest p actions)
    (hepoch : ((relay enc).run p actions).journal.epoch = p.journal.epoch) {k : SendKey} {mid : Bytes}
    (hlinked : linked p.journal k = some mid) :
    linked ((relay enc).run p actions).journal k = some mid := by
  have hinvariant := (relay enc).run_invariant_when
    (I := fun q => q.Credited ∧ p.journal.epoch ∈ q.issued ∧
      (q.journal.epoch = p.journal.epoch → linked q.journal k = some mid))
    (C := Process.Observes d digest) (fun q a hq ho => ?_) p actions
    ⟨h, h.issued, fun _ => hlinked⟩ observed
  · exact hinvariant.2.2 hepoch
  · obtain ⟨hcredited, hissued, hkept⟩ := hq
    obtain ⟨hstep, hgrows⟩ := @Process.Valid.step_epoch enc q hcredited.valid a
    refine ⟨hcredited.step ho, hgrows _ hissued, fun hsame => ?_⟩
    change (q.step enc a).journal.epoch = p.journal.epoch at hsame
    rcases hstep with hchanged | ⟨epoch, middle, hreset, hchanged, -, hnew, -⟩
    · have hbefore := (hchanged.grows rfl).1
      exact (hcredited.step_links ho).keeps hbefore k mid (hkept (hbefore.symm.trans hsame))
    · rw [(hchanged.grows rfl).1, hreset.epoch] at hsame
      exact absurd (hsame ▸ hissued) hnew

end Runs

/-- In every run of a relay, a message is linked to one send; a send keeps its
message while the epoch lasts; and in the journal that the link was decided on, no
other send of the same content was waiting for a message like it. -/
theorem echoes_attributed (enc : Encoding) (d : Decoders) (digest : List SourceMessage → Bytes)
    (epoch : Bytes) (first later : List Action)
    (observed : Observed enc d digest (.new epoch) (first ++ later)) :
    let p := (relay enc).run (.new epoch) first
    (∀ k k' mid, linked p.journal k = some mid → linked p.journal k' = some mid → k = k') ∧
    (((relay enc).run p later).journal.epoch = p.journal.epoch →
      ∀ k mid, linked p.journal k = some mid →
        linked ((relay enc).run p later).journal k = some mid) ∧
    ∀ a rest, later = a :: rest → ∀ k mid, linked p.journal k ≠ some mid →
      linked (p.step enc a).journal k = some mid →
      p.Moment enc k mid a := by
  intro p
  have hcredited : p.Credited := run_credited (Process.new_credited epoch) first observed.left
  refine ⟨hcredited.attributed.injective, fun hsame k mid hlinked => ?_, ?_⟩
  · exact run_keeps hcredited later observed.right hsame hlinked
  · rintro a rest rfl
    exact fun k mid => hcredited.step_moment (observed.right [] a rest rfl)

namespace Sample

def helloRoute : Bytes := text "iMessage;-;+15550100"

def helloChat : Conversation where
  participants := [text "+15550100"]
  service := text "imessage"

def helloEcho : Message where
  conversationId := text "DAAAAAAAAAAAAAAAAAAAAA"
  sender := []
  direction := .outgoing
  service := text "imessage"
  timestamp := text "2001-01-01T00:00:00.000000000Z"
  kind := .text
  text := some (text "hello")
  decoding := .plain
  observedStatus := .sent

/-- The text runs; after its window a pass imports its echo. -/
def runHello : List Action := markHello ++ [.invoke (.called .completed), .commitResult { now := 3 }]

def importHello : Action :=
  .critical {
    now := 10002
    fresh := [text "CAAAAAAAAAAAAAAAAAAAAA", text "DAAAAAAAAAAAAAAAAAAAAA",
      text "EAAAAAAAAAAAAAAAAAAAAA"] }
    (.ingest false [
      .conversation (text "chat") 1 helloRoute helloChat .live,
      .sourceMessage (text "guid") 1 (appleNs 2) helloEcho .live] [] (fun _ => []) [])

def noDecoders : Decoders where
  body _ := .error .unsupported
  parts _ _ _ := .error .unsupported
  link _ := { state := .complete }
  bindLocalArtwork _ _ artwork := artwork
  reaction _ _ _ _ := none
  hashId id := id

end Sample

theorem echoes_attributed_hello :
    let p := (relay Sample.encoding).run (.new Sample.epoch) Sample.runHello
    let p' := p.step Sample.encoding Sample.importHello
    linked p'.journal (Sample.requestId, none) = some (text "EAAAAAAAAAAAAAAAAAAAAA") ∧
    p.Moment Sample.encoding (Sample.requestId, none) (text "EAAAAAAAAAAAAAAAAAAAAA")
      Sample.importHello := by
  intro p p'
  have hbefore : linked p.journal (Sample.requestId, none) = none := by decide +kernel
  have hafter : linked p'.journal (Sample.requestId, none) = some (text "EAAAAAAAAAAAAAAAAAAAAA") := by
    decide +kernel
  have hobserved : Observed Sample.encoding Sample.noDecoders (fun _ => []) (.new Sample.epoch)
      (Sample.runHello ++ [Sample.importHello]) := by
    -- the run publishes no observation
    have hquiet (p : Process) {a : Action} (ha : ∀ env ready candidate,
        a ≠ .publish env ready candidate) : p.Observes Sample.noDecoders (fun _ => []) a := by
      cases a with
      | publish env ready candidate => exact absurd rfl (ha env ready candidate)
      | _ => trivial
    refine (relay Sample.encoding).meets_cons (hquiet _ nofun) ?_
    refine (relay Sample.encoding).meets_cons (hquiet _ nofun) ?_
    refine (relay Sample.encoding).meets_cons (hquiet _ nofun) ?_
    refine (relay Sample.encoding).meets_cons (hquiet _ nofun) ?_
    refine (relay Sample.encoding).meets_cons (hquiet _ nofun) ?_
    exact (relay Sample.encoding).meets_cons (hquiet _ nofun) (relay Sample.encoding).meets_nil
  refine ⟨hafter, ?_⟩
  exact (echoes_attributed Sample.encoding Sample.noDecoders (fun _ => []) Sample.epoch
    Sample.runHello [Sample.importHello] hobserved).2.2 Sample.importHello [] rfl _ _
    (by rw [hbefore]; exact nofun) hafter

end Zimbr.Relay
