import Zimbr.Relay.Dispatch

set_option autoImplicit false

/-!
# Revision and event invariant

Every stored record shows its latest event, except a request that nothing
updated since the last reset. A rolled-back transaction changes nothing.
-/
namespace Zimbr.Relay
open Library

structure Coherent (j : Journal) : Prop where
  logged : Logged j
  recorded : ∀ id r, stored j (.request, id) = some r → latestRequest j id = none →
    ∃ v, r = .request v ∧ (id, v) ∈ j.held

theorem Inherited.coherent {j : Journal} (h : Inherited j) : Coherent j where
  logged := h.logged
  recorded id r hr hnone := by
    simp only [stored, Option.map_eq_some_iff] at hr
    obtain ⟨row, hrow, rfl⟩ := hr
    exact ⟨row.record, rfl, h.recorded id row hrow hnone⟩

section Changes

variable {scope : Scope} {j j' : Journal}

theorem Silent.coherent (h : Silent j j') (hc : Coherent j) : Coherent j' where
  logged := h.logged hc.logged
  recorded id r hr hnone := by
    rw [h.stored] at hr
    rw [latestRequest, h.log] at hnone
    rw [h.held]
    exact hc.recorded id r hr hnone

theorem Published.coherent {r : Record} (h : Published j r j') (hc : Coherent j) :
    Coherent j' where
  logged := h.logged hc.logged
  recorded id r' hr' hnone := by
    obtain ⟨origin, hlog, -⟩ := h.log
    rw [latestRequest, hlog, ChangeLog.latest_snoc] at hnone
    split_ifs at hnone with hkey
    rw [h.stored, if_neg (Ne.symm hkey)] at hr'
    rw [h.held]
    exact hc.recorded id r' hr' hnone

theorem Pruned.coherent {cut : Nat} (h : Pruned j cut j') (hc : Coherent j) : Coherent j' where
  logged := h.logged hc.logged
  recorded := by
    rw [h.effect]
    exact hc.recorded

theorem ResetTo.coherent {epoch : Bytes} (h : ResetTo epoch j j') : Coherent j' where
  logged := h.logged
  recorded id r hr _ := by
    simp only [stored, Option.map_eq_some_iff] at hr
    obtain ⟨row, hrow, rfl⟩ := hr
    have hmem : (id, row) ∈ j'.sendRequests.rows := (Table.get?_eq_some_iff _ _ _).mp hrow
    refine ⟨row.record, rfl, ?_⟩
    rw [h.held]
    exact List.mem_map_of_mem (f := fun r : Bytes × SendRequestRow => (r.1, r.2.record)) hmem

theorem Change.coherent (h : Change scope j j') (hc : Coherent j) : Coherent j' := by
  cases h with
  | quiet _ silent => exact silent.coherent hc
  | published r _ _ published => exact published.coherent hc
  | request v row found _ _ _ updated =>
    exact (updated.published (by rw [found]; rfl)).coherent hc
  | accepted input owner v h => exact h.published.coherent hc
  | pruned cut h => exact h.coherent hc
  | ledger _ h => exact h.silent.coherent hc
  | reset epoch _ h => exact h.coherent

theorem Changed.coherent (h : Changed scope j j') (hc : Coherent j) : Coherent j' := by
  induction h with
  | refl => exact hc
  | tail _ h ih => exact h.coherent ih

end Changes

theorem run_coherent {enc : Encoding} {p : Process} (h : p.Valid) (hc : Coherent p.journal)
    (actions : List Action) : Coherent ((relay enc).run p actions).journal :=
  ((relay enc).run_invariant (I := fun q => q.Valid ∧ Coherent q.journal)
    (fun _ a hq => ⟨(hq.1.step a).1, (hq.1.step a).2.changed.coherent hq.2⟩) p actions ⟨h, hc⟩).2

namespace Coherent

variable {j : Journal} (h : Coherent j)
include h

theorem retained_iff (n : Nat) :
    (∃ row, j.events.get? n = some row) ↔ j.prunedThrough < n ∧ n ≤ j.sequence := by
  constructor
  · rintro ⟨row, hrow⟩
    obtain ⟨hlt, hmem⟩ := h.logged.retained n row hrow
    exact ⟨hlt, (h.logged.numbered.mem hmem).2⟩
  · rintro ⟨hlt, hle⟩
    obtain ⟨e, he, rfl⟩ := h.logged.numbered.get (i := n) (by omega)
    obtain ⟨row, hrow, -⟩ := h.logged.kept e he hlt
    exact ⟨row, hrow⟩

theorem shows_latest {k : Record.Kind × Bytes} {r : Record} (hr : stored j k = some r) :
    (∃ e ∈ j.log, e.record = r ∧ r.revision = e.sequence ∧
      ∀ e' ∈ j.log, e'.record.key = k → e'.sequence ≤ e.sequence) ∨
    (∀ e ∈ j.log, e.record.key ≠ k) ∧ ∃ id v, k = (.request, id) ∧ r = .request v ∧
      (id, v) ∈ j.held := by
  have hl := h.logged
  cases hlatest : ChangeLog.latest (fun e : Event => e.record.key) j.log k with
  | some e =>
    have hmem := ChangeLog.latest_mem hlatest
    have hrecord : e.record = r := by
      have hstored := hl.latest k e hlatest
      rw [hr, Option.some.injEq] at hstored
      exact hstored.symm
    refine Or.inl ⟨e, hmem, hrecord, hrecord ▸ hl.revision e hmem, fun e' he' hk => ?_⟩
    exact hl.numbered.latest_max hlatest he' hk
  | none =>
    obtain ⟨kind, id⟩ := k
    obtain rfl : kind = .request := hl.sourced (kind, id) r hr hlatest
    obtain ⟨v, hv, hheld⟩ := h.recorded id r hr hlatest
    exact Or.inr ⟨ChangeLog.latest_eq_none.mp hlatest, id, v, rfl, hv, hheld⟩

end Coherent

/-- In every state a run commits, the events of the epoch are numbered in
order, the retained ones are exactly those after the pruned ones, and every
record carries the number of its latest event, which shows it; only a request
that nothing updated since the last reset has no event. -/
theorem journal_run_coherent (enc : Encoding) {p : Process} (initial : p.Initial)
    (actions : List Action) :
    let j := ((relay enc).run p actions).journal
    j.log.map Event.sequence = List.range' 1 j.sequence ∧
    (∀ n, (∃ row, j.events.get? n = some row) ↔ j.prunedThrough < n ∧ n ≤ j.sequence) ∧
    (∀ n row, j.events.get? n = some row →
      { sequence := n, record := row.record, origin := row.origin } ∈ j.log ∧
        row.record.revision = n) ∧
    ∀ k r, stored j k = some r →
      (∃ e ∈ j.log, e.record = r ∧ r.revision = e.sequence ∧
        (∀ e' ∈ j.log, e'.record.key = k → e'.sequence ≤ e.sequence) ∧
        ∀ row, j.events.get? e.sequence = some row → row.record = r) ∨
      (∀ e ∈ j.log, e.record.key ≠ k) ∧ ∃ id v, k = (.request, id) ∧ r = .request v ∧
        (id, v) ∈ j.held := by
  intro j
  have h : Coherent j := run_coherent initial.valid initial.inherited.coherent actions
  have hshown (n : Nat) (row : EventRow) (hrow : j.events.get? n = some row) :
      { sequence := n, record := row.record, origin := row.origin } ∈ j.log :=
    (h.logged.retained n row hrow).2
  refine ⟨h.logged.numbered, h.retained_iff, fun n row hrow => ?_, fun k r hr => ?_⟩
  · exact ⟨hshown n row hrow, h.logged.revision _ (hshown n row hrow)⟩
  · refine (h.shows_latest hr).imp_left fun ⟨e, he, hrecord, hrevision, hmax⟩ => ?_
    refine ⟨e, he, hrecord, hrevision, hmax, fun row hrow => ?_⟩
    have hsame := h.logged.numbered.injective (hshown _ row hrow) he rfl
    rw [← hrecord, ← hsame]

theorem journal_run_coherent_hello :
    let j := ((relay Sample.encoding).run (.new Sample.epoch) Sample.markHello).journal
    j.sequence = 2 ∧ ((∃ row, j.events.get? 2 = some row) ↔ j.prunedThrough < 2 ∧ 2 ≤ j.sequence) :=
  ⟨by decide +kernel, (journal_run_coherent Sample.encoding (Process.new_initial Sample.epoch)
    Sample.markHello).2.1 2⟩

end Zimbr.Relay
