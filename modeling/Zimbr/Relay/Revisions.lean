import Zimbr.Relay.Transactions

set_option autoImplicit false

/-!
# Revisions and retained events

Each change keeps the log, the stored records and the retained events in step.
-/
namespace Zimbr.Relay
open Library

section Log

variable {j j' : Journal}

theorem Silent.logged (h : Silent j j') (hl : Logged j) : Logged j' where
  numbered := by
    rw [h.log, h.sequence]
    exact hl.numbered
  bounded := h.sequence ▸ hl.bounded
  pruned := by
    rw [h.sequence, h.prunedThrough]
    exact hl.pruned
  revision := by
    rw [h.log]
    exact hl.revision
  retained := by
    rw [h.events, h.log, h.prunedThrough]
    exact hl.retained
  kept := by
    rw [h.events, h.log, h.prunedThrough]
    exact hl.kept
  latest k e he := by
    rw [h.log] at he
    rw [h.stored]
    exact hl.latest k e he
  sourced k r hr hnone := by
    rw [h.log] at hnone
    rw [h.stored] at hr
    exact hl.sourced k r hr hnone

theorem Published.logged {r : Record} (h : Published j r j') (hl : Logged j) : Logged j' := by
  obtain ⟨origin, hlog, now, hinsert⟩ := h.log
  have hget := Table.get?_insert hinsert
  have hroom := h.room
  have hpruned := hl.pruned
  have hlatest (k : Record.Kind × Bytes) :
      ChangeLog.latest (fun e : Event => e.record.key) j'.log k =
        if r.key = k then some { sequence := j.sequence + 1, record := r, origin := origin }
        else ChangeLog.latest (fun e : Event => e.record.key) j.log k := by
    rw [hlog, ChangeLog.latest_snoc]
  refine ⟨?_, ?_, ?_, ?_, ?_, ?_, ?_, ?_⟩
  · rw [hlog, h.sequence]
    exact hl.numbered.snoc rfl
  · rw [h.sequence]
    omega
  · rw [h.sequence, h.prunedThrough]
    omega
  · intro e he
    rw [hlog, List.mem_append, List.mem_singleton] at he
    rcases he with he | rfl
    · exact hl.revision e he
    · exact h.revision
  · intro seq row hrow
    rw [hget] at hrow
    rw [h.prunedThrough, hlog, List.mem_append]
    split_ifs at hrow with hseq
    · rw [Option.some.injEq] at hrow
      subst hrow
      refine ⟨by omega, Or.inr ?_⟩
      rw [hseq, List.mem_singleton]
    · obtain ⟨hlt, hmem⟩ := hl.retained seq row hrow
      exact ⟨hlt, Or.inl hmem⟩
  · intro e he hlt
    rw [hlog, List.mem_append, List.mem_singleton] at he
    rw [h.prunedThrough] at hlt
    rw [hget]
    rcases he with he | rfl
    · have hle := (hl.numbered.mem he).2
      rw [if_neg (by omega)]
      exact hl.kept e he hlt
    · exact ⟨_, if_pos rfl, rfl, rfl⟩
  · intro k e he
    rw [hlatest] at he
    rw [h.stored]
    split_ifs at he with hk
    · rw [Option.some.injEq] at he
      rw [if_pos hk.symm, ← he]
    · rw [if_neg (Ne.symm hk)]
      exact hl.latest k e he
  · intro k r' hr' hnone
    rw [hlatest] at hnone
    split_ifs at hnone with hk
    rw [h.stored, if_neg (Ne.symm hk)] at hr'
    exact hl.sourced k r' hr' hnone

theorem Pruned.logged {cut : Nat} (h : Pruned j cut j') (hl : Logged j) : Logged j' := by
  have hcut : cut ≤ j.sequence := by
    rcases h.reached with hzero | ⟨row, hrow⟩
    · omega
    · exact (hl.numbered.mem (hl.retained cut row hrow).2).2
  have hstored : ∀ k, stored j' k = stored j k := by
    rw [h.effect]
    rintro ⟨kind, id⟩
    cases kind <;> rfl
  have hlog : j'.log = j.log := by rw [h.effect]
  have hsequence : j'.sequence = j.sequence := by rw [h.effect]
  have hprunedThrough : j'.prunedThrough = max j.prunedThrough cut := by rw [h.effect]
  have hget (seq : Nat) : j'.events.get? seq = (j.events.get? seq).filter fun _ => !decide (seq ≤ cut) := by
    rw [h.effect]
    exact Table.get?_deleteWhere _ _ _
  have hpruned := hl.pruned
  refine ⟨?_, ?_, ?_, ?_, ?_, ?_, ?_, ?_⟩
  · rw [hlog, hsequence]
    exact hl.numbered
  · rw [hsequence]
    exact hl.bounded
  · rw [hsequence, hprunedThrough]
    omega
  · rw [hlog]
    exact hl.revision
  · intro seq row hrow
    rw [hget, Option.filter_eq_some_iff] at hrow
    obtain ⟨hlt, hmem⟩ := hl.retained seq row hrow.1
    have hafter : cut < seq := by simpa using hrow.2
    rw [hprunedThrough, hlog]
    exact ⟨by omega, hmem⟩
  · intro e he hlt
    rw [hlog] at he
    rw [hprunedThrough] at hlt
    obtain ⟨row, hrow, hrecord, horigin⟩ := hl.kept e he (by omega)
    refine ⟨row, ?_, hrecord, horigin⟩
    rw [hget, Option.filter_eq_some_iff]
    refine ⟨hrow, ?_⟩
    have hafter : cut < e.sequence := by omega
    simpa using hafter
  · intro k e he
    rw [hlog] at he
    rw [hstored]
    exact hl.latest k e he
  · intro k r hr hnone
    rw [hstored] at hr
    rw [hlog] at hnone
    exact hl.sourced k r hr hnone

end Log

end Zimbr.Relay
