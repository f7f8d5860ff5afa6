import Zimbr.Relay.Revisions

set_option autoImplicit false

/-!
# Resetting the journal

A reset clears the source under a new epoch, then holds the unsettled requests
one by one. The loop's invariant splits the requests into those still to come,
untouched, and those already held.
-/
namespace Zimbr.Relay
open Library

theorem HeldAs.congr {j j' j'' : Journal} {id : Bytes} (h : HeldAs j j' id)
    (hrow : j''.sendRequests.get? id = j'.sendRequests.get? id)
    (hparts : ∀ n, j''.sendParts.get? (id, n) = j'.sendParts.get? (id, n)) : HeldAs j j'' id := by
  cases h with
  | absent before after parts =>
    exact .absent before (hrow.trans after) fun n => (hparts n).trans (parts n)
  | settled row before settled after parts =>
    exact .settled row before settled (hrow.trans after) fun n => (hparts n).trans (parts n)
  | written row v revision before unsettled canonical held after parts =>
    exact .written row v revision before unsettled canonical held (hrow.trans after)
      fun n => (hparts n).trans (parts n)
  | legacy row v before unsettled incompatible held after parts =>
    exact .legacy row v before unsettled incompatible held (hrow.trans after)
      fun n => (hparts n).trans (parts n)

abbrev latestRequest (j : Journal) (id : Bytes) : Option Event :=
  ChangeLog.latest (fun e : Event => e.record.key) j.log (.request, id)

/-- The journal while the requests `rest` are still to be held. -/
structure Holding (j₀ : Journal) (epoch : Bytes) (rest : List (Bytes × SendRequestRow))
    (j : Journal) : Prop where
  epoch : j.epoch = epoch
  owners : j.sendOwners = j₀.sendOwners
  pruned : j.prunedThrough = 0
  logged : Logged j
  spared : Spared j₀ j
  nodup : (rest.map Prod.fst).Nodup
  before : ∀ r ∈ rest, j₀.sendRequests.get? r.1 = some r.2 ∧ unsettled r.2.state = true
  waiting : ∀ r ∈ rest, j.sendRequests.get? r.1 = some r.2 ∧
    (∀ n, j.sendParts.get? (r.1, n) = j₀.sendParts.get? (r.1, n)) ∧ latestRequest j r.1 = none
  done : ∀ id, (∀ r ∈ rest, r.1 ≠ id) → HeldAs j₀ j id

theorem clearSource_holding {j₀ j : Journal} {epoch : Bytes}
    (hrequests : j.sendRequests = j₀.sendRequests) (hparts : j.sendParts = j₀.sendParts)
    (howners : j.sendOwners = j₀.sendOwners) (huploads : j.uploads = j₀.uploads) :
    Holding j₀ epoch (j₀.sendRequests.select fun _ r => unsettled r.state) (clearSource epoch j) where
  epoch := rfl
  owners := howners
  pruned := rfl
  logged := by
    have hnone (e : Event) : e ∉ (clearSource epoch j).log := List.not_mem_nil
    refine ⟨rfl, Nat.zero_le _, Nat.le_refl _, fun e he => absurd he (hnone e), ?_,
      fun e he => absurd he (hnone e), ?_, ?_⟩
    · intro seq row hrow
      simp [clearSource] at hrow
    · intro k e he
      exact absurd (ChangeLog.latest_mem he) (hnone e)
    · rintro ⟨kind, id⟩ r hr -
      cases kind with
      | request => rfl
      | conversation => simp [stored, clearSource] at hr
      | message => simp [stored, clearSource] at hr
      | identity => simp [stored, clearSource] at hr
  spared := .of_eq huploads
  nodup := Table.select_keys_nodup _ _
  before r hr := Table.get?_select.mp hr
  waiting r hr := by
    have hget := (Table.get?_select.mp hr).1
    exact ⟨by rw [← hget, ← hrequests]; rfl, fun n => by rw [← hparts]; rfl, rfl⟩
  done id hid := by
    have hget : (clearSource epoch j).sendRequests.get? id = j₀.sendRequests.get? id := by
      rw [← hrequests]
      rfl
    have hsame (n : Nat) : (clearSource epoch j).sendParts.get? (id, n) = j₀.sendParts.get? (id, n) := by
      rw [← hparts]
      rfl
    cases hrow : j₀.sendRequests.get? id with
    | none => exact .absent hrow (hget.trans hrow) hsame
    | some row =>
      refine .settled row hrow ?_ (hget.trans hrow) hsame
      cases hs : unsettled row.state with
      | false => rfl
      | true => exact absurd rfl (hid (id, row) (Table.get?_select.mpr ⟨hrow, hs⟩))

section Hold

variable {j₀ j j' : Journal} {epoch : Bytes} {r : Bytes × SendRequestRow}
  {rest : List (Bytes × SendRequestRow)} {v : SendRequest}

theorem Holding.written (h : Holding j₀ epoch (r :: rest) j) (hid : v.requestId = r.1)
    (hheld : heldRequest r.2.record = some v)
    (hcanonical : (validId v.requestId && validId v.serverEpoch) = true) {n : Nat}
    (hupdated : Updated j { v with revision := n } j') : Holding j₀ epoch rest j' := by
  obtain ⟨hget, hparts, -⟩ := h.waiting r List.mem_cons_self
  obtain ⟨hbefore, hunsettled⟩ := h.before r List.mem_cons_self
  have hkeys := h.nodup
  rw [List.map_cons, List.nodup_cons] at hkeys
  have hother {id : Bytes} (hne : id ≠ r.1) : j'.sendRequests.get? id = j.sendRequests.get? id := by
    rw [hupdated.get?, if_neg]
    exact hid.symm ▸ hne
  have hotherParts {id : Bytes} (hne : id ≠ r.1) (n : Nat) :
      j'.sendParts.get? (id, n) = j.sendParts.get? (id, n) := by
    rw [hupdated.parts, writtenPart, if_neg]
    exact hid.symm ▸ hne
  have hpublished := hupdated.published (by
    change (j.sendRequests.get? v.requestId).isSome = true
    rw [hid, hget]
    rfl)
  have howners := hupdated.sendOwners
  have hspared : Spared j₀ j' := by
    refine h.spared.trans (hupdated.spared ?_) fun id row hrow => ?_
    · change (j.sendRequests.get? v.requestId).isSome = true
      rw [hid, hget]
      rfl
    · by_cases hne : id = r.1
      · rw [hne, hget, Option.some.injEq] at hrow
        refine ⟨writeRow { v with revision := n } row, ?_, ?_⟩
        · rw [hupdated.get?, hne, if_pos hid.symm, hget, ← hrow]
          rfl
        · rw [← hrow]
          exact (heldRequest_follows hheld).1.revision n
      · exact ⟨row, (hother hne).trans hrow, Follows.refl _⟩
  refine ⟨hupdated.epoch.trans h.epoch, howners.trans h.owners,
    hpublished.prunedThrough.trans h.pruned, hpublished.logged h.logged, hspared, hkeys.2,
    fun q hq => h.before q (List.mem_cons_of_mem r hq), fun q hq => ?_, fun id hdone => ?_⟩
  · have hne : q.1 ≠ r.1 := fun heq => hkeys.1 (heq ▸ List.mem_map_of_mem hq)
    obtain ⟨hqget, hqparts, hqlatest⟩ := h.waiting q (List.mem_cons_of_mem r hq)
    refine ⟨(hother hne).trans hqget, fun n => (hotherParts hne n).trans (hqparts n), ?_⟩
    obtain ⟨origin, hlog, -⟩ := hpublished.log
    rw [latestRequest, hlog, ChangeLog.latest_snoc, if_neg]
    · exact hqlatest
    · intro hkey
      have : v.requestId = q.1 := congrArg Prod.snd hkey
      exact hne (this ▸ hid)
  · by_cases hne : id = r.1
    · subst hne
      refine .written r.2 v n hbefore hunsettled hcanonical hheld ?_ fun m => ?_
      · rw [hupdated.get?, if_pos hid.symm, hget]
        rfl
      · rw [hupdated.parts, hparts]
        rfl
    · refine (h.done id fun q hq => ?_).congr (hother hne) (hotherParts hne)
      rcases List.mem_cons.mp hq with rfl | hq
      · exact Ne.symm hne
      · exact hdone q hq

/-- A request with an incompatible identifier keeps its events private. -/
theorem Holding.legacy (h : Holding j₀ epoch (r :: rest) j) (hid : v.requestId = r.1)
    (hheld : heldRequest r.2.record = some v)
    (hincompatible : (validId v.requestId && validId v.serverEpoch) = false) :
    Holding j₀ epoch rest (setLegacyRequest v j) := by
  obtain ⟨hget, hparts, hlatest⟩ := h.waiting r List.mem_cons_self
  obtain ⟨hbefore, hunsettled⟩ := h.before r List.mem_cons_self
  obtain ⟨-, hstate, hmessage⟩ := heldRequest_follows hheld
  have hkeys := h.nodup
  rw [List.map_cons, List.nodup_cons] at hkeys
  have hrows (id : Bytes) : (setLegacyRequest v j).sendRequests.get? id =
      if id = r.1 then some (writeRow v r.2) else j.sendRequests.get? id := by
    simp only [setLegacyRequest, Table.get?_modify, hid]
    split_ifs with heq
    · rw [heq, hget, Option.map_some, writeRow, hstate, hmessage]
    · rfl
  have hl := h.logged
  have hlogged : Logged (setLegacyRequest v j) := by
    refine ⟨hl.numbered, hl.bounded, hl.pruned, hl.revision, hl.retained, hl.kept, ?_, ?_⟩
    · rintro ⟨kind, id⟩ e he
      cases kind with
      | request =>
        have hne : id ≠ r.1 := by
          rintro rfl
          change latestRequest j r.1 = some e at he
          rw [hlatest] at he
          cases he
        have hstored := hl.latest (.request, id) e he
        simp only [stored, hrows, if_neg hne]
        exact hstored
      | conversation => exact hl.latest (.conversation, id) e he
      | message => exact hl.latest (.message, id) e he
      | identity => exact hl.latest (.identity, id) e he
    · rintro ⟨kind, id⟩ r hr hnone
      cases kind with
      | request => rfl
      | conversation => exact hl.sourced (.conversation, id) r hr hnone
      | message => exact hl.sourced (.message, id) r hr hnone
      | identity => exact hl.sourced (.identity, id) r hr hnone
  have hspared : Spared j₀ (setLegacyRequest v j) := by
    refine h.spared.trans (.of_eq rfl) fun id row hrow => ?_
    rw [hrows]
    split_ifs with hne
    · rw [hne, hget, Option.some.injEq] at hrow
      exact ⟨_, rfl, hrow ▸ (heldRequest_follows hheld).1⟩
    · exact ⟨row, hrow, Follows.refl _⟩
  refine ⟨h.epoch, h.owners, h.pruned, hlogged, hspared, hkeys.2,
    fun q hq => h.before q (List.mem_cons_of_mem r hq), fun q hq => ?_, fun id hdone => ?_⟩
  · have hne : q.1 ≠ r.1 := fun heq => hkeys.1 (heq ▸ List.mem_map_of_mem hq)
    obtain ⟨hqget, hqparts, hqlatest⟩ := h.waiting q (List.mem_cons_of_mem r hq)
    refine ⟨?_, hqparts, hqlatest⟩
    rw [hrows, if_neg hne]
    exact hqget
  · by_cases hne : id = r.1
    · subst hne
      refine .legacy r.2 v hbefore hunsettled hincompatible hheld ?_ hparts
      rw [hrows, if_pos rfl]
    · refine (h.done id fun q hq => ?_).congr ?_ fun _ => rfl
      · rcases List.mem_cons.mp hq with rfl | hq
        · exact Ne.symm hne
        · exact hdone q hq
      · rw [hrows, if_neg hne]

end Hold

variable {c c' : Conn Journal Bytes} {now : Int} {u : Unit}

theorem holdRequest_ok {j₀ : Journal} {epoch : Bytes} {r : Bytes × SendRequestRow}
    {rest : List (Bytes × SendRequestRow)} (hk : Keyed j₀) (hc : Holding j₀ epoch (r :: rest) c.db)
    (h : (holdRequest now r).run c = (.ok u, c')) : Holding j₀ epoch rest c'.db := by
  obtain ⟨v, c₁, hv, h⟩ := Sql.bind_ok h
  obtain ⟨hv, hc₁⟩ := Sql.orThrow_ok hv
  rw [hc₁] at h
  have hid : v.requestId = r.1 :=
    (heldRequest_follows hv).1.requestId.trans
      (hk _ _ (hc.before r List.mem_cons_self).1).requestId
  split_ifs at h with hcanonical
  · obtain ⟨w, c₂, hwrite, h⟩ := Sql.bind_ok h
    rw [(Sql.pure_ok h).2]
    obtain ⟨hw, hupdated⟩ := updateRequest_ok hwrite
    rw [hw] at hupdated
    exact hc.written hid hv hcanonical hupdated
  · rw [Sql.execute_ok h]
    exact hc.legacy hid hv (by simpa using hcanonical)

theorem statement_fresh {α : Type} {f : Journal → Option (α × Journal)} {a : α}
    (h : (Sql.statement f : Tx α).run c = (.ok a, c')) : c'.fresh = c.fresh :=
  (Sql.statement_ok h).2

theorem reset_ok (hk : Keyed c.db) (h : (reset now).run c = (.ok u, c')) :
    ∃ epoch ∈ c.fresh, ResetTo epoch c.db c'.db := by
  obtain ⟨_, c₁, hcache, h⟩ := Sql.bind_ok h
  obtain ⟨items, c₂, hitems, h⟩ := Sql.bind_ok h
  obtain ⟨epoch, c₃, hepoch, h⟩ := Sql.bind_ok h
  obtain ⟨_, c₄, hclear, h⟩ := Sql.bind_ok h
  obtain ⟨_, c₅, hloop, hmark⟩ := Sql.bind_ok h
  have hdb₁ := Sql.execute_ok hcache
  obtain ⟨hitems', hdb₂⟩ := Sql.query_ok hitems
  obtain ⟨hdrawn, hdb₃⟩ := Sql.draw_ok hepoch
  have hdb₄ := Sql.execute_ok hclear
  have hmem : epoch ∈ c.fresh := by
    rw [← statement_fresh hcache, ← statement_fresh hitems]
    exact hdrawn
  have hstart : Holding c.db epoch items c₄.db := by
    rw [hitems', hdb₄, hdb₃, hdb₂, hdb₁]
    exact clearSource_holding rfl rfl rfl rfl
  have hend : Holding c.db epoch [] c₅.db :=
    Sql.eachLeft_ok (I := fun rest d => Holding c.db epoch rest d.db)
      (fun r rest d d' u hd hrun => holdRequest_ok hk hd hrun) hloop hstart
  refine ⟨epoch, hmem, ?_⟩
  rw [Sql.execute_ok hmark]
  have hl := hend.logged
  exact ⟨hend.epoch,
    fun id => (hend.done id fun r hr => absurd hr List.not_mem_nil).congr rfl fun _ => rfl,
    hend.owners, hend.pruned,
    ⟨hl.numbered, hl.bounded, hl.pruned, hl.revision, hl.retained, hl.kept, hl.latest, hl.sourced⟩,
    rfl, hend.spared⟩

end Zimbr.Relay
