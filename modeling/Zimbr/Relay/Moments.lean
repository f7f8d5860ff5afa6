import Zimbr.Relay.Attribution
import Zimbr.Relay.Sections

set_option autoImplicit false

/-!
# Where a pass links a text request

A pass looks for the echo of one request after another, each time in the journal
that its imports and its earlier requests left.
-/
namespace Zimbr.Relay
open Library

/-- The imports of a pass and its requests, up to the query for the echo of the
request that comes after `n` others. -/
def seeking (enc : Encoding) (now : Int) (first parts : List IngestOp)
    (imports : Bytes → List IngestOp) (n : Nat) : Tx (Option (Bytes × SendRequestRow)) := do
  Sql.each (perform enc now) first
  Sql.each (perform enc now) parts
  let items ← Sql.query pendingRequests
  Sql.each (reconcileRequest enc now imports) (items.take n)
  match items[n]? with
  | none => return none
  | some item => do
    Sql.execute? (recordObservation now item.2.record.requestId)
    return some item

def reconciling (enc : Encoding) (now : Int) (resets : Bool) (first parts : List IngestOp)
    (imports : Bytes → List IngestOp) (n : Nat) : Tx (Option (Bytes × SendRequestRow)) := do
  if resets then reset now
  seeking enc now first parts imports n

section Decisions

variable {c c' : Conn Journal Bytes} {now : Int} {k : SendKey} {mid : Bytes} {u : Unit}

theorem Ingested.links {j j' : Journal} (h : Ingested j j') (ha : Attributed j) :
    Attributed j' ∧ ∀ k mid, linked j' k = some mid ↔ linked j k = some mid := ha.plain h.changed

/-- What the record of a text request links anew is its text, to a message that no rival waits
for. -/
theorem reconciled_link {j : Journal} {item : Bytes × SendRequestRow} {v : SendRequest}
    {n : Option Nat} (ha : Attributed j) (hrow : j.sendRequests.get? item.1 = some item.2)
    (hepoch : item.2.epoch = j.epoch) (hmessage : item.2.record.messageId = none)
    (h : reconciled j now item.2.record item.2 = some v)
    (hbefore : linkOf item.2.record n ≠ some mid) (hafter : linkOf v n = some mid) :
    n = none ∧ v.messageId = some mid ∧ Alone j (item.1, none) mid := by
  rcases reconciled_links h with ⟨hsame, -⟩ | ⟨found, m, hmessage', hparts, -, hdispatched, hecho,
    halone, haloneParts⟩
  · cases n with
    | none =>
      rcases hsame.message with heq | ⟨-, hnone⟩
      · exact absurd (heq.symm.trans hafter) hbefore
      · rw [linkOf, hnone] at hafter
        cases hafter
    | some n =>
      rw [linkOf_part, hsame.parts, ← linkOf_part] at hafter
      exact absurd hafter hbefore
  · cases n with
    | some n =>
      rw [linkOf_part, hparts, ← linkOf_part] at hafter
      exact absurd hafter hbefore
    | none =>
      obtain rfl : found = mid := Option.some.inj (hmessage'.symm.trans hafter)
      have hunlinked : linked j (item.1, none) = none := by
        rw [linked_eq ha.keyed ha.mirrored, hrow, Option.bind_some, linkOf, hmessage]
      refine ⟨rfl, hmessage', hunlinked, m, (Table.get?_select.mp hecho).1, ?_⟩
      exact text_unrivalled (ha.keyed _ _ hrow) hrow hepoch
        ((ha.sound _ _ hrow).bounded hdispatched) hecho halone haloneParts

/-- A text request is linked by the record that `reconciled` gives for it. -/
theorem reconcileRequest_link {enc : Encoding} {imports : Bytes → List IngestOp}
    {item : Bytes × SendRequestRow} (ha : Attributed c.db)
    (hrow : c.db.sendRequests.get? item.1 = some item.2) (hepoch : item.2.epoch = c.db.epoch)
    (hsettled : ¬ Live item.2.state)
    (h : (reconcileRequest enc now imports item).run c = (.ok u, c'))
    (hbefore : linked c.db k ≠ some mid) (hafter : linked c'.db k = some mid) :
    ∃ d v, (Sql.execute? (recordObservation now item.2.record.requestId) : Tx Unit).run c =
        (.ok (), d) ∧ k = (item.1, none) ∧ reconciled d.db now item.2.record item.2 = some v ∧
      v.messageId = some mid ∧ Alone d.db k mid := by
  have hend : Attributed c'.db := by
    have hrewritten : Rewritten { reconciles := true } [item.1] c.db c'.db :=
      reconcileRequest_ok rfl (ha.keyed _ _ hrow) hrow hepoch hsettled h
    exact (ha.changed hrewritten.changed rfl rfl (sincere_silent rfl rfl)).attributed
  obtain ⟨_, c₁, hrecord, h⟩ := Sql.bind_ok h
  obtain ⟨hsends, hsilent⟩ := recordObservation_silent (Sql.execute?_ok hrecord)
  obtain ⟨ha₁, hlinks₁⟩ := (Ingested.silent hsends hsilent).links ha
  rw [← hsends.sendRequests] at hrow
  rw [← hsends.epoch] at hepoch
  rw [ne_eq, ← hlinks₁] at hbefore
  have hok := ha₁.keyed _ _ hrow
  split at h
  · have hrefreshed : Rewritten {} [item.1] c₁.db c'.db :=
      refreshRequest_ok hok hrow hepoch hsettled h
    exact absurd (((ha₁.plain hrefreshed.changed).2 k mid).mp hafter) hbefore
  · next hmessage =>
    obtain ⟨change, c₂, hchange, h⟩ := Sql.bind_ok h
    obtain ⟨hchange, hdb₂⟩ := Sql.query_ok hchange
    cases change with
    | none =>
      rw [(Sql.pure_ok h).2, hdb₂] at hafter
      exact absurd hafter hbefore
    | some v =>
      obtain ⟨w, c₃, hwrite, h⟩ := Sql.bind_ok h
      obtain ⟨rfl, hupdated⟩ := updateRequest_ok hwrite
      rw [(Sql.pure_ok h).2] at hafter hend
      rw [hdb₂] at hupdated
      have hid : v.requestId = item.1 :=
        (reconciled_follows hchange.symm).requestId.trans hok.requestId
      obtain ⟨id, n⟩ := k
      have hown : linked c₁.db (item.1, n) = linkOf item.2.record n := by
        rw [linked_eq ha₁.keyed ha₁.mirrored, hrow, Option.bind_some]
      -- the write changes no other request
      rw [hupdated.linked_eq ha₁.keyed hend.keyed ha₁.mirrored hend.mirrored (hid ▸ hrow)] at hafter
      change (if id = v.requestId then linkOf v n else _) = _ at hafter
      rw [hid] at hafter
      split_ifs at hafter with hkey
      swap
      · exact absurd hafter hbefore
      subst hkey
      rw [hown] at hbefore
      obtain ⟨rfl, hlinks, halone⟩ :=
        reconciled_link ha₁ hrow hepoch hmessage hchange.symm hbefore hafter
      exact ⟨c₁, v, hrecord, rfl, hchange.symm, hlinks, halone⟩

theorem seeking_link {enc : Encoding} {first parts last : List IngestOp}
    {imports : Bytes → List IngestOp} (ha : Attributed c.db) (h : (do
      Sql.each (perform enc now) first
      reconcile enc now parts imports
      Sql.each (perform enc now) last : Tx Unit).run c = (.ok u, c'))
    (hbefore : linked c.db k ≠ some mid) (hafter : linked c'.db k = some mid) :
    ∃ n item d v, (seeking enc now first parts imports n).run c = (.ok (some item), d) ∧
      k = (item.1, none) ∧ reconciled d.db now item.2.record item.2 = some v ∧
      v.messageId = some mid ∧ Alone d.db k mid := by
  obtain ⟨_, c₁, hfirst, h⟩ := Sql.bind_ok h
  obtain ⟨_, c₂, hreconcile, hlast⟩ := Sql.bind_ok h
  obtain ⟨_, c₃, hparts, h⟩ := Sql.bind_ok hreconcile
  obtain ⟨items, c₄, hitems, hloop⟩ := Sql.bind_ok h
  obtain ⟨ha₁, hlinks₁⟩ := (performAll_ok hfirst).links ha
  obtain ⟨ha₃, hlinks₃⟩ := (performAll_ok hparts).links ha₁
  obtain ⟨hpending, hdb₄⟩ := Sql.query_ok hitems
  rw [← hdb₄] at ha₃ hlinks₃ hpending
  -- the imports before and after the loop link nothing
  have hreconciled : Attributed c₂.db := by
    subst hpending
    have hchanged : Rewritten { reconciles := true } _ c₄.db c₂.db :=
      reconcileSome_ok rfl ha₃.keyed (List.Sublist.refl _) hloop
    exact (ha₃.changed hchanged.changed rfl rfl (sincere_silent rfl rfl)).attributed
  have hstart : ¬ linked c₄.db k = some mid := by rwa [hlinks₃, hlinks₁]
  have hend : linked c₂.db k = some mid := by
    rwa [← ((performAll_ok hlast).links hreconciled).2]
  obtain ⟨n, item, d, d', hitem, htake, hrun, hnot, hlinked⟩ :=
    Sql.each_first (P := fun j => linked j k = some mid) hloop hstart hend
  obtain ⟨hnodup, hspec⟩ := pendingRequests_spec c₄.db
  rw [← hpending] at hnodup hspec
  obtain ⟨hrow, hsettled, hepoch⟩ := hspec item (List.mem_of_getElem? hitem)
  have hrewritten : Rewritten { reconciles := true } ((items.take n).map Prod.fst) c₄.db d.db :=
    reconcileSome_ok rfl ha₃.keyed (hpending ▸ List.take_sublist n items) htake
  have had := (ha₃.changed hrewritten.changed rfl rfl (sincere_silent rfl rfl)).attributed
  have hlater : item.1 ∉ (items.take n).map Prod.fst := by
    rw [← List.take_append_drop n items, List.map_append] at hnodup
    have hrest : item ∈ items.drop n := by
      refine List.mem_of_getElem? (i := 0) ?_
      rw [List.getElem?_drop]
      exact hitem
    exact fun hmem => (List.nodup_append.mp hnodup).2.2 _ hmem _ (List.mem_map_of_mem hrest) rfl
  rw [← hrewritten.others _ hlater] at hrow
  rw [← hrewritten.epoch] at hepoch
  obtain ⟨e, v, hrecord, hk, hreconciled, hmessage, halone⟩ :=
    reconcileRequest_link had hrow hepoch hsettled hrun hnot hlinked
  refine ⟨n, item, e, v, ?_, hk, hreconciled, hmessage, halone⟩
  refine Sql.bind_run_ok hfirst (Sql.bind_run_ok hparts (Sql.bind_run_ok hitems
    (Sql.bind_run_ok htake ?_)))
  rw [hitem]
  exact Sql.bind_run_ok hrecord rfl

/-- Within a pass, a text request is linked by the query for its own echo, in the
journal that the pass has made by then. -/
theorem ingest_link {enc : Encoding} {resets : Bool} {first parts last : List IngestOp}
    {imports : Bytes → List IngestOp} (ha : Attributed c.db)
    (h : (ingest enc now resets first parts imports last).run c = (.ok u, c'))
    (hbefore : linked c.db k ≠ some mid) (hafter : linked c'.db k = some mid) :
    ∃ n item d v, (reconciling enc now resets first parts imports n).run c.calm =
        (.ok (some item), d) ∧ k = (item.1, none) ∧
      reconciled d.db now item.2.record item.2 = some v ∧ v.messageId = some mid ∧
      Alone d.db k mid := by
  obtain ⟨c₁, c₂, hdb₁, hfresh₁, h, hend⟩ := Sql.transaction_ok h
  have hcalm : c₁.calm = c.calm := by simp [Conn.calm, hdb₁, hfresh₁]
  rw [hend] at hafter
  rw [← hdb₁] at ha hbefore
  rw [← hcalm]
  suffices hrun : ∃ n item d v, (reconciling enc now resets first parts imports n).run c₁ =
        (.ok (some item), d) ∧ k = (item.1, none) ∧
      reconciled d.db now item.2.record item.2 = some v ∧ v.messageId = some mid ∧
      Alone d.db k mid by
    obtain ⟨n, item, d, v, hrun, hrest⟩ := hrun
    exact ⟨n, item, d.calm, v, Sql.run_calm hrun, hrest⟩
  unfold reconciling
  dsimp only at h
  split_ifs at h ⊢ with hresets
  · obtain ⟨_, c₃, hreset, h⟩ := Sql.bind_ok h
    obtain ⟨epoch, hepoch, hreset'⟩ := reset_ok ha.keyed hreset
    have ha₃ := ha.reset hreset'
    have hkept : linked c₃.db k ≠ some mid := by
      rcases hreset'.linked ha.keyed ha₃.keyed ha.mirrored ha₃.mirrored k with hnone | hsame
      · rw [hnone]
        exact nofun
      · rwa [hsame]
    obtain ⟨n, item, d, v, hrun, hrest⟩ := seeking_link ha₃ h hkept hafter
    exact ⟨n, item, d, v, Sql.bind_run_ok hreset hrun, hrest⟩
  · exact seeking_link ha h hbefore hafter

end Decisions

end Zimbr.Relay
