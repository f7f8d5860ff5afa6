import Zimbr.Relay.Reactions

set_option autoImplicit false

/-!
# Reactions and the messages that show them

What one write of a message does to the message that a source shows, and what
the projection reads of it.
-/
namespace Zimbr.Relay
open Library

structure Whole (enc : Encoding) (j : Journal) : Prop where
  sourced : Sourced enc j
  recorded : ∀ id r, j.messages.get? id = some r → ∃ n, r.record = { r.content with revision := n }
  parted : ∀ id r, j.messages.get? id = some r → (Enrichment.stored j id).parts.isSome = true

def Reactions.shown (j : Journal) (guid : Bytes) : Option Message :=
  (Reactions.message j guid).map Reactions.Stored.value

section Sections

variable {enc : Encoding} {j : Journal} {v : Message} {previous : Option Message}
  {prepared : Enrichment.Prepared}

theorem persisted_previews (hfree : enc.CollisionFree)
    (h : Enrichment.prepare enc j v previous = .ok prepared)
    (hdigested : Enrichment.SectionsDigested enc (Enrichment.stored j v.id))
    (hprevious : ∀ old, previous = some old → old.id = v.id)
    (hnew : previous = none → Enrichment.stored j v.id = {}) :
    (Enrichment.persisted prepared (Enrichment.stored j v.id)).previews.map Prod.snd =
      (Enrichment.merged j v previous).linkPreviews := by
  rw [Enrichment.persisted, (Enrichment.prepare_ok h).2.2]
  exact Enrichment.replacement_stored hfree.previews hdigested.previews
    (Enrichment.merged_unsupplied hprevious hnew).1

theorem persisted_reactions (hfree : enc.CollisionFree)
    (h : Enrichment.prepare enc j v previous = .ok prepared)
    (hdigested : Enrichment.SectionsDigested enc (Enrichment.stored j v.id))
    (hprevious : ∀ old, previous = some old → old.id = v.id)
    (hnew : previous = none → Enrichment.stored j v.id = {}) :
    (Enrichment.persisted prepared (Enrichment.stored j v.id)).reactions.map Prod.snd =
      (Enrichment.merged j v previous).reactions := by
  rw [Enrichment.persisted, (Enrichment.prepare_ok h).2.2]
  exact Enrichment.replacement_stored hfree.reactions hdigested.reactions
    (Enrichment.merged_unsupplied hprevious hnew).2

theorem merged_parts : (Enrichment.merged j v previous).parts.isSome = true :=
  (Enrichment.withParts_fields _).2.2.2.2

theorem persisted_parts (hfree : enc.CollisionFree)
    (h : Enrichment.prepare enc j v previous = .ok prepared)
    (hdigested : Enrichment.SectionsDigested enc (Enrichment.stored j v.id)) :
    (Enrichment.persisted prepared (Enrichment.stored j v.id)).parts.map Prod.snd =
      (Enrichment.merged j v previous).parts := by
  rw [Enrichment.persisted, (Enrichment.prepare_ok h).2.2]
  refine Enrichment.replacement_stored hfree.parts hdigested.parts fun hnone => ?_
  have hsome : (Enrichment.merged j v previous).parts.isSome = true := merged_parts
  rw [hnone] at hsome
  cases hsome

theorem persisted_unchanged (h : Enrichment.prepare enc j v previous = .ok prepared)
    (hchanged : prepared.changed = false) (old : Sections) :
    Enrichment.persisted prepared old = old := by
  rw [Enrichment.prepare_eq] at h
  dsimp only at h
  split_ifs at h
  cases hinline : Enrichment.inlineMessage enc (Enrichment.merged j v previous) with
  | error e =>
    rw [hinline] at h
    cases h
  | ok value =>
    rw [hinline, Except.ok.injEq] at h
    rw [← h] at hchanged ⊢
    simp only [Bool.or_eq_false_iff, Option.isSome_eq_false_iff, Option.isNone_iff_eq_none]
      at hchanged
    obtain ⟨⟨⟨hattachments, hpreviews⟩, hreactions⟩, hparts⟩ := hchanged
    simp only [Enrichment.persisted, hattachments, hpreviews, hreactions, hparts]
    rfl

theorem merged_supplied {parts : List MessagePart} (h : v.parts = some parts) :
    (Enrichment.merged j v previous).parts = some parts := by
  have hparts : (Enrichment.mergePrevious j v previous).parts = some parts := by
    cases previous <;> exact h
  rw [Enrichment.merged, Enrichment.withParts, hparts]
  exact hparts

theorem inlineMessage_place {m value : Message} (h : Enrichment.inlineMessage enc m = .ok value) :
    value.conversationId = m.conversationId ∧ value.kind = m.kind := by
  unfold Enrichment.inlineMessage at h
  dsimp only at h
  split at h
  · cases h
  · rw [Except.ok.injEq] at h
    rw [← h]
    exact ⟨rfl, rfl⟩

theorem merged_place : (Enrichment.merged j v previous).conversationId = v.conversationId ∧
    (Enrichment.merged j v previous).kind = v.kind := by
  have hprevious : (Enrichment.mergePrevious j v previous).conversationId = v.conversationId ∧
      (Enrichment.mergePrevious j v previous).kind = v.kind := by
    cases previous <;> exact ⟨rfl, rfl⟩
  unfold Enrichment.merged Enrichment.withParts
  split
  · exact hprevious
  · exact hprevious

end Sections

section Message

variable {enc : Encoding} {c c' : Conn Journal Bytes} {source : Bytes} {row date now : Int}
  {value : Message} {origin : Origin} {u : Unit}

theorem message_recorded (hs : Sourced enc c.db)
    (hr : ∀ id r, c.db.messages.get? id = some r → ∃ n, r.record = { r.content with revision := n })
    (h : (message enc now source row date value origin).run c = (.ok u, c')) :
    ∀ id r, c'.db.messages.get? id = some r → ∃ n, r.record = { r.content with revision := n } := by
  obtain ⟨_, c₁, hforget, h⟩ := Sql.bind_ok h
  obtain ⟨_, c₂, hobserve, h⟩ := Sql.bind_ok h
  have hmeets := (observeActors_meets hobserve).1
  rw [Sql.execute_ok hforget] at hmeets
  have hd : Distinct c₂.db := (hs.forget.meets hmeets).distinct
  have hr₂ : ∀ id r, c₂.db.messages.get? id = some r →
      ∃ n, r.record = { r.content with revision := n } := by
    rw [hmeets.messages]
    exact hr
  obtain ⟨found, c₃, hfound, h⟩ := Sql.bind_ok h
  obtain ⟨rfl, hdb₃⟩ := Sql.query_ok hfound
  obtain ⟨id, c₄, hid, h⟩ := Sql.bind_ok h
  obtain ⟨hdb₄, hkey⟩ := idOf_ok hid
  obtain ⟨result, c₅, hresult, h⟩ := Sql.bind_ok h
  obtain ⟨-, hdb₅⟩ := Sql.query_ok hresult
  obtain ⟨prepared, c₆, hprepared, h⟩ := Sql.bind_ok h
  rw [(Sql.lift_ok hprepared).2] at h
  have hdb : c₅.db = c₂.db := hdb₅.trans (hdb₄.trans hdb₃)
  dsimp only at h
  split at h
  · split_ifs at h
    · rw [Sql.execute_ok h, hdb]
      exact Table.all_modify hr₂ fun _ h => h
    · rw [(Sql.pure_ok h).2, hdb]
      exact hr₂
  · obtain ⟨seq, c₇, hnext, h⟩ := Sql.bind_ok h
    obtain ⟨_, c₈, hset, h⟩ := Sql.bind_ok h
    obtain ⟨_, c₉, hpersist, hevent⟩ := Sql.bind_ok h
    have hnext := next_meets hnext
    rw [hdb] at hnext
    have hmessages : c'.db.messages = c₈.db.messages := by
      rw [(event_meets hevent).messages, Sql.execute_ok hpersist]
    have hfound₇ : findMessage source c₇.db = findMessage source c₂.db := by
      unfold findMessage
      rw [hnext.messages]
    have hd₇ : Distinct c₇.db := by
      unfold Distinct
      rw [hnext.messages]
      exact hd
    have hwritten := (upsertMessage_get? hd₇ (Sql.execute?_ok hset)
      fun r hr => hkey r (hfound₇ ▸ hr)).1
    rw [hmessages]
    intro id' r hrow
    rw [hwritten, hnext.messages] at hrow
    split_ifs at hrow
    · rw [← Option.some.inj hrow]
      exact ⟨seq, rfl⟩
    · exact hr₂ id' r hrow

/-- What a write shows of the message that it writes. -/
structure Shows (before : Option Message) (value after : Message) : Prop where
  id : ∀ old, before = some old → after.id = old.id
  conversationId : after.conversationId = value.conversationId
  kind : after.kind = value.kind
  parts : ∀ parts, value.parts = some parts → after.parts = some parts
  previews : after.linkPreviews =
    value.linkPreviews.orElse fun _ => before.bind fun old => old.linkPreviews
  reactions : after.reactions = value.reactions.orElse fun _ => before.bind fun old => old.reactions

theorem stored_message {j : Journal} {id : Bytes} {r : MessageRow} (hd : Distinct j)
    (hr : j.messages.get? id = some r) :
    Reactions.message j r.source = some {
      source := r.source, row := r.sourceRow, date := r.dateNs
      value := Enrichment.full j r.record } := by
  rw [Reactions.message, (findMessage_some hd).mpr ⟨hr, rfl⟩]
  rfl

theorem Meets.message_eq {j j' : Journal} (h : Meets j j') (guid : Bytes) :
    Reactions.message j' guid = Reactions.message j guid := by
  unfold Reactions.message findMessage Enrichment.full Enrichment.stored
  rw [h.messages, h.enrichment]

theorem Whole.meets {j j' : Journal} (hw : Whole enc j) (h : Meets j j') : Whole enc j' where
  sourced := hw.sourced.meets h
  recorded := by
    rw [h.messages]
    exact hw.recorded
  parted := by
    unfold Enrichment.stored
    rw [h.messages, h.enrichment]
    exact hw.parted

theorem Stores.enrichment_eq {j j' : Journal} {id : Bytes} {prepared : Enrichment.Prepared}
    {row' : MessageRow} (h : Stores enc j j' source row value id prepared row') (id' : Bytes) :
    Enrichment.stored j' id' =
      if id' = id then Enrichment.persisted prepared (Enrichment.stored j id)
      else Enrichment.stored j id' := by
  rcases h.record with ⟨hchanged, henrichment, -⟩ | ⟨-, hstored, -⟩
  · rw [persisted_unchanged h.prepares hchanged]
    have hsame : Enrichment.stored j' id' = Enrichment.stored j id' := by
      unfold Enrichment.stored
      rw [henrichment]
    split_ifs with hid
    · rw [hsame, hid]
    · exact hsame
  · exact hstored id'

theorem Stores.before {j j' : Journal} {id : Bytes} {prepared : Enrichment.Prepared}
    {row' r : MessageRow} (hd : Distinct j)
    (h : Stores enc j j' source row value id prepared row') (hr : j.messages.get? id = some r) :
    r.source = source := by
  cases hfound : findMessage source j with
  | some found =>
    obtain ⟨id', old⟩ := found
    obtain ⟨hold, hsource⟩ := (findMessage_some hd).mp hfound
    rw [show id' = id from h.key _ hfound, hr, Option.some.injEq] at hold
    rw [hold]
    exact hsource
  | none =>
    rcases h.record with ⟨-, -, old, hold, -⟩ | ⟨hnew, -⟩
    · rw [hfound] at hold
      cases hold
    · rw [hnew hfound] at hr
      cases hr

theorem previous_eq (j : Journal) (source : Bytes) :
    ((findMessage source j).map fun r => r.2.record).map (Enrichment.full j) =
      Reactions.shown j source := by
  unfold Reactions.shown Reactions.message
  cases findMessage source j <;> rfl

theorem merged_shows (j : Journal) (v : Message) (previous : Option Message) :
    (Enrichment.merged j v previous).linkPreviews = (v.linkPreviews.orElse fun _ =>
        (previous.map (Enrichment.full j)).bind fun old => old.linkPreviews) ∧
      (Enrichment.merged j v previous).reactions = v.reactions.orElse fun _ =>
        (previous.map (Enrichment.full j)).bind fun old => old.reactions := by
  obtain ⟨-, hpreviews, hreactions, -⟩ :=
    Enrichment.withParts_fields (Enrichment.mergePrevious j v previous)
  rw [Enrichment.merged, hpreviews, hreactions]
  cases previous with
  | none =>
    simp only [Enrichment.mergePrevious, Option.map_none, Option.bind_none]
    cases v.linkPreviews <;> cases v.reactions <;> exact ⟨rfl, rfl⟩
  | some old => exact ⟨rfl, rfl⟩

/-- A write shows what it was given, over what its source showed before. -/
theorem Stores.shows {j j' : Journal} {id : Bytes} {prepared : Enrichment.Prepared}
    {row' : MessageRow} (hfree : enc.CollisionFree) (hs : Sourced enc j)
    (h : Stores enc j j' source row value id prepared row') {n : Nat}
    (hrecord : row'.record = { prepared.value with revision := n }) :
    Shows (Reactions.shown j source) value (Enrichment.full j' row'.record) := by
  have hnamed : ∀ old, (findMessage source j).map (fun r => r.2.record) = some old →
      old.id = id := by
    intro old hold
    obtain ⟨⟨id', r⟩, hr, rfl⟩ := Option.map_eq_some_iff.mp hold
    rw [hs.named id' r ((findMessage_some hs.distinct).mp hr).1]
    exact h.key _ hr
  have hfresh : (findMessage source j).map (fun r => r.2.record) = none →
      Enrichment.stored j id = {} := by
    intro hnone
    rcases h.record with ⟨-, -, old, hold, -⟩ | ⟨hnew, -⟩
    · rw [hold] at hnone
      cases hnone
    · exact hs.attached id (hnew (Option.map_eq_none_iff.mp hnone))
  have hprepares := h.prepares
  have hdigested := hs.digested id
  have hid : row'.record.id = id := by
    rw [hrecord]
    exact Enrichment.prepare_id hprepares
  have hsections : Enrichment.stored j' row'.record.id =
      Enrichment.persisted prepared (Enrichment.stored j id) := by
    rw [hid, h.enrichment_eq, if_pos rfl]
  obtain ⟨-, hinline, -⟩ := Enrichment.prepare_ok hprepares
  obtain ⟨-, hinlinePreviews, hinlineReactions⟩ := Enrichment.inlineMessage_ok hinline
  obtain ⟨hmergedPreviews, hmergedReactions⟩ := merged_shows j
    { value with id := id, revision := 0 } ((findMessage source j).map fun r => r.2.record)
  rw [previous_eq] at hmergedPreviews hmergedReactions
  constructor
  · intro old hold
    rw [← previous_eq] at hold
    obtain ⟨record, hrecord', rfl⟩ := Option.map_eq_some_iff.mp hold
    exact hid.trans (hnamed record hrecord').symm
  · change row'.record.conversationId = _
    rw [hrecord]
    exact (inlineMessage_place hinline).1.trans merged_place.1
  · change row'.record.kind = _
    rw [hrecord]
    exact (inlineMessage_place hinline).2.trans merged_place.2
  · intro parts hparts
    change ((Enrichment.stored j' row'.record.id).parts.map Prod.snd).orElse _ = _
    rw [hsections, persisted_parts hfree hprepares hdigested,
      merged_supplied (v := { value with id := id, revision := 0 }) hparts]
    rfl
  · change ((Enrichment.stored j' row'.record.id).previews.map Prod.snd).orElse _ = _
    rw [hsections, persisted_previews hfree hprepares hdigested hnamed hfresh, ← hmergedPreviews,
      hrecord]
    cases hlist : (Enrichment.merged j { value with id := id, revision := 0 }
      ((findMessage source j).map fun r => r.2.record)).linkPreviews with
    | none => exact hinlinePreviews hlist
    | some items => rfl
  · change ((Enrichment.stored j' row'.record.id).reactions.map Prod.snd).orElse _ = _
    rw [hsections, persisted_reactions hfree hprepares hdigested hnamed hfresh, ← hmergedReactions,
      hrecord]
    cases hlist : (Enrichment.merged j { value with id := id, revision := 0 }
      ((findMessage source j).map fun r => r.2.record)).reactions with
    | none => exact hinlineReactions hlist
    | some items => rfl

structure Writes (j j' : Journal) (source : Bytes) (value : Message) : Prop where
  shows : ∃ after, Reactions.shown j' source = some after ∧ Shows (Reactions.shown j source) value after
  others : ∀ guid, guid ≠ source → Reactions.message j' guid = Reactions.message j guid

theorem message_writes (hfree : enc.CollisionFree) (hw : Whole enc c.db)
    (huniform : Uniform value.attachments)
    (h : (message enc now source row date value origin).run c = (.ok u, c')) :
    Whole enc c'.db ∧ Writes c.db c'.db source value := by
  obtain ⟨j, id, prepared, row', hmeets, -, hstores⟩ := message_stores hw.sourced h
  have hsj : Sourced enc j := hw.sourced.forget.meets hmeets
  have hs' := (message_settled hfree hw.sourced huniform h).1
  have hrecorded := message_recorded hw.sourced hw.recorded h
  have hforgotten (guid : Bytes) : Reactions.message j guid = Reactions.message c.db guid :=
    Meets.message_eq hmeets guid
  have hrow : c'.db.messages.get? id = some row' := by rw [hstores.messages, if_pos rfl]
  obtain ⟨n, hrecord⟩ := hrecorded id row' hrow
  rw [hstores.content] at hrecord
  have hshows := hstores.shows hfree hsj hrecord
  rw [Reactions.shown, hforgotten source] at hshows
  have hother (id' : Bytes) (r : MessageRow) (hid : id' ≠ id)
      (hr : j.messages.get? id' = some r) :
      Enrichment.full c'.db r.record = Enrichment.full j r.record := by
    unfold Enrichment.full
    rw [hsj.named id' r hr, hstores.enrichment_eq, if_neg hid]
  refine ⟨⟨hs', hrecorded, fun id' r hr => ?_⟩, ⟨_, ?_, hshows⟩, fun guid hguid => ?_⟩
  · rw [hstores.messages] at hr
    rw [hstores.enrichment_eq]
    split_ifs at hr ⊢ with hid
    · have hparts := persisted_parts hfree hstores.prepares (hsj.digested id)
      have hsome := congrArg Option.isSome hparts
      rw [Option.isSome_map, merged_parts] at hsome
      exact hsome
    · have hparted := hw.parted id' r
      unfold Enrichment.stored at hparted ⊢
      rw [hmeets.enrichment]
      refine hparted ?_
      rw [hmeets.messages] at hr
      exact hr
  · have hmessage := stored_message hs'.distinct hrow
    rw [hstores.sourced] at hmessage
    rw [Reactions.shown, hmessage]
    rfl
  · rw [← hforgotten guid, Reactions.message, Reactions.message]
    cases hfound : findMessage guid j with
    | some found =>
      obtain ⟨id', r⟩ := found
      obtain ⟨hr, hsource⟩ := (findMessage_some hsj.distinct).mp hfound
      have hid : id' ≠ id := by
        intro hid
        rw [hid] at hr
        exact hguid (hsource.symm.trans (hstores.before hsj.distinct hr))
      have hfound' : findMessage guid c'.db = some (id', r) :=
        (findMessage_some hs'.distinct).mpr ⟨by rw [hstores.messages, if_neg hid, hr], hsource⟩
      rw [hfound', Option.map_some, Option.map_some, hother id' r hid hr]
    | none =>
      cases hfound' : findMessage guid c'.db with
      | none => rfl
      | some found =>
        obtain ⟨id', r⟩ := found
        obtain ⟨hr, hsource⟩ := (findMessage_some hs'.distinct).mp hfound'
        rw [hstores.messages] at hr
        split_ifs at hr
        · rw [← Option.some.inj hr, hstores.sourced] at hsource
          exact absurd hsource.symm hguid
        · rw [(findMessage_some hsj.distinct).mpr ⟨hr, hsource⟩] at hfound
          cases hfound

theorem Settled.place {j : Journal} (hw : Whole enc j) (h : Settled enc j source row value) :
    ∃ after, Reactions.shown j source = some after ∧
      after.conversationId = value.conversationId ∧ after.kind = value.kind := by
  obtain ⟨id, r, again, hfound, -, -, hcontent, -, hprepare⟩ := h.stored
  obtain ⟨n, hrecord⟩ := hw.recorded id r ((findMessage_some hw.sourced.distinct).mp hfound).1
  obtain ⟨hconversation, hkind⟩ := inlineMessage_place (Enrichment.prepare_ok hprepare).2.1
  refine ⟨Enrichment.full j r.record, ?_, ?_, ?_⟩
  · rw [Reactions.shown, Reactions.message, hfound]
    rfl
  · change r.record.conversationId = _
    rw [hrecord, hcontent]
    exact hconversation.trans merged_place.1
  · change r.record.kind = _
    rw [hrecord, hcontent]
    exact hkind.trans merged_place.2

/-- A message observed through its fingerprint is shown in its place all the same. -/
theorem sourceMessage_writes (hfree : enc.CollisionFree) (hw : Whole enc c.db)
    (huniform : Uniform value.attachments)
    (h : (sourceMessage enc now source row date value origin).run c = (.ok u, c')) :
    Whole enc c'.db ∧
      (∀ guid, guid ≠ source → Reactions.message c'.db guid = Reactions.message c.db guid) ∧
      ∃ after, Reactions.shown c'.db source = some after ∧
        after.conversationId = value.conversationId ∧ after.kind = value.kind := by
  obtain ⟨cached, c₁, hcached, h⟩ := Sql.bind_ok h
  obtain ⟨hcached, hdb₁⟩ := Sql.query_ok hcached
  rw [← hdb₁] at hw hcached ⊢
  split_ifs at h with hhit
  · rw [(Sql.pure_ok h).2]
    rw [hcached] at hhit
    exact ⟨hw, fun _ _ => rfl, (hw.sourced.hit hfree hhit).place hw⟩
  · obtain ⟨_, c₂, hmessage, hremember⟩ := Sql.bind_ok h
    obtain ⟨hw₂, hwrites⟩ := message_writes hfree hw huniform hmessage
    have hsettled := (message_settled hfree hw.sourced huniform hmessage).2
    rw [Sql.execute_ok hremember]
    refine ⟨⟨hw₂.sourced.remember hsettled, hw₂.recorded, hw₂.parted⟩, hwrites.others, ?_⟩
    obtain ⟨after, hafter, hshows⟩ := hwrites.shows
    exact ⟨after, hafter, hshows.conversationId, hshows.kind⟩

end Message

end Zimbr.Relay
