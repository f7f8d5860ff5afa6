import Zimbr.Relay.ReactionViews

set_option autoImplicit false

/-!
# The work on reactions

Whatever changes the sources of a target queues the target, and whatever writes
a message again leaves what it shows of reactions as it was.
-/
namespace Zimbr.Relay.Reactions
open Library

/-- What is well-formed between two statements. -/
structure Sound (enc : Encoding) (s : ReactionJournal) : Prop where
  whole : Whole enc s.journal
  targets : ∀ guid r, s.sources.get? guid = some r → r.targetGuid ≠ some []

def facet (v : Message) : Aspect × Option (List Reaction) := (aspect v, v.reactions)

/-- What a step changes of a target is queued. -/
structure Defers (s s' : ReactionJournal) : Prop where
  queue : ∀ k, s'.work.get? k = none → s.work.get? k = none
  rows : ∀ cid target, s'.work.get? (cid, target) = none →
    rowsOf s'.sources cid target = rowsOf s.sources cid target
  views : ∀ guid, (shown s'.journal guid).map facet = (shown s.journal guid).map facet

theorem Defers.refl (s : ReactionJournal) : Defers s s :=
  ⟨fun _ h => h, fun _ _ _ => rfl, fun _ => rfl⟩

theorem Defers.trans {s₁ s₂ s₃ : ReactionJournal} (h : Defers s₁ s₂) (h' : Defers s₂ s₃) :
    Defers s₁ s₃ :=
  ⟨fun k hk => h.queue k (h'.queue k hk),
    fun cid target hk => (h'.rows cid target hk).trans (h.rows cid target (h'.queue _ hk)),
    fun guid => (h'.views guid).trans (h.views guid)⟩

def Steps (enc : Encoding) (s s' : ReactionJournal) : Prop :=
  Sound enc s → Sound enc s' ∧ Defers s s'

instance instReflSteps (enc : Encoding) : Std.Refl (Steps enc) where
  refl s h := ⟨h, .refl s⟩

instance instIsTransSteps (enc : Encoding) : IsTrans ReactionJournal (Steps enc) where
  trans _ _ _ h h' hs :=
    have hmid := h hs
    have hlast := h' hmid.1
    ⟨hlast.1, hmid.2.trans hlast.2⟩

section Defers

variable {enc : Encoding} {s s' : ReactionJournal} {guid : Bytes}

/-- A changed source defers when its targets, old and new, are queued. -/
theorem Defers.of_source (hjournal : s'.journal = s.journal)
    (hother : ∀ g, g ≠ guid → s'.sources.get? g = s.sources.get? g)
    (hqueue : ∀ k, s'.work.get? k = none → s.work.get? k = none)
    (hold : ∀ r target, s.sources.get? guid = some r → r.targetGuid = some target →
      s'.work.get? (r.conversationId, target) ≠ none)
    (hnew : ∀ r target, s'.sources.get? guid = some r → r.targetGuid = some target →
      s'.work.get? (r.conversationId, target) ≠ none) : Defers s s' := by
  refine ⟨hqueue, fun cid target hnone => ?_, fun g => by rw [hjournal]⟩
  have hrow (r : Source) (hr : ∀ target, r.targetGuid = some target →
      s'.work.get? (r.conversationId, target) ≠ none) : rowFor cid target guid r = none := by
    refine if_neg fun ⟨hcid, htarget⟩ => hr target htarget ?_
    rw [hcid]
    exact hnone
  exact rowsOf_modified hother (fun r hr => hrow r fun target => hold r target hr)
    fun r hr => hrow r fun target => hnew r target hr

theorem Defers.of_checked {ms : Int} : Defers s { s with
    sources := s.sources.modify guid fun r => { r with checkMs := ms } } :=
  ⟨fun _ h => h, fun _ _ _ => rowsOf_checked, fun _ => rfl⟩

structure Modified (s s' : ReactionJournal) (guid : Bytes) (f : Source → Source) : Prop where
  journal : s'.journal = s.journal
  work : s'.work = s.work
  sources : ∀ g, s'.sources.get? g =
    if g = guid then (s.sources.get? guid).map f else s.sources.get? g

theorem modify_modified (s : ReactionJournal) (guid : Bytes) (f : Source → Source) :
    Modified s { s with sources := s.sources.modify guid f } guid f := by
  refine ⟨rfl, rfl, fun g => ?_⟩
  rw [Table.get?_modify]
  split_ifs with hg
  · rw [hg]
  · rfl

theorem Modified.then {s₁ s₂ s₃ : ReactionJournal} {f g : Source → Source}
    (h : Modified s₁ s₂ guid f) (h' : Modified s₂ s₃ guid g) : Modified s₁ s₃ guid (g ∘ f) := by
  refine ⟨h'.journal.trans h.journal, h'.work.trans h.work, fun k => ?_⟩
  rw [h'.sources, h.sources, h.sources, if_pos rfl, Option.map_map]
  split_ifs <;> rfl

theorem Modified.sound {f : Source → Source} (h : Modified s s' guid f)
    (hf : ∀ r, (f r).targetGuid = r.targetGuid) (hs : Sound enc s) : Sound enc s' where
  whole := by
    rw [h.journal]
    exact hs.whole
  targets g r hr := by
    rw [h.sources] at hr
    split_ifs at hr
    · obtain ⟨old, hold, rfl⟩ := Option.map_eq_some_iff.mp hr
      rw [hf]
      exact hs.targets guid old hold
    · exact hs.targets g r hr

end Defers

section Queue

variable {enc : Encoding} {c c' : Conn ReactionJournal Bytes} {cid target guid : Bytes} {u : Unit}

structure Queues (s s' : ReactionJournal) (cid : Bytes) (target : Option Bytes) : Prop where
  journal : s'.journal = s.journal
  sources : s'.sources = s.sources
  queue : ∀ k, s'.work.get? k = none → s.work.get? k = none
  queued : ∀ t, target = some t → t ≠ [] → s'.work.get? (cid, t) ≠ none

theorem Queues.defers {s s' : ReactionJournal} {target : Option Bytes}
    (h : Queues s s' cid target) : Defers s s' :=
  ⟨h.queue, fun _ _ _ => by rw [h.sources], fun _ => by rw [h.journal]⟩

theorem Queues.sound {s s' : ReactionJournal} {target : Option Bytes}
    (h : Queues s s' cid target) (hs : Sound enc s) : Sound enc s' where
  whole := by
    rw [h.journal]
    exact hs.whole
  targets := by
    rw [h.sources]
    exact hs.targets

theorem upsert_queues (s : ReactionJournal) (cid target : Bytes) :
    Queues s { s with work := s.work.upsert (cid, target) 0 fun _ => 0 } cid (some target) := by
  refine ⟨rfl, rfl, fun k hk => ?_, fun t ht _ => ?_⟩
  · rw [Table.get?_upsert] at hk
    split_ifs at hk
    exact hk
  · rw [← Option.some.inj ht, Table.get?_upsert, if_pos rfl]
    exact Option.some_ne_none _

theorem enqueue_queues (h : (enqueue cid target).run c = (.ok u, c')) :
    Queues c.db c'.db cid (some target) := by
  rw [Sql.execute_ok h]
  exact upsert_queues c.db cid target

theorem enqueueOld_queues {target : Option Bytes}
    (h : (enqueueOld cid target).run c = (.ok u, c')) : Queues c.db c'.db cid target := by
  unfold enqueueOld at h
  split_ifs at h with htarget
  · rw [(Sql.pure_ok h).2]
    refine ⟨rfl, rfl, fun _ hk => hk, fun t ht hne => ?_⟩
    rw [ht, Option.getD_some] at htarget
    exact absurd htarget hne
  · have hqueues := enqueue_queues h
    refine ⟨hqueues.journal, hqueues.sources, hqueues.queue, fun t ht hne => ?_⟩
    rw [ht] at hqueues
    exact hqueues.queued t rfl hne

theorem resolved_reads {obs : ReactionObservation} {target : Option Bytes} {retired : Bool} :
    Sql.Reads (resolved obs cid target retired) :=
  Sql.Reads.bind Sql.Reads.query fun _ => Sql.Reads.pure

theorem targetImported_steps : Sql.Yields (Steps enc) (targetImported guid cid) := by
  refine Sql.Yields.execute fun s hs => ?_
  split_ifs
  · exact ⟨hs, .refl s⟩
  · have hqueues := upsert_queues s cid guid
    exact ⟨hqueues.sound hs, hqueues.defers⟩

end Queue

section Sources

variable {enc : Encoding} {c c' : Conn ReactionJournal Bytes} {guid cid : Bytes}
  {row date : Int} {obs : ReactionObservation} {u : Unit}

theorem record_ok {new : Source} {s s' : ReactionJournal} (h : record guid new s = some s') :
    s'.journal = s.journal ∧ s'.work = s.work ∧
      (∀ g, g ≠ guid → s'.sources.get? g = s.sources.get? g) ∧
      ∃ r, s'.sources.get? guid = some r ∧ r.targetGuid = new.targetGuid ∧
        r.conversationId = new.conversationId := by
  unfold record at h
  split_ifs at h
  rw [← Option.some.inj h]
  refine ⟨rfl, rfl, fun g hg => by rw [Table.get?_upsert, if_neg hg], ?_⟩
  rw [Table.get?_upsert, if_pos rfl]
  cases s.sources.get? guid with
  | none => exact ⟨_, rfl, rfl, rfl⟩
  | some old => exact ⟨_, rfl, rfl, rfl⟩

theorem rewrite_ok {new : Source} (hs : Sound enc c.db) (hnew : new.targetGuid ≠ some [])
    (h : (rewrite guid (c.db.sources.get? guid) new).run c = (.ok u, c')) :
    Sound enc c'.db ∧ Defers c.db c'.db := by
  unfold rewrite at h
  split_ifs at h
  · rw [(Sql.pure_ok h).2]
    exact ⟨hs, .refl _⟩
  · obtain ⟨_, c₁, hold, h⟩ := Sql.bind_ok h
    obtain ⟨_, c₂, hrecord, h⟩ := Sql.bind_ok h
    obtain ⟨hjournal₂, hwork₂, hother, r, hr, htarget, hconversation⟩ :=
      record_ok (Sql.execute?_ok hrecord)
    have hold : Queues c.db c₁.db ((c.db.sources.get? guid).elim [] Source.conversationId)
        ((c.db.sources.get? guid).bind Source.targetGuid) := by
      cases hprevious : c.db.sources.get? guid with
      | none =>
        rw [hprevious] at hold
        rw [(Sql.pure_ok hold).2]
        exact ⟨rfl, rfl, fun _ hk => hk, fun t ht => by cases ht⟩
      | some old =>
        rw [hprevious] at hold
        exact enqueueOld_queues hold
    have hlast : Queues c₂.db c'.db new.conversationId new.targetGuid := by
      cases hnone : new.targetGuid with
      | none =>
        rw [hnone] at h
        rw [(Sql.pure_ok h).2]
        exact ⟨rfl, rfl, fun _ hk => hk, fun t ht => by cases ht⟩
      | some target =>
        rw [hnone] at h
        exact enqueue_queues h
    have hqueue (k : Bytes × Bytes) (hk : c'.db.work.get? k = none) : c₁.db.work.get? k = none := by
      have hk₂ := hlast.queue k hk
      rwa [hwork₂] at hk₂
    have hsources (g : Bytes) (hg : g ≠ guid) : c'.db.sources.get? g = c.db.sources.get? g := by
      rw [hlast.sources, hother g hg, hold.sources]
    have hlatest : c'.db.sources.get? guid = some r := by rw [hlast.sources, hr]
    have hjournal : c'.db.journal = c.db.journal := by
      rw [hlast.journal, hjournal₂, hold.journal]
    refine ⟨⟨?_, fun g r' hr' => ?_⟩, .of_source hjournal hsources
      (fun k hk => hold.queue k (hqueue k hk)) (fun old target hprevious htarget' => ?_)
      fun r' target hr' htarget' => ?_⟩
    · rw [hjournal]
      exact hs.whole
    · by_cases hg : g = guid
      · rw [hg, hlatest, Option.some.injEq] at hr'
        rw [← hr', htarget]
        exact hnew
      · rw [hsources g hg] at hr'
        exact hs.targets g r' hr'
    · have hne : target ≠ [] := by
        intro hempty
        exact hs.targets guid old hprevious (by rw [htarget', hempty])
      have hqueued := hold.queued target (by rw [hprevious]; exact htarget') hne
      rw [hprevious] at hqueued
      exact fun hnone => hqueued (hqueue _ hnone)
    · rw [hlatest, Option.some.injEq] at hr'
      rw [← hr', htarget] at htarget'
      have hne : target ≠ [] := by
        intro hempty
        exact hnew (by rw [htarget', hempty])
      rw [← hr', hconversation]
      exact hlast.queued target htarget' hne

/-- An observation changes only its source, and queues the targets of before and after. -/
theorem observe_steps (hobs : obs.targetGuid ≠ some []) :
    Sql.Yields (Steps enc) (observe guid row date cid obs) := by
  intro c event c' h hs
  obtain ⟨previous, c₁, hprevious, h⟩ := Sql.bind_ok h
  obtain ⟨rfl, hdb₁⟩ := Sql.query_ok hprevious
  dsimp only at h
  split at h
  · rw [resolved_reads.ok h, hdb₁]
    exact ⟨hs, .refl _⟩
  · obtain ⟨_, c₂, hrewrite, h⟩ := Sql.bind_ok h
    rw [resolved_reads.ok h, ← hdb₁]
    rw [← hdb₁] at hs hrewrite
    exact rewrite_ok hs hobs hrewrite

/-- A source that is retired in place keeps its target, which is queued. -/
theorem Modified.steps {old : Source} {f : Source → Source} {s s₁ s' : ReactionJournal}
    (hs : Sound enc s) (hold : s.sources.get? guid = some old) (h₁ : Modified s s₁ guid f)
    (hf : ∀ r, (f r).targetGuid = r.targetGuid ∧ (f r).conversationId = r.conversationId)
    (h : Queues s₁ s' old.conversationId old.targetGuid) : Sound enc s' ∧ Defers s s' := by
  have hqueued (target : Bytes) (htarget : old.targetGuid = some target) :
      s'.work.get? (old.conversationId, target) ≠ none := by
    refine h.queued target htarget fun hempty => hs.targets guid old hold ?_
    rw [htarget, hempty]
  have hsources (g : Bytes) (hg : g ≠ guid) : s'.sources.get? g = s.sources.get? g := by
    rw [h.sources, h₁.sources, if_neg hg]
  refine ⟨h.sound (h₁.sound (fun r => (hf r).1) hs), .of_source
    (by rw [h.journal, h₁.journal]) hsources
    (fun k hk => by have hk₁ := h.queue k hk; rwa [h₁.work] at hk₁)
    (fun r target hr htarget => ?_) fun r target hr htarget => ?_⟩
  · rw [hold, Option.some.injEq] at hr
    rw [← hr] at htarget ⊢
    exact hqueued target htarget
  · rw [h.sources, h₁.sources, if_pos rfl, hold, Option.map_some, Option.some.injEq] at hr
    rw [← hr, (hf old).1] at htarget
    rw [← hr, (hf old).2]
    exact hqueued target htarget

theorem noLongerReaction_steps : Sql.Yields (Steps enc) (noLongerReaction guid) := by
  intro c event c' h hs
  obtain ⟨found, c₁, hfound, h⟩ := Sql.bind_ok h
  obtain ⟨rfl, hdb₁⟩ := Sql.query_ok hfound
  rw [← hdb₁] at hs ⊢
  rw [← hdb₁] at h
  cases hold : c₁.db.sources.get? guid with
  | none =>
    rw [hold] at h
    rw [(Sql.pure_ok h).2]
    exact ⟨hs, .refl _⟩
  | some old =>
    rw [hold] at h
    obtain ⟨_, c₂, hbury, h⟩ := Sql.bind_ok h
    rw [(Sql.pure_ok h).2]
    unfold bury at hbury
    split_ifs at hbury
    · rw [(Sql.pure_ok hbury).2]
      exact ⟨hs, .refl _⟩
    · obtain ⟨_, c₃, hretire, hqueue⟩ := Sql.bind_ok hbury
      have hmodified : Modified c₁.db (retire guid c₁.db) guid _ := modify_modified _ _ _
      rw [← Sql.execute_ok hretire] at hmodified
      exact hmodified.steps hs hold (fun r => ⟨rfl, rfl⟩) (enqueueOld_queues hqueue)

end Sources

section Publish

variable {enc : Encoding} {c c' : Conn ReactionJournal Bytes} {guid : Bytes} {now : Int}
  {m : Stored} {v : Message} {u : Unit}

theorem message_source {j : Journal} (hd : Distinct j) (h : message j guid = some m) :
    ∃ id r, j.messages.get? id = some r ∧ m = {
      source := guid, row := r.sourceRow, date := r.dateNs
      value := Enrichment.full j r.record } := by
  obtain ⟨⟨id, r⟩, hfound, hm⟩ := Option.map_eq_some_iff.mp h
  obtain ⟨hr, hsource⟩ := (findMessage_some hd).mp hfound
  refine ⟨id, r, hr, ?_⟩
  rw [← hm, ← hsource]

theorem stored_uniform {j : Journal} (hw : Whole enc j) (h : message j guid = some m) :
    Uniform m.value.attachments := by
  obtain ⟨id, r, hr, rfl⟩ := message_source hw.sourced.distinct h
  exact hw.sourced.uniform id r hr

theorem stored_parts {j : Journal} (hw : Whole enc j) (h : message j guid = some m) :
    ∃ parts, m.value.parts = some parts := by
  obtain ⟨id, r, hr, rfl⟩ := message_source hw.sourced.distinct h
  obtain ⟨section', hsection⟩ := Option.isSome_iff_exists.mp (hw.parted id r hr)
  refine ⟨section'.2, ?_⟩
  change ((Enrichment.stored j r.record.id).parts.map Prod.snd).orElse _ = _
  rw [hw.sourced.named id r hr, hsection]
  rfl

theorem shows_aspect {old after : Message} (h : Shows (some old) v after)
    (hv : aspect v = aspect old) (hparts : ∃ parts, old.parts = some parts) :
    aspect after = aspect old ∧
      after.reactions = v.reactions.orElse fun _ => old.reactions := by
  obtain ⟨parts, hparts⟩ := hparts
  have hconversation : v.conversationId = old.conversationId :=
    congrArg Aspect.conversationId hv
  have hkind : v.kind = old.kind := congrArg Aspect.kind hv
  have hvparts : v.parts = old.parts := congrArg Aspect.parts hv
  have hcards : v.linkPreviews.map (fun cards => cards.map LinkPreview.partId) =
      old.linkPreviews.map fun cards => cards.map LinkPreview.partId :=
    congrArg Aspect.cards hv
  have hafter : after.linkPreviews.map (fun cards => cards.map LinkPreview.partId) =
      old.linkPreviews.map fun cards => cards.map LinkPreview.partId := by
    rw [h.previews]
    cases hlist : v.linkPreviews with
    | none => rfl
    | some cards =>
      rw [hlist] at hcards
      exact hcards
  refine ⟨?_, h.reactions⟩
  rw [aspect, aspect, h.id old rfl, h.conversationId, h.kind,
    h.parts parts (hvparts.trans hparts), hafter, hconversation, hkind, hparts]

structure Published (enc : Encoding) (s s' : ReactionJournal) (guid : Bytes) (old v : Message) :
    Prop where
  whole : Whole enc s'.journal
  sources : s'.sources = s.sources
  work : s'.work = s.work
  others : ∀ g, g ≠ guid → message s'.journal g = message s.journal g
  shows : ∃ after, shown s'.journal guid = some after ∧ aspect after = aspect old ∧
    after.reactions = v.reactions.orElse fun _ => old.reactions

theorem publish_ok (hfree : enc.CollisionFree) (hw : Whole enc c.db.journal) {old : Message}
    (hsource : m.source = guid) (hold : shown c.db.journal guid = some old)
    (haspect : aspect v = aspect old) (huniform : Uniform v.attachments)
    (h : (publish enc now m v).run c = (.ok u, c')) :
    Published enc c.db c'.db guid old v := by
  unfold publish inJournal at h
  obtain ⟨c₁, hrun, hdb, -⟩ := Sql.zoom_ok h
  rw [hsource] at hrun
  obtain ⟨hw', hwrites⟩ := message_writes hfree hw huniform hrun
  obtain ⟨after, hafter, hshows⟩ := hwrites.shows
  obtain ⟨stored, hstored, rfl⟩ := Option.map_eq_some_iff.mp hold
  rw [hold] at hshows
  rw [hdb]
  exact ⟨hw', rfl, rfl, hwrites.others, after, hafter,
    shows_aspect hshows haspect (stored_parts hw hstored)⟩

/-- Publishing other fields changes nothing that the projection reads. -/
theorem Published.defers {s s' : ReactionJournal} {old : Message}
    (h : Published enc s s' guid old v) (hold : shown s.journal guid = some old)
    (hv : v.reactions = old.reactions) : Defers s s' := by
  refine ⟨fun k hk => by rwa [h.work] at hk, fun cid target _ => by rw [h.sources], fun g => ?_⟩
  by_cases hg : g = guid
  · obtain ⟨after, hafter, haspect, hreactions⟩ := h.shows
    have hsame : after.reactions = old.reactions := by
      rw [hreactions, hv]
      cases old.reactions <;> rfl
    rw [hg, hafter, hold, Option.map_some, Option.map_some, facet, facet, haspect, hsame]
  · rw [shown, shown, h.others g hg]

theorem Published.sound {s s' : ReactionJournal} {old : Message}
    (h : Published enc s s' guid old v) (hs : Sound enc s) : Sound enc s' where
  whole := h.whole
  targets := by
    rw [h.sources]
    exact hs.targets

theorem publish_event (hfree : enc.CollisionFree) (hs : Sound enc c.db)
    (hm : message c.db.journal guid = some m) {event : Option ReactionEvent}
    (h : (publish enc now m { m.value with reactionEvent := event }).run c = (.ok u, c')) :
    (Sound enc c'.db ∧ Defers c.db c'.db) ∧ c'.db.sources = c.db.sources ∧
      c'.db.work = c.db.work := by
  have hold : shown c.db.journal guid = some m.value := by rw [shown, hm]; rfl
  have hsource : m.source = guid := by
    obtain ⟨id, r, -, rfl⟩ := message_source hs.whole.sourced.distinct hm
    rfl
  have haspect : aspect { m.value with reactionEvent := event } = aspect m.value := rfl
  have hpublished := publish_ok hfree hs.whole hsource hold haspect (stored_uniform hs.whole hm) h
  exact ⟨⟨hpublished.sound hs, hpublished.defers hold rfl⟩, hpublished.sources, hpublished.work⟩

def Beside (enc : Encoding) (s s' : ReactionJournal) : Prop :=
  Sound enc s → (Sound enc s' ∧ Defers s s') ∧ s'.sources = s.sources ∧ s'.work = s.work

instance instReflBeside (enc : Encoding) : Std.Refl (Beside enc) where
  refl s h := ⟨⟨h, .refl s⟩, rfl, rfl⟩

instance instIsTransBeside (enc : Encoding) : IsTrans ReactionJournal (Beside enc) where
  trans _ _ _ h h' hs :=
    have hmid := h hs
    have hlast := h' hmid.1.1
    ⟨⟨hlast.1.1, hmid.1.2.trans hlast.1.2⟩, hlast.2.1.trans hmid.2.1, hlast.2.2.trans hmid.2.2⟩

theorem publishEvent_beside (hfree : enc.CollisionFree) (event : ReactionEvent) :
    Sql.Yields (Beside enc) (publishEvent enc now guid event) := by
  intro c _ c' h hs
  obtain ⟨raw, c₁, hraw, h⟩ := Sql.bind_ok h
  obtain ⟨hraw, hdb₁⟩ := Sql.query_ok hraw
  rw [← hdb₁] at hs hraw ⊢
  cases raw with
  | none =>
    rw [(Sql.pure_ok h).2]
    exact ⟨⟨hs, .refl _⟩, rfl, rfl⟩
  | some raw =>
    exact publish_event hfree hs hraw.symm h

end Publish

section Tracking

variable {enc : Encoding} {now : Int}

/-- A reaction that left the source is retired, and its message says so. -/
theorem vanished_ok (hfree : enc.CollisionFree) {c c' : Conn ReactionJournal Bytes} {u : Unit}
    {item : Bytes × Source} (hs : Sound enc c.db)
    (hitem : c.db.sources.get? item.1 = some item.2)
    (h : (vanished enc now item).run c = (.ok u, c')) :
    (Sound enc c'.db ∧ Defers c.db c'.db) ∧
      ∀ g, g ≠ item.1 → c'.db.sources.get? g = c.db.sources.get? g := by
  obtain ⟨_, c₁, hretire, h⟩ := Sql.bind_ok h
  obtain ⟨_, c₂, hqueue, h⟩ := Sql.bind_ok h
  have hretire := Sql.execute_ok hretire
  have hqueue := enqueueOld_queues hqueue
  have hretired := modify_modified c.db item.1 fun r => { r with retired := true }
  have hchecked : Modified (retire item.1 c.db) c₁.db item.1 fun r => { r with checkMs := now } := by
    rw [hretire]
    exact modify_modified _ _ _
  have hmodified := hretired.then hchecked
  have hsteps := hmodified.steps hs hitem (fun r => ⟨rfl, rfl⟩) hqueue
  have hothers (g : Bytes) (hg : g ≠ item.1) : c₂.db.sources.get? g = c.db.sources.get? g := by
    rw [hqueue.sources, hmodified.sources, if_neg hg]
  obtain ⟨raw, c₃, hraw, h⟩ := Sql.bind_ok h
  obtain ⟨hraw, hdb₃⟩ := Sql.query_ok hraw
  rw [← hdb₃] at hsteps hothers hraw
  cases raw with
  | none =>
    rw [(Sql.pure_ok h).2]
    exact ⟨hsteps, hothers⟩
  | some raw =>
    obtain ⟨event, c₄, hevent, h⟩ := Sql.bind_ok h
    rw [← resolved_reads.ok hevent] at hsteps hothers hraw
    obtain ⟨hpublished, hsources, -⟩ := publish_event hfree hsteps.1 hraw.symm h
    exact ⟨⟨hpublished.1, hsteps.2.trans hpublished.2⟩,
      fun g hg => by rw [hsources, hothers g hg]⟩

end Tracking

end Zimbr.Relay.Reactions
