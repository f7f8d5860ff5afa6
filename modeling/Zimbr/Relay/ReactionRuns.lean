import Zimbr.Relay.ReactionWork

set_option autoImplicit false

/-!
# Runs that import and project reactions

A pass imports rows, looks tracked reactions up and projects the queued targets;
workers write messages again between. A message whose target is not queued shows
the projection of its sources.
-/
namespace Zimbr.Relay.Reactions
open Library

section Import

variable (enc : Encoding) (now : Int)

structure View where
  attachments : List Attachment
  refs : Bytes → Option AssetRef × Option AssetRef
  cards : Option (List LinkPreview)

def decorated (m : SourceMessage) (cid : Bytes) (view : View) : Message :=
  Assets.attach view.refs { m.value with
    conversationId := cid, attachments := view.attachments, linkPreviews := view.cards }

def observed (m : SourceMessage) (cid : Bytes) : ReactionTx (Option ReactionEvent) :=
  match m.reaction with
  | some obs => do
    let event ← observe m.source m.row m.date cid obs
    return some event
  | none => return m.value.reactionEvent

/-- A message that is none may have been a reaction before. -/
def relabelled (features : MessagesDb.Features) (m : SourceMessage) (event : Option ReactionEvent) :
    ReactionTx (Option ReactionEvent) :=
  if features.reactionTarget && m.value.kind ≠ .reaction then noLongerReaction m.source
  else return event

def importMessage (features : MessagesDb.Features) (m : SourceMessage) (cid : Bytes) (view : View)
    (origin : Origin) : ReactionTx Unit := do
  let event ← observed m cid
  let event ← relabelled features m event
  inJournal (sourceMessage enc now m.source m.row m.date
    { decorated m cid view with reactionEvent := event } origin)
  if m.value.kind ≠ .reaction then targetImported m.source cid else return ()

def imaged (card : Option AssetRef → Option AssetRef) (p : LinkPreview) : LinkPreview :=
  { p with image := card p.image, icon := card p.icon }

def republished (image viewer card : Option AssetRef → Option AssetRef) (v : Message) : Message :=
  Assets.republish image viewer (fun v => { v with
    linkPreviews := v.linkPreviews.map fun cards => cards.map (imaged card) }) v

def republish (guid : Bytes) (image viewer card : Option AssetRef → Option AssetRef) :
    ReactionTx Unit := do
  let stored ← Sql.query fun s => message s.journal guid
  match stored with
  | none => return ()
  | some m => publish enc now m (republished image viewer card m.value)

end Import

inductive ReactionAction where
  /-- Import a row of the source into its conversation. -/
  | visit (source : MessagesDb) (decoders : Decoders) (row : Int) (cid : Bytes) (view : View)
    (origin : Origin)
  | tracked (source : MessagesDb)
  | project
  | prioritize (cid : Bytes)
  | messageRead (id : Bytes)
  /-- A worker publishes the assets of a stored message. -/
  | republish (guid : Bytes) (image viewer card : Option AssetRef → Option AssetRef)
  | write (op : IngestOp)
  | reset
  /-- Sends, uploads and maintenance: any change of the other tables. -/
  | elsewhere (f : Journal → Journal)
  | forget (p : Nat → CachedSource → Bool)

section Runs

variable (enc : Encoding) (slotId : Bytes → Slot → Bytes)

def act (now : Int) : ReactionAction → ReactionTx Unit
  | .visit source decoders row cid view origin => do
    let found ← Sql.lift (source.message { decoders with reaction := decode } row)
    match found with
    | none => return ()
    | some m => importMessage enc now source.features m cid view origin
  | .tracked source => do
    let _ ← trackedRows enc now source
    return ()
  | .project => project slotId enc now
  | .prioritize cid => Sql.execute (prioritize cid)
  | .messageRead id => messageRead id
  | .republish guid image viewer card => republish enc now guid image viewer card
  | .write op => if op.observes then return () else inJournal (perform enc now op)
  | .reset => do
    inJournal (Relay.reset now)
    Sql.execute fun s => { journal := s.journal }
  | .elsewhere f => Sql.execute fun s => { s with journal := Session.besides f s.journal }
  | .forget p => Sql.execute fun s => { s with journal := Session.evicted p s.journal }

structure Batch where
  actions : List (Int × ReactionAction)
  faults : List Bool := []
  fresh : List Bytes := []

def projecting : Machine ReactionJournal Batch Empty where
  step s b := ((Sql.transaction (Sql.each (fun a : Int × ReactionAction =>
    act enc slotId a.1 a.2) b.actions)).run { db := s, faults := b.faults, fresh := b.fresh }).2.db
  out _ _ := []

end Runs

/-- The message that is not queued shows what its sources project. -/
def UpToDate (slotId : Bytes → Slot → Bytes) (s : ReactionJournal) (cid guid : Bytes) : Prop :=
  ∀ v, shown s.journal guid = some v → v.conversationId = cid → v.kind ≠ .reaction →
    rowsOf s.sources cid guid ≠ [] → s.work.get? (cid, guid) = none →
    v.reactions = some (projection slotId cid v (rowsOf s.sources cid guid))

structure Projected (enc : Encoding) (slotId : Bytes → Slot → Bytes) (s : ReactionJournal) :
    Prop where
  sound : Sound enc s
  current : ∀ cid guid, UpToDate slotId s cid guid

section Steps

variable {enc : Encoding} {slotId : Bytes → Slot → Bytes} {s s' : ReactionJournal}
  {cid guid : Bytes} {now : Int}

theorem UpToDate.defers (h : UpToDate slotId s cid guid) (hd : Defers s s') :
    UpToDate slotId s' cid guid := by
  intro v' hv' hcid hkind hrows hnone
  have hview := hd.views guid
  rw [hv', Option.map_some, eq_comm, Option.map_eq_some_iff] at hview
  obtain ⟨v, hv, hfacet⟩ := hview
  obtain ⟨haspect, hreactions⟩ := Prod.mk.inj hfacet
  have hconversation : v.conversationId = v'.conversationId := congrArg Aspect.conversationId haspect
  have hkinds : v.kind = v'.kind := congrArg Aspect.kind haspect
  have hsame := hd.rows cid guid hnone
  rw [hsame] at hrows ⊢
  rw [← hreactions, ← projection_congr haspect]
  exact h v hv (hconversation.trans hcid) (hkinds ▸ hkind) hrows (hd.queue _ hnone)

theorem Projected.steps (h : Projected enc slotId s) (hstep : Steps enc s s') :
    Projected enc slotId s' :=
  have hnext := hstep h.sound
  ⟨hnext.1, fun cid guid => (h.current cid guid).defers hnext.2⟩

def Keeps (enc : Encoding) (slotId : Bytes → Slot → Bytes) (s s' : ReactionJournal) : Prop :=
  Projected enc slotId s → Projected enc slotId s'

instance instReflKeeps : Std.Refl (Keeps enc slotId) where
  refl _ h := h

instance instIsTransKeeps : IsTrans ReactionJournal (Keeps enc slotId) where
  trans _ _ _ h h' hs := h' (h hs)

theorem keeps_of_steps {α : Type} {m : ReactionTx α} (h : Sql.Yields (Steps enc) m) :
    Sql.Yields (Keeps enc slotId) m := h.mono fun _ _ hstep hs => hs.steps hstep

section Tracked

theorem touch_steps {guid : Bytes} : Sql.Yields (Steps enc)
    (Sql.execute (touch now guid) : ReactionTx Unit) :=
  Sql.Yields.execute fun s hs =>
    ⟨(modify_modified s guid _).sound (fun _ => rfl) hs, .of_checked⟩

/-- Every tracked source is as it was found until its turn comes. -/
theorem revisit_ok (hfree : enc.CollisionFree) {source : MessagesDb} {items : List (Bytes × Source)}
    {c c' : Conn ReactionJournal Bytes} {rows : List Int} (hs : Sound enc c.db)
    (hkeys : (items.map Prod.fst).Nodup)
    (hitems : ∀ item ∈ items, c.db.sources.get? item.1 = some item.2)
    (h : (revisit enc now source items).run c = (.ok rows, c')) :
    Sound enc c'.db ∧ Defers c.db c'.db := by
  induction items generalizing c c' rows with
  | nil =>
    rw [(Sql.pure_ok h).2]
    exact ⟨hs, .refl _⟩
  | cons item rest ih =>
    rw [List.map_cons, List.nodup_cons] at hkeys
    have hrest (d : ReactionJournal)
        (hd : ∀ g, g ≠ item.1 → d.sources.get? g = c.db.sources.get? g) :
        ∀ i ∈ rest, d.sources.get? i.1 = some i.2 := by
      intro i hi
      rw [hd i.1 fun heq => hkeys.1 (heq ▸ List.mem_map_of_mem hi)]
      exact hitems i (List.mem_cons_of_mem _ hi)
    obtain ⟨row, c₁, hrow, h⟩ := Sql.bind_ok h
    rw [(Sql.lift_ok hrow).2] at h
    cases row with
    | some row =>
      obtain ⟨_, c₂, htouch, h⟩ := Sql.bind_ok h
      obtain ⟨more, c₃, hmore, h⟩ := Sql.bind_ok h
      have hstep := touch_steps c () c₂ htouch hs
      have hothers (g : Bytes) (hg : g ≠ item.1) : c₂.db.sources.get? g = c.db.sources.get? g := by
        rw [Sql.execute_ok htouch, touch, Table.get?_modify, if_neg hg]
      have hlast := ih hstep.1 hkeys.2 (hrest _ hothers) hmore
      rw [(Sql.pure_ok h).2]
      exact ⟨hlast.1, hstep.2.trans hlast.2⟩
    | none =>
      obtain ⟨_, c₂, hvanished, h⟩ := Sql.bind_ok h
      obtain ⟨hstep, hothers⟩ :=
        vanished_ok hfree hs (hitems item List.mem_cons_self) hvanished
      have hlast := ih hstep.1 hkeys.2 (hrest _ hothers) h
      exact ⟨hlast.1, hstep.2.trans hlast.2⟩

theorem trackedRows_steps (hfree : enc.CollisionFree) {source : MessagesDb} :
    Sql.Yields (Steps enc) (trackedRows enc now source) := by
  intro c rows c' h hs
  obtain ⟨items, c₁, hitems, h⟩ := Sql.bind_ok h
  obtain ⟨rfl, hdb₁⟩ := Sql.query_ok hitems
  rw [← hdb₁] at hs ⊢
  rw [← hdb₁] at h
  refine revisit_ok hfree hs ?_ (fun item hitem => ?_) h
  · rw [tracked, List.map_take]
    exact ((sortBy_perm.map _).nodup_iff.mpr (Table.select_keys_nodup _ _)).sublist
      (List.take_sublist _ _)
  · have hmem := mem_sortBy.mp (List.mem_of_mem_take hitem)
    exact (Table.get?_select.mp hmem).1

end Tracked

section Project

variable {target : Bytes × Bytes}

theorem postpone_steps : Sql.Yields (Steps enc)
    (Sql.execute (postpone now target) : ReactionTx Unit) := by
  refine Sql.Yields.execute fun s hs => ⟨⟨hs.whole, hs.targets⟩, fun k hk => ?_, fun _ _ _ => rfl,
    fun _ => rfl⟩
  rw [postpone, Table.get?_modify] at hk
  split_ifs at hk
  · exact Option.map_eq_none_iff.mp hk
  · exact hk

/-- The targets but one are up to date, and that one would be if it was not queued. -/
structure Done (enc : Encoding) (slotId : Bytes → Slot → Bytes) (s : ReactionJournal)
    (target : Bytes × Bytes) : Prop where
  sound : Sound enc s
  others : ∀ cid guid, (cid, guid) ≠ target → UpToDate slotId s cid guid
  target : ∀ v, shown s.journal target.2 = some v → v.conversationId = target.1 →
    v.kind ≠ .reaction →
    v.reactions = some (projection slotId target.1 v (rowsOf s.sources target.1 target.2))

theorem Done.finished (h : Done enc slotId s target) : Projected enc slotId
    { s with work := s.work.deleteWhere fun k _ => k = target } := by
  refine ⟨⟨h.sound.whole, h.sound.targets⟩, fun cid guid v hv hcid hkind hrows hnone => ?_⟩
  by_cases hk : (cid, guid) = target
  · rw [← hk] at h
    exact h.target v hv hcid hkind
  · refine h.others cid guid hk v hv hcid hkind hrows ?_
    have hdeleted : (s.work.deleteWhere fun k _ => k = target).get? (cid, guid) = none := hnone
    rw [Table.get?_deleteWhere, Option.filter_eq_none_iff] at hdeleted
    cases hwork : s.work.get? (cid, guid) with
    | none => rfl
    | some attempt => exact absurd (hdeleted attempt hwork) (by simpa using hk)

/-- The parent shows the projection, unless it is no message of the conversation. -/
theorem showReactions_done (hfree : enc.CollisionFree) {c c' : Conn ReactionJournal Bytes}
    {u : Unit} {parent : Stored} {v : Message} (hp : Projected enc slotId c.db)
    (hsource : parent.source = target.2) (hshown : shown c.db.journal target.2 = some v)
    (haspect : aspect parent.value = aspect v) (huniform : Uniform parent.value.attachments)
    (h : (showReactions slotId enc now target.1 parent
      (rowsOf c.db.sources target.1 target.2)).run c = (.ok u, c')) :
    Done enc slotId c'.db target := by
  have hconversation : parent.value.conversationId = v.conversationId :=
    congrArg Aspect.conversationId haspect
  have hkinds : parent.value.kind = v.kind := congrArg Aspect.kind haspect
  unfold showReactions at h
  split_ifs at h with hplace
  · simp only [Bool.and_eq_true, decide_eq_true_eq] at hplace
    have hpublished := publish_ok hfree hp.sound.whole hsource hshown
      (v := { parent.value with reactions := some (projection slotId target.1 parent.value
        (rowsOf c.db.sources target.1 target.2)) }) haspect huniform h
    obtain ⟨after, hafter, haspect', hreactions⟩ := hpublished.shows
    refine ⟨hpublished.sound hp.sound, fun cid guid hk v' hv' hcid hkind hrows hnone => ?_,
      fun v' hv' _ _ => ?_⟩
    · by_cases hguid : guid = target.2
      · rw [hguid, hafter, Option.some.injEq] at hv'
        have hsame : after.conversationId = v.conversationId :=
          congrArg Aspect.conversationId haspect'
        rw [← hv', hsame, ← hconversation, hplace.1] at hcid
        exact absurd (Prod.ext hcid.symm hguid) hk
      · rw [shown, hpublished.others guid hguid] at hv'
        rw [hpublished.sources] at hrows ⊢
        rw [hpublished.work] at hnone
        exact hp.current cid guid v' hv' hcid hkind hrows hnone
    · rw [hafter, Option.some.injEq] at hv'
      rw [← hv', hreactions, hpublished.sources, projection_congr haspect',
        ← projection_congr haspect]
      rfl
  · rw [(Sql.pure_ok h).2]
    refine ⟨hp.sound, fun cid guid _ => hp.current cid guid, fun v' hv' hcid hkind => ?_⟩
    rw [hshown, Option.some.injEq] at hv'
    rw [← hv'] at hcid hkind
    exact absurd (by simp [hconversation, hkinds, hcid, hkind]) hplace

theorem publishEvents_beside (hfree : enc.CollisionFree) {event : Row → ReactionEvent}
    {rows : List Row} : Sql.Yields (Beside enc)
      (Sql.each (fun item => publishEvent enc now item.guid (event item)) rows) :=
  .each fun item _ => publishEvent_beside hfree (event item)

theorem projectTarget_keeps (hfree : enc.CollisionFree) :
    Sql.Yields (Keeps enc slotId) (projectTarget slotId enc now target) := by
  intro c _ c' h hp
  obtain ⟨parent, c₁, hparent, h⟩ := Sql.bind_ok h
  obtain ⟨hparent, hdb₁⟩ := Sql.query_ok hparent
  rw [← hdb₁] at hp hparent
  cases parent with
  | none => exact hp.steps (postpone_steps c₁ () c' h)
  | some parent =>
    obtain ⟨rows, c₂, hrows, h⟩ := Sql.bind_ok h
    obtain ⟨rfl, hdb₂⟩ := Sql.query_ok hrows
    obtain ⟨_, c₃, hevents, h⟩ := Sql.bind_ok h
    obtain ⟨_, c₄, hshow, hdelete⟩ := Sql.bind_ok h
    obtain ⟨hsteps, hsources, -⟩ := publishEvents_beside hfree c₂ () c₃ hevents (hdb₂ ▸ hp.sound)
    rw [hdb₂] at hsteps hsources
    have hbefore : shown c₁.db.journal target.2 = some parent.value := by
      rw [shown, ← hparent]
      rfl
    have hview := hsteps.2.views target.2
    rw [hbefore, Option.map_some, Option.map_eq_some_iff] at hview
    obtain ⟨v, hv, hfacet⟩ := hview
    have hsource : parent.source = target.2 := by
      obtain ⟨id, r, -, rfl⟩ := message_source hp.sound.whole.sourced.distinct hparent.symm
      rfl
    rw [← hsources] at hshow
    have hdone := showReactions_done hfree (hp.steps fun _ => hsteps) hsource hv
      (Prod.mk.inj hfacet).1.symm (stored_uniform hp.sound.whole hparent.symm) hshow
    rw [Sql.execute_ok hdelete]
    exact hdone.finished

theorem project_keeps (hfree : enc.CollisionFree) :
    Sql.Yields (Keeps enc slotId) (project slotId enc now) :=
  .bind .query fun _ => .each fun _ _ => projectTarget_keeps hfree

end Project

section Import

variable {features : MessagesDb.Features} {m : SourceMessage} {view : View} {origin : Origin}

theorem observed_steps (hobs : ∀ obs, m.reaction = some obs → obs.targetGuid ≠ some []) :
    Sql.Yields (Steps enc) (observed m cid) := by
  unfold observed
  cases hreaction : m.reaction with
  | none => exact .pure
  | some obs => exact .bind (observe_steps (hobs obs hreaction)) fun _ => .pure

theorem relabelled_steps {event : Option ReactionEvent} :
    Sql.Yields (Steps enc) (relabelled features m event) := by
  unfold relabelled
  split_ifs
  · exact noLongerReaction_steps
  · exact .pure

/-- An imported target is queued if reactions of its conversation await it. -/
theorem targetImported_queued {c c' : Conn ReactionJournal Bytes} {u : Unit}
    (h : (targetImported guid cid).run c = (.ok u, c')) (hrows : rowsOf c.db.sources cid guid ≠ []) :
    c'.db.work.get? (cid, guid) ≠ none := by
  obtain ⟨row, hrow⟩ := List.exists_mem_of_ne_nil _ hrows
  obtain ⟨r, hr, hrowFor⟩ := Option.bind_eq_some_iff.mp (mem_rowsOf.mp hrow)
  unfold rowFor at hrowFor
  split_ifs at hrowFor with htarget
  have hselected : (row.guid, r) ∈ c.db.sources.select fun _ r =>
      r.targetGuid = some guid && r.conversationId = cid :=
    Table.get?_select.mpr ⟨hr, by simp [htarget]⟩
  rw [Sql.execute_ok h, if_neg (List.ne_nil_of_mem hselected), Table.get?_upsert, if_pos rfl]
  exact Option.some_ne_none _

/-- The imported message itself is no target that is up to date without being queued. -/
theorem importMessage_keeps (hfree : enc.CollisionFree)
    (hobs : ∀ obs, m.reaction = some obs → obs.targetGuid ≠ some []) :
    Sql.Yields (Keeps enc slotId) (importMessage enc now features m cid view origin) := by
  refine .bind (keeps_of_steps (observed_steps hobs)) fun event =>
    .bind (keeps_of_steps relabelled_steps) fun event c u c' h hp => ?_
  obtain ⟨_, c₁, hwrite, h⟩ := Sql.bind_ok h
  unfold inJournal at hwrite
  obtain ⟨c₂, hrun, hdb₁, -⟩ := Sql.zoom_ok hwrite
  have huniform : Uniform { decorated m cid view with reactionEvent := event }.attachments :=
    Assets.attach_uniform view.refs _
  obtain ⟨hw, hothers, after, hafter, hconversation, hkind⟩ :=
    sourceMessage_writes hfree hp.sound.whole huniform hrun
  have hs₁ : Sound enc c₁.db := by
    rw [hdb₁]
    exact ⟨hw, hp.sound.targets⟩
  have hshown : shown c₁.db.journal m.source = some after := by
    rw [hdb₁]
    exact hafter
  have hcurrent (cid' guid : Bytes) (hguid : guid ≠ m.source) : UpToDate slotId c₁.db cid' guid := by
    intro v hv
    rw [hdb₁] at hv ⊢
    rw [shown, hothers guid hguid] at hv
    exact hp.current cid' guid v hv
  split_ifs at h with hordinary
  · obtain ⟨hs', hdefers⟩ := targetImported_steps c₁ u c' h hs₁
    refine ⟨hs', fun cid' guid => ?_⟩
    by_cases hguid : guid = m.source
    · intro v hv hcid _ hrows hnone
      have hview := hdefers.views m.source
      rw [hguid] at hv hrows hnone
      rw [hv, hshown, Option.map_some, Option.map_some, Option.some.injEq] at hview
      have hsame : v.conversationId = after.conversationId :=
        congrArg (fun f => f.1.conversationId) hview
      rw [hsame, hconversation] at hcid
      have hcid : cid = cid' := hcid
      rw [← hcid] at hrows hnone
      rw [hdefers.rows cid m.source hnone] at hrows
      exact absurd hnone (targetImported_queued h hrows)
    · exact (hcurrent cid' guid hguid).defers hdefers
  · rw [(Sql.pure_ok h).2]
    refine ⟨hs₁, fun cid' guid => ?_⟩
    by_cases hguid : guid = m.source
    · intro v hv _ hreaction
      rw [hguid, hshown, Option.some.injEq] at hv
      have hsame : after.kind = m.value.kind := hkind
      rw [← hv, hsame] at hreaction
      exact absurd hreaction hordinary
    · exact hcurrent cid' guid hguid

end Import

section Other

theorem meets_steps {j : Journal} (h : Meets s.journal j) :
    Steps enc s { s with journal := j } := by
  intro hs
  refine ⟨⟨hs.whole.meets h, hs.targets⟩, fun _ hk => hk, fun _ _ _ => rfl, fun guid => ?_⟩
  rw [shown, shown, Meets.message_eq h]

theorem inJournal_steps {α : Type} {m : Tx α}
    (hm : ∀ c a c', m.run c = (.ok a, c') → Meets c.db c'.db) :
    Sql.Yields (Steps enc) (inJournal m) := by
  intro c a c' h
  unfold inJournal at h
  obtain ⟨c₁, hrun, hdb, -⟩ := Sql.zoom_ok h
  rw [hdb]
  exact meets_steps (hm _ _ _ hrun)

theorem perform_meets {op : IngestOp} (hother : op.observes = false)
    {c c' : Conn Journal Bytes} {u : Unit} (h : (perform enc now op).run c = (.ok u, c')) :
    Meets c.db c'.db := by
  cases op with
  | conversation source row route value origin =>
    obtain ⟨_, c₁, hwrite, h⟩ := Sql.bind_ok h
    rw [(Sql.pure_ok h).2]
    exact conversation_meets hwrite
  | sourceMessage source row date value origin => cases hother
  | message source row date value origin => cases hother
  | observeIdentity service address =>
    obtain ⟨_, c₁, hwrite, h⟩ := Sql.bind_ok h
    rw [(Sql.pure_ok h).2]
    exact (observeIdentity_meets hwrite).1
  | updateIdentity value => exact updateIdentity_meets h
  | setProgress key value =>
    change (setProgress key value).run c = _ at h
    unfold setProgress at h
    exact execute_meets h fun _ => ⟨rfl, rfl, rfl, rfl⟩
  | deleteProgress key =>
    change (deleteProgress key).run c = _ at h
    unfold deleteProgress at h
    exact execute_meets h fun _ => ⟨rfl, rfl, rfl, rfl⟩

theorem reset_empty {c c' : Conn Journal Bytes} {u : Unit}
    (h : (Relay.reset now).run c = (.ok u, c')) : c'.db.messages = .empty := by
  obtain ⟨_, c₁, hcache, h⟩ := Sql.bind_ok h
  obtain ⟨items, c₂, hitems, h⟩ := Sql.bind_ok h
  obtain ⟨epoch, c₃, hepoch, h⟩ := Sql.bind_ok h
  obtain ⟨_, c₄, hclear, h⟩ := Sql.bind_ok h
  obtain ⟨_, c₅, hloop, hmark⟩ := Sql.bind_ok h
  have hheld : Meets c₄.db c₅.db := by
    refine Sql.each_ok (I := fun c' => Meets c₄.db c'.db) ?_ hloop (Meets.refl _)
    intro row _ d d' _ hI h
    obtain ⟨v, d₁, hv, h⟩ := Sql.bind_ok h
    rw [(Sql.orThrow_ok hv).2] at h
    split_ifs at h
    · obtain ⟨w, d₂, hwrite, h⟩ := Sql.bind_ok h
      rw [(Sql.pure_ok h).2]
      exact hI.trans (updateRequest_meets hwrite)
    · exact hI.trans (execute_meets h fun _ => ⟨rfl, rfl, rfl, rfl⟩)
  rw [Sql.execute_ok hmark]
  refine hheld.messages.trans ?_
  rw [Sql.execute_ok hclear]
  rfl

theorem whole_of_empty {j : Journal} (hs : Sourced enc j) (h : j.messages = .empty) :
    Whole enc j := by
  refine ⟨hs, fun id r hr => ?_, fun id r hr => ?_⟩ <;>
  · rw [h] at hr
    cases hr

theorem projected_of_empty {j : Journal} (hw : Whole enc j) :
    Projected enc slotId { journal := j } :=
  ⟨⟨hw, fun _ _ hr => by cases hr⟩, fun _ _ _ _ _ _ hrows => absurd rfl hrows⟩

theorem republish_steps (hfree : enc.CollisionFree)
    {image viewer card : Option AssetRef → Option AssetRef} :
    Sql.Yields (Steps enc) (republish enc now guid image viewer card) := by
  intro c _ c' h hs
  obtain ⟨stored, c₁, hstored, h⟩ := Sql.bind_ok h
  obtain ⟨hstored, hdb₁⟩ := Sql.query_ok hstored
  rw [← hdb₁] at hs hstored ⊢
  cases stored with
  | none =>
    rw [(Sql.pure_ok h).2]
    exact ⟨hs, .refl _⟩
  | some m =>
    have hold : shown c₁.db.journal guid = some m.value := by
      rw [shown, ← hstored]
      rfl
    have hsource : m.source = guid := by
      obtain ⟨id, r, -, rfl⟩ := message_source hs.whole.sourced.distinct hstored.symm
      rfl
    have haspect : aspect (republished image viewer card m.value) = aspect m.value := by
      have hcards : (m.value.linkPreviews.map fun cards => cards.map (imaged card)).map
          (fun cards => cards.map LinkPreview.partId) =
            m.value.linkPreviews.map fun cards => cards.map LinkPreview.partId := by
        rw [Option.map_map]
        refine congrArg (fun f => m.value.linkPreviews.map f) (funext fun cards => ?_)
        exact List.map_map
      rw [aspect, aspect, Aspect.mk.injEq]
      exact ⟨rfl, rfl, rfl, rfl, hcards⟩
    have huniform : Uniform (republished image viewer card m.value).attachments :=
      Assets.republish_uniform image viewer _ (stored_uniform hs.whole hstored.symm)
    have hpublished := publish_ok hfree hs.whole hsource hold haspect huniform h
    exact ⟨hpublished.sound hs, hpublished.defers hold rfl⟩

theorem checkFirst_steps {chosen : Source → Bool} : Sql.Yields (Steps enc)
    (Sql.execute (checkFirst chosen) : ReactionTx Unit) := by
  refine Sql.Yields.execute fun s hs => ⟨⟨hs.whole, fun guid r hr => ?_⟩, fun _ hk => hk,
    fun cid' target _ => ?_, fun _ => rfl⟩
  · rw [checkFirst, Table.get?_modifyWhere] at hr
    obtain ⟨old, hold, rfl⟩ := Option.map_eq_some_iff.mp hr
    split_ifs
    · exact hs.targets guid old hold
    · exact hs.targets guid old hold
  · refine rowsOf_congr fun guid => ?_
    rw [checkFirst, Table.get?_modifyWhere]
    cases s.sources.get? guid with
    | none => rfl
    | some r =>
      rw [Option.map_some, Option.bind_some, Option.bind_some]
      split_ifs <;> rfl

end Other

section Decode

variable {code : Int} {target emoji : Bytes} {actor : ReactionActor} {obs : ReactionObservation}

theorem locate_target {v v' : ReactionObservation} {rest : Bytes}
    (h : locate target v = some (v', rest)) : v'.targetGuid = v.targetGuid := by
  unfold locate at h
  split_ifs at h
  · cases hseparator : target.findIdx? fun ch => decide (ch = 47) with
    | none =>
      rw [hseparator] at h
      cases h
    | some separator =>
      rw [hseparator] at h
      dsimp only at h
      split_ifs at h
      rw [← (Prod.mk.inj (Option.some.inj h)).1]
  · rw [← (Prod.mk.inj (Option.some.inj h)).1]
  · rw [← (Prod.mk.inj (Option.some.inj h)).1]

theorem aim_target {v : ReactionObservation} (hv : v.targetGuid = none) {guid : Bytes}
    (h : (aim target actor v).targetGuid = some guid) : validGuid guid = true := by
  unfold aim at h
  cases hlocate : locate target v with
  | none =>
    rw [hlocate] at h
    change v.targetGuid = some guid at h
    rw [hv] at h
    cases h
  | some located =>
    obtain ⟨v', rest⟩ := located
    rw [hlocate] at h
    dsimp only at h
    split_ifs at h with hinvalid
    · change v'.targetGuid = some guid at h
      rw [locate_target hlocate, hv] at h
      cases h
    · rw [← Option.some.inj h]
      simpa using hinvalid
    · rw [← Option.some.inj h]
      simpa using hinvalid

theorem decode_target (h : decode code target emoji actor = some obs) {guid : Bytes}
    (hguid : obs.targetGuid = some guid) : validGuid guid = true := by
  unfold decode at h
  dsimp only at h
  split_ifs at h
  · split at h
    · rw [← Option.some.inj h] at hguid
      cases hguid
    · rw [← Option.some.inj h] at hguid
      exact aim_target rfl hguid
  · rw [← Option.some.inj h] at hguid
    exact aim_target rfl hguid
  · split at h
    · rw [← Option.some.inj h] at hguid
      cases hguid
    · rw [← Option.some.inj h] at hguid
      exact aim_target rfl hguid
  · rw [← Option.some.inj h] at hguid
    exact aim_target rfl hguid

theorem reactionOf_target {d : Decoders} {c : MessagesDb.MessageColumns}
    {features : MessagesDb.Features}
    (h : MessagesDb.reactionOf { d with reaction := decode } c features = some obs) :
    obs.targetGuid ≠ some [] := by
  intro hempty
  unfold MessagesDb.reactionOf at h
  by_cases hcandidate :
      (MessagesDb.candidate c.associatedMessageType && features.reactionTarget) = true
  · rw [if_pos hcandidate] at h
    dsimp only at h
    by_cases hrange : features.reactionRange = true
    · rw [if_pos hrange] at h
      obtain ⟨decoded, hdecoded, rfl⟩ := Option.map_eq_some_iff.mp h
      exact absurd (decode_target hdecoded hempty) (by decide)
    · rw [if_neg hrange] at h
      exact absurd (decode_target h hempty) (by decide)
  · rw [if_neg hcandidate] at h
    cases h

theorem message_target {source : MessagesDb} {d : Decoders} {row : Int} {m : SourceMessage}
    (h : source.message { d with reaction := decode } row = .ok (some m))
    (hobs : m.reaction = some obs) : obs.targetGuid ≠ some [] := by
  unfold MessagesDb.message at h
  cases hcolumns : source.columns row with
  | none =>
    rw [hcolumns] at h
    cases h
  | some c =>
    simp only [hcolumns, MessagesDb.decodeMessage] at h
    cases htimestamp : MessagesDb.timestamp c.date with
    | error e =>
      rw [htimestamp] at h
      cases h
    | ok timestamp =>
      rw [htimestamp] at h
      have hm := Option.some.inj (Except.ok.inj h)
      rw [← hm] at hobs
      exact reactionOf_target hobs

end Decode

section Run

theorem reset_keeps : Sql.Yields (Keeps enc slotId) (act enc slotId now .reset) := by
  intro c u c' h _
  obtain ⟨_, c₁, hreset, h⟩ := Sql.bind_ok h
  unfold inJournal at hreset
  obtain ⟨c₂, hrun, hdb₁, -⟩ := Sql.zoom_ok hreset
  rw [Sql.execute_ok h, hdb₁]
  exact projected_of_empty (whole_of_empty (reset_sourced hrun) (reset_empty hrun))

theorem act_keeps (hfree : enc.CollisionFree) (a : ReactionAction) :
    Sql.Yields (Keeps enc slotId) (act enc slotId now a) := by
  cases a with
  | visit source decoders row cid view origin =>
    refine .lift_bind fun found hfound => ?_
    cases found with
    | none => exact .pure
    | some m => exact importMessage_keeps hfree fun obs => message_target hfound
  | tracked source => exact .bind (keeps_of_steps (trackedRows_steps hfree)) fun _ => .pure
  | project => exact project_keeps hfree
  | prioritize cid => exact keeps_of_steps checkFirst_steps
  | messageRead id =>
    refine .bind (.of_reads .require) fun _ => .bind .query fun _ => .bind .orThrow fun _ => ?_
    exact keeps_of_steps checkFirst_steps
  | republish guid image viewer card => exact keeps_of_steps (republish_steps hfree)
  | write op =>
    change Sql.Yields _ (if op.observes then _ else _)
    by_cases hobserves : op.observes = true
    · rw [if_pos hobserves]
      exact .pure
    · rw [if_neg hobserves]
      exact keeps_of_steps (inJournal_steps fun c u c' h =>
        perform_meets (Bool.not_eq_true _ ▸ hobserves) h)
  | reset => exact reset_keeps
  | elsewhere f => exact keeps_of_steps (.execute fun s => meets_steps (besides_meets f s.journal))
  | forget p =>
    refine keeps_of_steps (.execute fun s hs => ⟨⟨⟨hs.whole.sourced.forget, hs.whole.recorded,
      hs.whole.parted⟩, hs.targets⟩, fun _ hk => hk, fun _ _ _ => rfl, fun _ => rfl⟩)

theorem step_projected (hfree : enc.CollisionFree) (h : Projected enc slotId s) (b : Batch) :
    Projected enc slotId ((projecting enc slotId).step s b) := by
  have hbatch : Sql.Advances (Keeps enc slotId) (Sql.transaction (Sql.each
      (fun a : Int × ReactionAction => act enc slotId a.1 a.2) b.actions)) :=
    .transaction_of_yields (.each fun a _ => act_keeps hfree a.2)
  exact hbatch _ h

/-- Whatever rows are imported, rewritten, retired or reset in whatever order, a
message that is not queued shows exactly the projection of the reactions that
target it in its conversation. -/
theorem reactions_projected (enc : Encoding) (hfree : enc.CollisionFree)
    (slotId : Bytes → Slot → Bytes) (epoch : Bytes) (batches : List Batch) :
    let s := (projecting enc slotId).run { journal := { epoch := epoch } } batches
    ∀ cid guid v, shown s.journal guid = some v → v.conversationId = cid → v.kind ≠ .reaction →
      rowsOf s.sources cid guid ≠ [] → s.work.get? (cid, guid) = none →
      v.reactions = some (projection slotId cid v (rowsOf s.sources cid guid)) := by
  have hempty : Projected enc slotId { journal := { epoch := epoch } } :=
    projected_of_empty (whole_of_empty (sourced_of_empty enc rfl rfl rfl) rfl)
  exact (Machine.run_invariant (I := Projected enc slotId) (projecting enc slotId)
    (fun _ b hs => step_projected hfree hs b) _ batches hempty).current

end Run

end Steps

section Sample

noncomputable def sparseDigest {α : Type} [Countable α] : List α → Bytes
  | [] => []
  | items => 1 :: unaryDigest items

theorem sparseDigest_injective {α : Type} [Countable α] :
    Function.Injective (sparseDigest : List α → Bytes) := by
  intro a b h
  cases a with
  | nil =>
    cases b with
    | nil => rfl
    | cons y ys => cases h
  | cons x xs =>
    cases b with
    | nil => cases h
    | cons y ys => exact unaryDigest_injective (List.cons.inj h).2

/-- Digests that never collide, and that tell no items from some at sight. -/
noncomputable def sparse : Encoding := { unary with
  attachmentsDigest := sparseDigest
  previewsDigest := sparseDigest
  reactionsDigest := sparseDigest
  partsDigest := sparseDigest }

theorem sparse_collisionFree : sparse.CollisionFree where
  attachments := sparseDigest_injective
  previews := sparseDigest_injective
  reactions := sparseDigest_injective
  parts := sparseDigest_injective
  fingerprint := unary_collisionFree.fingerprint

def parentGuid : Bytes := text "00000000-0000-0000-0000-000000000001"

def oneHeart : MessagesDb where
  identity := text "chat.db"
  features := { reactionTarget := true }
  messages := [
    (1, { guid := parentGuid, isFromMe := 1, chatId := 1 }),
    (2, {
      guid := text "heart", isFromMe := 1, chatId := 1, associatedMessageType := 2000
      associatedMessageGuid := some parentGuid })]
  ascending := by decide
  bounded := by decide
  chatsAscending := MessagesDb.empty.chatsAscending

def plainDecoders : Decoders where
  body _ := .error .unsupported
  parts _ _ _ := .error .unsupported
  link _ := { state := .complete }
  bindLocalArtwork _ _ artwork := artwork
  reaction _ _ _ _ := none
  hashId id := id

def visit (row : Int) : ReactionAction :=
  .visit oneHeart plainDecoders row (text "c") {
    attachments := [], refs := fun _ => (none, none), cards := none } .live

/-- The heart is imported before the message, and then projected. -/
def heartFirst : List Batch := [
  { actions := [(1, .write (.conversation (text "chat") 1 (text "chat")
      { service := text "imessage" } .historicalImport))], fresh := [text "c"] },
  { actions := [(2, visit 2), (2, .project)], fresh := [text "r"] },
  { actions := [(3, visit 1), (3, .project)], fresh := [text "m"] }]

theorem reactions_projected_heart :
    let s := (projecting sparse fun id _ => id).run { journal := { epoch := text "e" } } heartFirst
    ∃ v, shown s.journal parentGuid = some v ∧
      v.reactions = some (projection (fun id _ => id) (text "c") v
        (rowsOf s.sources (text "c") parentGuid)) ∧
      (v.reactions.getD []).map Reaction.key = [text "heart"] := by
  intro s
  have hfacts : (shown s.journal parentGuid).map (fun v =>
      (v.conversationId, v.kind, (v.reactions.getD []).map Reaction.key)) =
        some (text "c", .empty, [text "heart"]) := by decide +kernel
  obtain ⟨v, hv, hfields⟩ := Option.map_eq_some_iff.mp hfacts
  obtain ⟨hcid, hfields⟩ := Prod.mk.inj hfields
  obtain ⟨hkind, hkeys⟩ := Prod.mk.inj hfields
  refine ⟨v, hv, ?_, hkeys⟩
  exact reactions_projected sparse sparse_collisionFree (fun id _ => id) (text "e") heartFirst
    (text "c") parentGuid v hv hcid (by rw [hkind]; decide) (by decide +kernel)
    (by decide +kernel)

end Sample

end Zimbr.Relay.Reactions
