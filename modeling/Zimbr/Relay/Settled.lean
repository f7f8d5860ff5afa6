import Zimbr.Relay.Ingestion

set_option autoImplicit false

/-!
# Observing a message again

A message that was observed merges with what it stored to what it stored: the
stored sections hold every item, so nothing is lost to the inline budget.
-/
namespace Zimbr.Relay
open Library

/-- Digests of different contents are different. -/
structure Encoding.CollisionFree (enc : Encoding) : Prop where
  attachments : Function.Injective enc.attachmentsDigest
  previews : Function.Injective enc.previewsDigest
  reactions : Function.Injective enc.reactionsDigest
  parts : Function.Injective enc.partsDigest
  fingerprint : ∀ row date v row' date' v',
    enc.fingerprint row date v = enc.fingerprint row' date' v' → row = row' ∧ date = date' ∧ v = v'

def Uniform (attachments : List Attachment) : Prop :=
  ∀ a ∈ attachments, ∀ b ∈ attachments, a.id = b.id → a.image = b.image ∧ a.viewer = b.viewer

namespace Enrichment

def Digested {α : Type} (digest : List α → Bytes) (section' : Option (Bytes × List α)) : Prop :=
  ∀ d items, section' = some (d, items) → d = digest items

structure SectionsDigested (enc : Encoding) (sections : Sections) : Prop where
  attachments : Digested enc.attachmentsDigest sections.attachments
  previews : Digested enc.previewsDigest sections.previews
  reactions : Digested enc.reactionsDigest sections.reactions
  parts : Digested enc.partsDigest sections.parts

/-- The message as it is stored, before the inline budget. -/
def merged (j : Journal) (v : Message) (previous : Option Message) : Message :=
  withParts (mergePrevious j v previous)

def persisted (prepared : Prepared) (old : Sections) : Sections where
  attachments := prepared.sections.attachments.orElse fun _ => old.attachments
  previews := prepared.sections.previews.orElse fun _ => old.previews
  reactions := prepared.sections.reactions.orElse fun _ => old.reactions
  parts := prepared.sections.parts.orElse fun _ => old.parts

section Sections

variable {α : Type} {digest : List α → Bytes} {old : Option (Bytes × List α)}
  {items : Option (List α)}

theorem replacement_stored (hinj : Function.Injective digest) (hold : Digested digest old)
    (hkept : items = none → old = none) :
    (((replacement digest old items).orElse fun _ => old).map Prod.snd) = items := by
  cases items with
  | none => simp [replacement, hkept rfl]
  | some items =>
    unfold replacement
    by_cases hsame : old.map Prod.fst = some (digest items)
    · obtain ⟨⟨d, stored⟩, hstored, hd⟩ := Option.map_eq_some_iff.mp hsame
      have hdigest : digest stored = digest items := (hold d stored hstored).symm.trans hd
      simp [hstored, show d = digest items from hd, hinj hdigest]
    · simp [hsame]

theorem replacement_digested (hold : Digested digest old) :
    Digested digest ((replacement digest old items).orElse fun _ => old) := by
  cases items with
  | none => exact hold
  | some items =>
    intro d stored hstored
    unfold replacement at hstored
    by_cases hsame : old.map Prod.fst = some (digest items)
    · exact hold d stored (by simpa [hsame] using hstored)
    · have hnew : digest items = d ∧ items = stored := by simpa [hsame] using hstored
      rw [← hnew.1, ← hnew.2]

theorem replacement_again (hold : Digested digest old) (hsame : old.map Prod.snd = items) :
    replacement digest old items = none := by
  cases old with
  | none => rw [← hsame]; rfl
  | some stored =>
    rw [← hsame]
    simp [replacement, hold stored.1 stored.2 rfl]

end Sections

section Attachments

def imagesOf (old : List Attachment) (id : Bytes) : Option AssetRef × Option AssetRef :=
  match old.reverse.find? fun o => decide (o.id = id) with
  | some o => (o.image, o.viewer)
  | none => (none, none)

theorem mergeAttachments_eq (old new : List Attachment) :
    mergeAttachments old new = new.map fun a => { a with
      image := a.image.orElse fun _ => (imagesOf old a.id).1
      viewer := a.viewer.orElse fun _ => (imagesOf old a.id).2 } := by
  unfold mergeAttachments imagesOf
  refine List.map_congr_left fun a _ => ?_
  cases old.reverse.find? fun o => decide (o.id = a.id) with
  | none => cases a; simp
  | some o => rfl

/-- The images of an identifier are those of any attachment that has it. -/
theorem imagesOf_uniform {attachments : List Attachment} (h : Uniform attachments)
    {a : Attachment} (ha : a ∈ attachments) : imagesOf attachments a.id = (a.image, a.viewer) := by
  unfold imagesOf
  cases hfind : attachments.reverse.find? fun o => decide (o.id = a.id) with
  | none =>
    rw [List.find?_eq_none] at hfind
    exact absurd (decide_eq_true rfl) (hfind a (List.mem_reverse.mpr ha))
  | some o =>
    have hmem : o ∈ attachments := List.mem_reverse.mp (List.mem_of_find?_eq_some hfind)
    have hid : o.id = a.id := by simpa using List.find?_some hfind
    obtain ⟨himage, hviewer⟩ := h o hmem a ha hid
    exact Prod.ext himage hviewer

theorem mergeAttachments_uniform (old : List Attachment) {new : List Attachment} (h : Uniform new) :
    Uniform (mergeAttachments old new) := by
  rw [mergeAttachments_eq]
  intro a ha b hb hid
  obtain ⟨a', ha', rfl⟩ := List.mem_map.mp ha
  obtain ⟨b', hb', rfl⟩ := List.mem_map.mp hb
  have hid : a'.id = b'.id := hid
  obtain ⟨himage, hviewer⟩ := h a' ha' b' hb' hid
  simp [hid, himage, hviewer]

theorem mergeAttachments_again {old new : List Attachment} (h : Uniform new) :
    mergeAttachments (mergeAttachments old new) new = mergeAttachments old new := by
  have huniform := mergeAttachments_uniform old h
  rw [mergeAttachments_eq (mergeAttachments old new) new]
  conv_rhs => rw [mergeAttachments_eq]
  refine List.map_congr_left fun a ha => ?_
  have hmem : { a with
      image := a.image.orElse fun _ => (imagesOf old a.id).1
      viewer := a.viewer.orElse fun _ => (imagesOf old a.id).2 } ∈ mergeAttachments old new := by
    rw [mergeAttachments_eq]
    exact List.mem_map_of_mem ha
  have himages := imagesOf_uniform huniform hmem
  rw [show imagesOf (mergeAttachments old new) a.id = _ from himages]
  cases a.image <;> cases a.viewer <;> rfl

theorem mergeAttachments_self {new : List Attachment} (h : Uniform new) :
    mergeAttachments new new = new := by
  rw [mergeAttachments_eq]
  conv_rhs => rw [← List.map_id new]
  refine List.map_congr_left fun a ha => ?_
  rw [imagesOf_uniform h ha]
  cases a with
  | mk id name mimeType bytes image viewer previewArtwork =>
    cases image <;> cases viewer <;> rfl

end Attachments

section Prepare

variable {enc : Encoding} {j j' : Journal} {v : Message} {previous : Option Message}
  {prepared : Prepared}

def changes (enc : Encoding) (old : Sections) (m : Message) : Sections where
  attachments := replacement enc.attachmentsDigest old.attachments (some m.attachments)
  previews := replacement enc.previewsDigest old.previews m.linkPreviews
  reactions := replacement enc.reactionsDigest old.reactions m.reactions
  parts := replacement enc.partsDigest old.parts m.parts

def tooLarge (enc : Encoding) (m : Message) : Bool :=
  oversized enc.attachment (some m.attachments) || oversized enc.preview m.linkPreviews ||
    oversized enc.reaction m.reactions || oversized enc.part m.parts

/-- A message is prepared from its merged form and the sections stored under its
identifier, and from nothing else. -/
theorem prepare_eq (enc : Encoding) (j : Journal) (v : Message) (previous : Option Message) :
    prepare enc j v previous =
      let m := merged j v previous
      let sections := changes enc (stored j v.id) m
      if tooLarge enc m then .error .metadataItemTooLarge
      else match inlineMessage enc m with
      | .error e => .error e
      | .ok value => .ok {
          value := value
          sections := sections
          changed := sections.attachments.isSome || sections.previews.isSome ||
            sections.reactions.isSome || sections.parts.isSome } := by
  have hid : (withParts (mergePrevious j v previous)).id = v.id := by
    rw [withParts_id, mergePrevious_id]
  unfold prepare
  dsimp only
  rw [hid]
  rfl

theorem prepare_ok (h : prepare enc j v previous = .ok prepared) :
    tooLarge enc (merged j v previous) = false ∧
      inlineMessage enc (merged j v previous) = .ok prepared.value ∧
      prepared.sections = changes enc (stored j v.id) (merged j v previous) := by
  rw [prepare_eq] at h
  dsimp only at h
  by_cases hlarge : tooLarge enc (merged j v previous) = true
  · rw [if_pos hlarge] at h
    exact nomatch h
  · rw [if_neg hlarge] at h
    cases hinline : inlineMessage enc (merged j v previous) with
    | error e =>
      rw [hinline] at h
      exact nomatch h
    | ok value =>
      rw [hinline, Except.ok.injEq] at h
      rw [← h]
      exact ⟨by simpa using hlarge, rfl, rfl⟩

/-- What is inlined is cut to prefixes; a section that was unsupplied stays so. -/
theorem inlineMessage_ok {m value : Message} (h : inlineMessage enc m = .ok value) :
    value.reactionEvent = m.reactionEvent ∧
      (m.linkPreviews = none → value.linkPreviews = none) ∧
      (m.reactions = none → value.reactions = none) := by
  unfold inlineMessage at h
  dsimp only at h
  split at h
  · exact nomatch h
  · rw [Except.ok.injEq] at h
    rw [← h]
    exact ⟨rfl, fun hnone => by simp [hnone], fun hnone => by simp [hnone]⟩

theorem withParts_fields (v : Message) : (withParts v).attachments = v.attachments ∧
    (withParts v).linkPreviews = v.linkPreviews ∧ (withParts v).reactions = v.reactions ∧
    (withParts v).reactionEvent = v.reactionEvent ∧ (withParts v).parts.isSome = true := by
  unfold withParts
  split
  · next parts hparts => exact ⟨rfl, rfl, rfl, rfl, by rw [hparts]; rfl⟩
  · exact ⟨rfl, rfl, rfl, rfl, rfl⟩

theorem merged_unsupplied (hprevious : ∀ old, previous = some old → old.id = v.id)
    (hnew : previous = none → stored j v.id = {}) :
    ((merged j v previous).linkPreviews = none → (stored j v.id).previews = none) ∧
      ((merged j v previous).reactions = none → (stored j v.id).reactions = none) := by
  obtain ⟨-, hpreviews, hreactions, -⟩ := withParts_fields (mergePrevious j v previous)
  rw [merged, hpreviews, hreactions]
  cases previous with
  | none =>
    rw [hnew rfl]
    exact ⟨fun _ => rfl, fun _ => rfl⟩
  | some old =>
    simp only [mergePrevious, full, hprevious old rfl]
    constructor
    · intro hnone
      cases hstored : (stored j v.id).previews with
      | none => rfl
      | some section' =>
        rw [hstored] at hnone
        cases hv : v.linkPreviews <;> simp [hv] at hnone
    · intro hnone
      cases hstored : (stored j v.id).reactions with
      | none => rfl
      | some section' =>
        rw [hstored] at hnone
        cases hv : v.reactions <;> simp [hv] at hnone

theorem persisted_digested (hdigested : SectionsDigested enc (stored j v.id))
    (h : prepare enc j v previous = .ok prepared) :
    SectionsDigested enc (persisted prepared (stored j v.id)) := by
  obtain ⟨-, -, hsections⟩ := prepare_ok h
  constructor <;> simp only [persisted, hsections, changes]
  · exact replacement_digested hdigested.attachments
  · exact replacement_digested hdigested.previews
  · exact replacement_digested hdigested.reactions
  · exact replacement_digested hdigested.parts

theorem persisted_attachments (hfree : enc.CollisionFree)
    (h : prepare enc j v previous = .ok prepared)
    (hdigested : SectionsDigested enc (stored j v.id)) :
    (persisted prepared (stored j v.id)).attachments.map Prod.snd =
      some (merged j v previous).attachments := by
  have hsupplied : some (merged j v previous).attachments = none →
      (stored j v.id).attachments = none := fun hnone => nomatch hnone
  rw [persisted, (prepare_ok h).2.2]
  exact replacement_stored hfree.attachments hdigested.attachments hsupplied

theorem merged_uniform (huniform : Uniform v.attachments) :
    Uniform (merged j v previous).attachments := by
  rw [merged, (withParts_fields _).1]
  cases previous with
  | none => exact huniform
  | some old => exact mergeAttachments_uniform _ huniform

/-- What a merge took from the stored message it takes again from its own result. -/
theorem mergePrevious_again (huniform : Uniform v.attachments) {old : Message}
    (hattachments : (full j' old).attachments = (mergePrevious j v previous).attachments)
    (hpreviews : (full j' old).linkPreviews = (mergePrevious j v previous).linkPreviews)
    (hreactions : (full j' old).reactions = (mergePrevious j v previous).reactions)
    (hevent : old.reactionEvent = (mergePrevious j v previous).reactionEvent) :
    mergePrevious j' v (some old) = mergePrevious j v previous := by
  have hevent' : (full j' old).reactionEvent = (mergePrevious j v previous).reactionEvent := hevent
  have heq : mergePrevious j' v (some old) = { v with
      reactions := v.reactions.orElse fun _ => (full j' old).reactions
      linkPreviews := v.linkPreviews.orElse fun _ => (full j' old).linkPreviews
      reactionEvent := v.reactionEvent.orElse fun _ => (full j' old).reactionEvent
      attachments := mergeAttachments (full j' old).attachments v.attachments } := rfl
  rw [heq, hattachments, hpreviews, hreactions, hevent']
  cases previous with
  | none =>
    simp only [mergePrevious, mergeAttachments_self huniform]
    cases v with
    | mk => simp
  | some before =>
    simp only [mergePrevious, mergeAttachments_again huniform]
    cases v.reactions <;> cases v.linkPreviews <;> cases v.reactionEvent <;> rfl

/-- Once its sections are stored, a message merges to the same message and
changes no section. -/
theorem prepare_again (hfree : enc.CollisionFree) (h : prepare enc j v previous = .ok prepared)
    (hdigested : SectionsDigested enc (stored j v.id))
    (hprevious : ∀ old, previous = some old → old.id = v.id)
    (hnew : previous = none → stored j v.id = {}) (huniform : Uniform v.attachments)
    (hstored : stored j' v.id = persisted prepared (stored j v.id)) (revision : Nat) :
    ∃ again, prepare enc j' v (some { prepared.value with revision := revision }) = .ok again ∧
      again.changed = false ∧ again.value = prepared.value := by
  obtain ⟨hlarge, hinline, hsections⟩ := prepare_ok h
  obtain ⟨hpreviews, hreactions⟩ := merged_unsupplied hprevious hnew
  obtain ⟨hevent, hinlinePreviews, hinlineReactions⟩ := inlineMessage_ok hinline
  obtain ⟨hmAttachments, hmPreviews, hmReactions, hmEvent, hmParts⟩ :=
    withParts_fields (mergePrevious j v previous)
  have hid : prepared.value.id = v.id := prepare_id h
  have hdigested' := persisted_digested hdigested h
  rw [← hstored] at hdigested'
  have hattachments' : (stored j' v.id).attachments.map Prod.snd =
      some (merged j v previous).attachments := by
    rw [hstored]
    exact persisted_attachments hfree h hdigested
  have hpreviews' : (stored j' v.id).previews.map Prod.snd =
      (merged j v previous).linkPreviews := by
    rw [hstored, persisted, hsections]
    exact replacement_stored hfree.previews hdigested.previews hpreviews
  have hreactions' : (stored j' v.id).reactions.map Prod.snd =
      (merged j v previous).reactions := by
    rw [hstored, persisted, hsections]
    exact replacement_stored hfree.reactions hdigested.reactions hreactions
  have hparts' : (stored j' v.id).parts.map Prod.snd = (merged j v previous).parts := by
    rw [hstored, persisted, hsections]
    refine replacement_stored hfree.parts hdigested.parts fun hnone => ?_
    have hsome : (merged j v previous).parts.isSome = true := hmParts
    rw [hnone] at hsome
    exact nomatch hsome
  have hmerged : merged j' v (some { prepared.value with revision := revision }) =
      merged j v previous := by
    refine congrArg withParts (mergePrevious_again huniform ?_ ?_ ?_ (hevent.trans hmEvent))
    · rw [← hmAttachments]
      change ((stored j' prepared.value.id).attachments.map Prod.snd).getD _ = _
      rw [hid, hattachments']
      rfl
    · rw [← hmPreviews]
      change ((stored j' prepared.value.id).previews.map Prod.snd).orElse _ = _
      rw [hid, hpreviews']
      change (merged j v previous).linkPreviews.orElse _ = (merged j v previous).linkPreviews
      cases hlist : (merged j v previous).linkPreviews with
      | none => exact hinlinePreviews hlist
      | some items => rfl
    · rw [← hmReactions]
      change ((stored j' prepared.value.id).reactions.map Prod.snd).orElse _ = _
      rw [hid, hreactions']
      change (merged j v previous).reactions.orElse _ = (merged j v previous).reactions
      cases hlist : (merged j v previous).reactions with
      | none => exact hinlineReactions hlist
      | some items => rfl
  rw [prepare_eq, hmerged]
  dsimp only
  rw [if_neg (by simp [hlarge]), hinline]
  refine ⟨_, rfl, ?_, rfl⟩
  simp only [changes, replacement_again hdigested'.attachments hattachments',
    replacement_again hdigested'.previews hpreviews',
    replacement_again hdigested'.reactions hreactions',
    replacement_again hdigested'.parts hparts']
  rfl

theorem prepare_congr (hstored : stored j' v.id = stored j v.id)
    (hprevious : ∀ old, previous = some old → old.id = v.id) :
    prepare enc j' v previous = prepare enc j v previous := by
  have hmerged : merged j' v previous = merged j v previous := by
    cases previous with
    | none => rfl
    | some old =>
      have hfull : full j' old = full j old := by
        unfold full
        rw [hprevious old rfl, hstored]
      rw [merged, merged, mergePrevious, mergePrevious, hfull]
  rw [prepare_eq, prepare_eq, hmerged, hstored]

end Prepare

end Enrichment

def Known (j : Journal) (service address : Bytes) : Prop :=
  address = [] ∨ (findIdentity service address j).isSome = true

structure ActorsKnown (j : Journal) (v : Message) : Prop where
  sender : v.direction = .incoming → Known j v.service v.sender
  reaction : ∀ ev address, v.reactionEvent = some ev → ev.actor.isSelf = false →
    ev.actor.address = some address → Known j ev.actor.service address

/-- What the journal stores for the source is what observing the message again
would store. -/
structure Settled (enc : Encoding) (j : Journal) (source : Bytes) (row : Int) (value : Message) :
    Prop where
  actors : ActorsKnown j value
  stored : ∃ id r again, findMessage source j = some (id, r) ∧ r.sourceRow = row ∧
    r.record.id = id ∧ r.content = again.value ∧ again.changed = false ∧
    Enrichment.prepare enc j { value with id := id, revision := 0 } (some r.record) = .ok again

section Settled

variable {enc : Encoding} {j j' : Journal} {source : Bytes} {row : Int} {value : Message}

theorem Known.run {service address : Bytes} (h : Known j service address) (now : Int)
    (fresh : List Bytes) : ∃ id, (observeIdentity now service address).run ⟨j, [], fresh⟩ =
      (.ok id, ⟨j, [], fresh⟩) := by
  unfold observeIdentity
  by_cases haddress : address = []
  · rw [if_pos haddress]
    exact ⟨none, rfl⟩
  · rw [if_neg haddress]
    obtain ⟨⟨id, r⟩, hr⟩ := Option.isSome_iff_exists.mp (h.resolve_left haddress)
    refine ⟨some id, ?_⟩
    rw [Sql.bind_run, Sql.query_run_calm, hr]
    rfl

theorem ActorsKnown.run (h : ActorsKnown j value) (now : Int) (fresh : List Bytes) :
    (observeActors now value).run ⟨j, [], fresh⟩ = (.ok (), ⟨j, [], fresh⟩) := by
  have hreaction :
      (observeReactor now value).run ⟨j, [], fresh⟩ = (.ok (), ⟨j, [], fresh⟩) := by
    unfold observeReactor
    cases hev : value.reactionEvent.filter fun ev => !ev.actor.isSelf with
    | none => rfl
    | some ev =>
      dsimp only
      obtain ⟨hev, hself⟩ := Option.filter_eq_some_iff.mp hev
      cases haddress : ev.actor.address with
      | none => rfl
      | some address =>
        obtain ⟨id, hrun⟩ := (h.reaction ev address hev (by simpa using hself) haddress).run now fresh
        dsimp only
        rw [Sql.bind_run, hrun]
        rfl
  rw [observeActors_eq]
  by_cases hdirection : value.direction = .incoming
  · obtain ⟨id, hrun⟩ := (h.sender hdirection).run now fresh
    simp only [if_pos hdirection]
    rw [Sql.bind_run, hrun]
    exact hreaction
  · simp only [if_neg hdirection]
    exact hreaction

/-- Observing a settled message again only forgets its fingerprint. -/
theorem Settled.run (h : Settled enc j source row value) (now date : Int) (origin : Origin)
    (fresh : List Bytes) : (message enc now source row date value origin).run ⟨j, [], fresh⟩ =
      (.ok (), ⟨forgetSource source j, [], fresh⟩) := by
  obtain ⟨id, r, again, hfound, hrow, -, hcontent, hchanged, hprepare⟩ := h.stored
  have hactors : ActorsKnown (forgetSource source j) value := ⟨h.actors.sender, h.actors.reaction⟩
  have hfound' : findMessage source (forgetSource source j) = some (id, r) := hfound
  have hprepare' : Enrichment.prepare enc (forgetSource source j)
      { value with id := id, revision := 0 } (some r.record) = .ok again := hprepare
  unfold message
  rw [Sql.bind_run, Sql.execute_run_calm]
  dsimp only
  rw [Sql.bind_run, hactors.run]
  dsimp only
  rw [Sql.bind_run, Sql.query_run_calm, hfound']
  dsimp only
  rw [Sql.bind_run]
  simp only [idOf, Sql.pure_run, Option.map_some]
  rw [Sql.bind_run, Sql.query_run_calm, hprepare']
  have hsame : (some (id, r)).filter (fun r =>
      !again.changed && decide (r.2.content = again.value)) = some (id, r) := by
    simp [Option.filter, hchanged, hcontent]
  simp only [Sql.lift]
  rw [Sql.bind_run]
  simp only [Sql.pure, hsame]
  simp [hrow]

theorem Settled.frame (h : Settled enc j source row value)
    (hfound : findMessage source j' = findMessage source j)
    (hstored : ∀ id r, findMessage source j = some (id, r) →
      Enrichment.stored j' id = Enrichment.stored j id)
    (hknown : ∀ service address, Known j service address → Known j' service address) :
    Settled enc j' source row value := by
  obtain ⟨id, r, again, hr, hrow, hid, hcontent, hchanged, hprepare⟩ := h.stored
  refine ⟨⟨fun hdirection => hknown _ _ (h.actors.sender hdirection),
    fun ev address hev hself haddress => hknown _ _ (h.actors.reaction ev address hev hself haddress)⟩,
    id, r, again, hfound.trans hr, hrow, hid, hcontent, hchanged, ?_⟩
  rw [← hprepare]
  refine Enrichment.prepare_congr (hstored id r hr) fun old hold => ?_
  rw [← Option.some.inj hold]
  exact hid

end Settled

end Zimbr.Relay
