import Mathlib.Tactic.DeriveCountable
import Zimbr.Relay.ReactionRules

set_option autoImplicit false

/-!
# What the projection reads

The reactions of a message follow from a few of its fields and from the rows of
its sources, in whatever order those were stored.
-/
namespace Zimbr.Relay.Reactions
open Library

section Aspect

/-- What the projection reads of a message. -/
structure Aspect where
  id : Bytes
  conversationId : Bytes
  kind : MessageKind
  parts : Option (List MessagePart)
  cards : Option (List Bytes)

def aspect (v : Message) : Aspect where
  id := v.id
  conversationId := v.conversationId
  kind := v.kind
  parts := v.parts
  cards := v.linkPreviews.map fun cards => cards.map LinkPreview.partId

variable {obs : ReactionObservation} {cid : Bytes} {v v' : Message}

theorem place_congr (h : aspect v' = aspect v) (event : ReactionEvent) :
    place obs v' event = place obs v event := by
  have hparts : v'.parts = v.parts := congrArg Aspect.parts h
  have hcards : (v'.linkPreviews.getD []).map LinkPreview.partId =
      (v.linkPreviews.getD []).map LinkPreview.partId := by
    have hcards : (aspect v').cards.getD [] = (aspect v).cards.getD [] :=
      congrArg (fun a => a.cards.getD []) h
    simpa [aspect, ← Option.getD_map] using hcards
  unfold place
  rw [hparts]
  cases hlist : v.linkPreviews.getD [] with
  | nil =>
    rw [hlist, List.map_nil, List.map_eq_nil_iff] at hcards
    rw [hcards]
  | cons card rest =>
    rw [hlist, List.map_cons] at hcards
    obtain ⟨card', rest', hlist', hcard, hrest⟩ := List.map_eq_cons_iff.mp hcards
    rw [hlist']
    cases rest with
    | nil =>
      rw [List.map_nil, List.map_eq_nil_iff] at hrest
      rw [hrest]
      dsimp only
      rw [hcard]
    | cons second rest =>
      rw [List.map_cons] at hrest
      obtain ⟨second', rest'', hlist'', -⟩ := List.map_eq_cons_iff.mp hrest
      rw [hlist'']

theorem resolve_congr (h : aspect v' = aspect v) (retired : Bool) :
    resolve obs cid (some v') retired = resolve obs cid (some v) retired := by
  have hid : v'.id = v.id := congrArg Aspect.id h
  have hconversation : v'.conversationId = v.conversationId := congrArg Aspect.conversationId h
  have hkind : v'.kind = v.kind := congrArg Aspect.kind h
  unfold resolve
  simp only [hid, hconversation, hkind, place_congr h]

theorem projection_congr {slotId : Bytes → Slot → Bytes} (h : aspect v' = aspect v)
    (rows : List Row) : projection slotId cid v' rows = projection slotId cid v rows := by
  have hid : v'.id = v.id := congrArg Aspect.id h
  have hchange : change slotId cid v' = change slotId cid v := by
    funext item
    unfold change placed slotOf eventOf
    rw [resolve_congr h, hid]
  rw [projection, hchange]
  rfl

end Aspect

section Rows

variable {t t' : Table Bytes Source} {cid target : Bytes} {row : Row}

def rowFor (cid target guid : Bytes) (r : Source) : Option Row :=
  if r.conversationId = cid ∧ r.targetGuid = some target then some (Row.of (guid, r)) else none

theorem mem_rowsOf : row ∈ rowsOf t cid target ↔
    (t.get? row.guid).bind (rowFor cid target row.guid) = some row := by
  rw [rowsOf, mem_sortBy, List.mem_map]
  constructor
  · rintro ⟨⟨guid, r⟩, hr, rfl⟩
    obtain ⟨hget, htarget⟩ := Table.get?_select.mp hr
    rw [show (Row.of (guid, r)).guid = guid from rfl, show t.get? guid = some r from hget]
    exact if_pos (by simpa using htarget)
  · intro h
    obtain ⟨r, hget, hrow⟩ := Option.bind_eq_some_iff.mp h
    unfold rowFor at hrow
    split_ifs at hrow with htarget
    refine ⟨(row.guid, r), Table.get?_select.mpr ⟨hget, by simpa using htarget⟩, ?_⟩
    exact Option.some.inj hrow

theorem rowsOf_pairwise : ((t.select fun _ r =>
    r.conversationId = cid && r.targetGuid = some target).map Row.of).Pairwise
      fun a b => a.position ≠ b.position := by
  refine List.pairwise_map.mpr ?_
  refine (List.pairwise_map.mp (Table.select_keys_nodup t _)).imp fun hne hsame => hne ?_
  exact congrArg (fun p : Int ×ₗ Int ×ₗ Bytes => (ofLex (ofLex p).2).2) hsame

/-- The sources of a target are in one order, whatever the order they came in. -/
theorem rowsOf_congr (h : ∀ guid, (t'.get? guid).bind (rowFor cid target guid) =
    (t.get? guid).bind (rowFor cid target guid)) : rowsOf t' cid target = rowsOf t cid target := by
  refine sortBy_eq rowsOf_pairwise rowsOf_pairwise fun row => ?_
  have hmem : row ∈ rowsOf t cid target ↔
      (t.get? row.guid).bind (rowFor cid target row.guid) = some row := mem_rowsOf
  have hmem' : row ∈ rowsOf t' cid target ↔
      (t'.get? row.guid).bind (rowFor cid target row.guid) = some row := mem_rowsOf
  rw [rowsOf, mem_sortBy] at hmem hmem'
  rw [hmem, hmem', h]

/-- Only the targets of a changed source, old and new, have other rows. -/
theorem rowsOf_modified {guid : Bytes} (hother : ∀ g, g ≠ guid → t'.get? g = t.get? g)
    (hold : ∀ r, t.get? guid = some r → rowFor cid target guid r = none)
    (hnew : ∀ r, t'.get? guid = some r → rowFor cid target guid r = none) :
    rowsOf t' cid target = rowsOf t cid target := by
  refine rowsOf_congr fun g => ?_
  by_cases hg : g = guid
  · rw [hg, Option.bind_eq_none_iff.mpr hold, Option.bind_eq_none_iff.mpr hnew]
  · rw [hother g hg]

theorem rowsOf_checked {guid : Bytes} {ms : Int} :
    rowsOf (t.modify guid fun r => { r with checkMs := ms }) cid target = rowsOf t cid target := by
  refine rowsOf_congr fun g => ?_
  rw [Table.get?_modify]
  split_ifs
  · cases t.get? g <;> rfl
  · rfl

end Rows

section Meaning

variable {slotId : Bytes → Slot → Bytes} {cid target : Bytes} {parent : Message}
  {sources sources' : Table Bytes Source} {item later : Row} {x : Reaction}

structure Sets (slotId : Bytes → Slot → Bytes) (cid : Bytes) (parent : Message) (item : Row)
    (x : Reaction) : Prop where
  resolved : (eventOf cid parent item).resolution = .resolved
  operation : (eventOf cid parent item).operation = .add ∨
    (eventOf cid parent item).operation = .current
  reaction : ∃ key, (eventOf cid parent item).key = some key ∧
    x = (placed slotId cid parent item key).reaction

/-- An event replaces a reaction of its slot, takes it back, or is a barrier to it. -/
def Displaces (obs : ReactionObservation) (event : ReactionEvent) (key : Bytes) (x : Reaction) :
    Prop :=
  match event.operation with
  | .add | .current => True
  | .remove => x.key = key
  | .retired => obs.event.operation = .remove → x.key = key
  | .unknown => False

structure Ends (cid : Bytes) (parent : Message) (slot : Slot) (x : Reaction) (later : Row) :
    Prop where
  resolved : (eventOf cid parent later).resolution = .resolved
  slot : slotOf cid parent later = slot
  key : ∃ key, (eventOf cid parent later).key = some key ∧
    Displaces later.obs (eventOf cid parent later) key x

theorem effect_put {obs : ReactionObservation} {event : ReactionEvent} {key : Bytes}
    {new placed : Placed} : effect obs event key new = .put placed ↔
      (event.operation = .add ∨ event.operation = .current) ∧ new = placed := by
  unfold effect
  cases event.operation <;> try split_ifs
  all_goals simp

theorem change_put {placed' : Placed} {k : Slot} :
    change slotId cid parent item = some (k, .put placed') ↔
      k = slotOf cid parent item ∧ placed'.slot = k ∧
        Sets slotId cid parent item placed'.reaction := by
  unfold change
  dsimp only
  constructor
  · intro h
    split_ifs at h with hresolved
    obtain ⟨key, hkey, hpair⟩ := Option.map_eq_some_iff.mp h
    obtain ⟨hslot, heffect⟩ := Prod.mk.inj hpair
    obtain ⟨hoperation, hplaced⟩ := effect_put.mp heffect
    rw [← hplaced, ← hslot]
    exact ⟨rfl, rfl, not_not.mp hresolved, hoperation, key, hkey, rfl⟩
  · rintro ⟨rfl, hslot, hresolved, hoperation, key, hkey, hreaction⟩
    rw [if_neg (not_not.mpr hresolved), hkey, Option.map_some]
    have hplaced : placed slotId cid parent item key = placed' := by
      cases placed' with
      | mk slot reaction =>
        obtain rfl : slot = slotOf cid parent item := hslot
        obtain rfl : reaction = (placed slotId cid parent item key).reaction := hreaction
        rfl
    rw [effect_put.mpr ⟨hoperation, hplaced⟩]

theorem effect_spares {obs : ReactionObservation} {event : ReactionEvent} {key : Bytes}
    {new held : Placed} :
    (effect obs event key new).Spares held ↔ ¬ Displaces obs event key held.reaction := by
  unfold effect Displaces
  cases event.operation <;> try split_ifs
  all_goals simp_all [Effect.Spares]

theorem spares_iff {held : Placed} :
    (∀ e, ((change slotId cid parent later).bind fun op =>
        if op.1 = held.slot then some op.2 else none) = some e → e.Spares held) ↔
      ¬ Ends cid parent held.slot held.reaction later := by
  unfold change
  dsimp only
  by_cases hresolved : (eventOf cid parent later).resolution = .resolved
  · rw [if_neg (not_not.mpr hresolved)]
    cases hkey : (eventOf cid parent later).key with
    | none =>
      refine iff_of_true (fun e he => by cases he) fun hends => ?_
      obtain ⟨key, hsome, -⟩ := hends.key
      rw [hkey] at hsome
      cases hsome
    | some key =>
      rw [Option.map_some, Option.bind_some]
      by_cases hslot : slotOf cid parent later = held.slot
      · rw [if_pos hslot]
        constructor
        · intro hspares hends
          obtain ⟨key', hsome, hdisplaces⟩ := hends.key
          rw [hkey, Option.some.injEq] at hsome
          rw [← hsome] at hdisplaces
          exact effect_spares.mp (hspares _ rfl) hdisplaces
        · intro hends e he
          rw [← Option.some.inj he]
          exact effect_spares.mpr fun hdisplaces =>
            hends ⟨hresolved, hslot, key, hkey, hdisplaces⟩
      · rw [if_neg hslot]
        exact iff_of_true (fun e he => by cases he) fun hends => hslot hends.slot
  · rw [if_pos hresolved]
    exact iff_of_true (fun e he => by cases he) fun hends => hresolved hends.resolved

theorem rowsOf_strict :
    (rowsOf sources cid target).Pairwise fun a b => a.position < b.position :=
  sortBy_strict rowsOf_pairwise

/-- A slot ends with a reaction that a source put there and no later one displaced. -/
theorem final_change {rows : List Row} {k : Slot} {held : Placed} :
    Effect.final (Slots.on k (rows.filterMap (change slotId cid parent))) = some held ↔
      ∃ before item after, rows = before ++ item :: after ∧ k = slotOf cid parent item ∧
        held.slot = k ∧ Sets slotId cid parent item held.reaction ∧
        ∀ later ∈ after, ¬ Ends cid parent k held.reaction later := by
  rw [Slots.on_filterMap, Effect.final_rows]
  refine exists_congr fun before => exists_congr fun item => exists_congr fun after =>
    and_congr_right fun _ => ?_
  have hput : ((change slotId cid parent item).bind fun op =>
      if op.1 = k then some op.2 else none) = some (.put held) ↔
        change slotId cid parent item = some (k, .put held) := by
    cases change slotId cid parent item with
    | none => exact iff_of_false (fun h => by cases h) fun h => by cases h
    | some op =>
      obtain ⟨slot, e⟩ := op
      rw [Option.bind_some]
      by_cases hslot : slot = k
      · rw [if_pos hslot, hslot]
        simp
      · rw [if_neg hslot]
        exact iff_of_false (fun h => by cases h) fun h => hslot (Prod.mk.inj (Option.some.inj h)).1
  rw [hput, change_put]
  constructor
  · rintro ⟨⟨hslot, hheld, hsets⟩, hspares⟩
    rw [← hheld] at hspares
    exact ⟨hslot, hheld, hsets, fun later hlater =>
      hheld ▸ spares_iff.mp (hspares later hlater)⟩
  · rintro ⟨hslot, hheld, hsets, hends⟩
    refine ⟨⟨hslot, hheld, hsets⟩, fun later hlater => ?_⟩
    rw [← hheld] at hends ⊢
    exact spares_iff.mpr (hends later hlater)

/-- A reaction is shown just when a source puts it there and none after it ends it. -/
theorem mem_projection : x ∈ projection slotId cid parent (rowsOf sources cid target) ↔
    ∃ item ∈ rowsOf sources cid target, Sets slotId cid parent item x ∧
      ∀ later ∈ rowsOf sources cid target, item.position < later.position →
        ¬ Ends cid parent (slotOf cid parent item) x later := by
  have hstrict : (rowsOf sources cid target).Pairwise fun a b => a.position < b.position :=
    rowsOf_strict
  rw [projection, mem_sortBy, List.mem_map]
  constructor
  · rintro ⟨held, hheld, rfl⟩
    obtain ⟨k, hfinal⟩ := Slots.mem_held.mp hheld
    obtain ⟨before, item, after, hrows, rfl, -, hsets, hends⟩ := final_change.mp hfinal
    rw [hrows] at hstrict ⊢
    refine ⟨item, by simp, hsets, fun later hlater hlt => hends later ?_⟩
    rcases List.mem_append.mp hlater with hbefore | hrest
    · exact absurd hlt (lt_asymm ((List.pairwise_append.mp hstrict).2.2 later hbefore item
        List.mem_cons_self))
    · rcases List.mem_cons.mp hrest with rfl | hafter
      · exact absurd hlt (lt_irrefl _)
      · exact hafter
  · rintro ⟨item, hitem, hsets, hends⟩
    obtain ⟨before, after, hrows⟩ := List.append_of_mem hitem
    rw [hrows] at hstrict hends
    refine ⟨⟨slotOf cid parent item, x⟩, Slots.mem_held.mpr ⟨slotOf cid parent item, ?_⟩, rfl⟩
    refine final_change.mpr ⟨before, item, after, hrows, rfl, rfl, hsets, fun later hlater => ?_⟩
    refine hends later (by simp [hlater]) ?_
    have hrest := (List.pairwise_append.mp hstrict).2.1
    exact (List.pairwise_cons.mp hrest).1 later hlater

/-- No two reactions of a message have one identifier, and they are in its order. -/
theorem projection_strict (hinj : Function.Injective (slotId parent.id)) (rows : List Row) :
    (projection slotId cid parent rows).Pairwise fun x y => x.id < y.id := by
  refine sortBy_strict (List.pairwise_map.mpr ?_)
  have hslots : ∀ (k : Slot) (held : Placed),
      Effect.final (Slots.on k (rows.filterMap (change slotId cid parent))) = some held →
        held.slot = k ∧ held.reaction.id = slotId parent.id k := by
    intro k held hfinal
    obtain ⟨before, item, after, -, rfl, hheld, hsets, -⟩ := final_change.mp hfinal
    obtain ⟨key, -, hreaction⟩ := hsets.reaction
    refine ⟨hheld, ?_⟩
    rw [hreaction]
    rfl
  have hpairwise := Slots.held_pairwise fun k held h => (hslots k held h).1
  refine hpairwise.imp_of_mem fun {a b} ha hb hne hid => hne ?_
  obtain ⟨k, hk⟩ := Slots.mem_held.mp ha
  obtain ⟨k', hk'⟩ := Slots.mem_held.mp hb
  rw [(hslots k a hk).2, (hslots k' b hk').2] at hid
  rw [(hslots k a hk).1, (hslots k' b hk').1]
  exact hinj hid

/-- A message shows, in the order of their identifiers and one for each slot, the
reactions that a source put and no later source displaced; in which order the
sources were stored does not matter. -/
theorem projection_latest (slotId : Bytes → Slot → Bytes) (cid target : Bytes) (parent : Message)
    (hinj : Function.Injective (slotId parent.id)) (sources : Table Bytes Source) :
    (projection slotId cid parent (rowsOf sources cid target)).Pairwise (fun x y => x.id < y.id) ∧
    (∀ x, x ∈ projection slotId cid parent (rowsOf sources cid target) ↔
      ∃ item ∈ rowsOf sources cid target, Sets slotId cid parent item x ∧
        ∀ later ∈ rowsOf sources cid target, item.position < later.position →
          ¬ Ends cid parent (slotOf cid parent item) x later) ∧
    ∀ sources' : Table Bytes Source, (∀ guid, sources'.get? guid = sources.get? guid) →
      projection slotId cid parent (rowsOf sources' cid target) =
        projection slotId cid parent (rowsOf sources cid target) :=
  ⟨projection_strict hinj _, fun _ => mem_projection, fun sources' h =>
    congrArg _ (rowsOf_congr fun guid => by rw [h guid])⟩

end Meaning

section Sample

deriving instance Countable for Slot

/-- A tap of the account on the whole message `p` of the conversation `c`. -/
def tap (row : Int) (key : String) : Source where
  sourceRow := row
  conversationId := text "c"
  targetGuid := some (text "p")
  dateNs := row
  observation := {
    targetGuid := some (text "p")
    event := {
      actor := { service := text "imessage", isSelf := true }
      operation := .add
      key := some (text key) } }

/-- A like that took the place of a heart, stored before it. -/
def taps : Table Bytes Source :=
  (Table.single (text "l") (tap 3 "like")).upsert (text "h") (tap 2 "heart") id

def tapped : Message where
  id := text "m"
  conversationId := text "c"
  sender := []
  direction := .outgoing
  service := text "imessage"
  timestamp := text "2024-01-01T00:00:00Z"
  kind := .text
  decoding := .plain
  observedStatus := .sent

theorem projection_latest_taps :
    (∃ x ∈ projection (fun _ slot => unaryDigest slot) (text "c") tapped
      (rowsOf taps (text "c") (text "p")), x.key = text "like") ∧
    ∀ x ∈ projection (fun _ slot => unaryDigest slot) (text "c") tapped
      (rowsOf taps (text "c") (text "p")), x.key = text "like" := by
  have hrows : rowsOf taps (text "c") (text "p") =
      [Row.of (text "h", tap 2 "heart"), Row.of (text "l", tap 3 "like")] := by decide +kernel
  have hlatest := (projection_latest (fun _ slot => unaryDigest slot) (text "c") (text "p") tapped
    unaryDigest_injective taps).2.1
  rw [hrows] at hlatest ⊢
  refine ⟨⟨(placed (fun _ slot => unaryDigest slot) (text "c") tapped
    (Row.of (text "l", tap 3 "like")) (text "like")).reaction, (hlatest _).mpr ?_, rfl⟩,
    fun x hx => ?_⟩
  · refine ⟨Row.of (text "l", tap 3 "like"), by simp,
      ⟨rfl, Or.inl rfl, text "like", rfl, rfl⟩, fun later hlater hlt => ?_⟩
    rcases List.mem_pair.mp hlater with rfl | rfl
    · exact absurd hlt (by decide +kernel)
    · exact absurd hlt (lt_irrefl _)
  · obtain ⟨item, hitem, hsets, hends⟩ := (hlatest x).mp hx
    rcases List.mem_pair.mp hitem with rfl | rfl
    · -- the like ends whatever the heart put
      exact absurd ⟨rfl, rfl, text "like", rfl, trivial⟩
        (hends (Row.of (text "l", tap 3 "like")) (by simp) (by decide +kernel))
    · obtain ⟨key, hkey, rfl⟩ := hsets.reaction
      exact (Option.some.inj hkey).symm

end Sample

end Zimbr.Relay.Reactions
