import Zimbr.Relay.Dispatch
import Mathlib.Logic.Relation

set_option autoImplicit false

/-!
# The budget of inline metadata

The size is counted while items are dropped, and never below what is serialized.
-/
namespace Zimbr.Relay.Enrichment
open Library

/-- The JSON of the items, and of a reaction event. -/
structure Spelling where
  attachment : Attachment → Bytes
  preview : LinkPreview → Bytes
  reaction : Reaction → Bytes
  part : MessagePart → Bytes
  event : ReactionEvent → Bytes

section Json

def null : Bytes := text "null"

def array (items : List Bytes) : Bytes := 91 :: ([44].intercalate items ++ [93])

def nullable {α : Type} (spell : α → Bytes) : Option α → Bytes
  | none => null
  | some a => spell a

def boolean (b : Bool) : Bytes := if b then text "true" else text "false"

def status : EnrichmentStatus → Bytes
  | .pending => text "\"pending\""
  | .complete => text "\"complete\""
  | .unavailable => text "\"unavailable\""
  | .unsupported => text "\"unsupported\""
  | .malformed => text "\"malformed\""
  | .oversized => text "\"oversized\""

def mapping : PartMapping → Bytes
  | .resolved => text "\"resolved\""
  | .unresolved => text "\"unresolved\""

def aggregate (a : Aggregate) : Bytes :=
  text "\x7b\"total\":" ++ decimal a.total ++ text ",\"complete\":" ++ boolean a.complete ++
    text "\x7d"

def enrichment (e : Enrichment) : Bytes :=
  text "\x7b\"state\":" ++ status e.state ++ text ",\"part_mapping\":" ++ mapping e.partMapping ++
    text ",\"attachments\":" ++ aggregate e.attachments ++
    text ",\"previews\":" ++ aggregate e.previews ++
    text ",\"reactions\":" ++ aggregate e.reactions ++
    text ",\"parts\":" ++ aggregate e.parts ++ text "\x7d"

def metadata (s : Spelling) (v : Message) (e : Enrichment) : Bytes :=
  text "\x7b\"attachments\":" ++ array (v.attachments.map s.attachment) ++
    text ",\"parts\":" ++ nullable (fun items => array (items.map s.part)) v.parts ++
    text ",\"link_previews\":" ++
      nullable (fun items => array (items.map s.preview)) v.linkPreviews ++
    text ",\"reactions\":" ++ nullable (fun items => array (items.map s.reaction)) v.reactions ++
    text ",\"reaction_event\":" ++ nullable s.event v.reactionEvent ++
    text ",\"enrichment\":" ++ enrichment e ++ text "\x7d"

end Json

def emptied (v : Message) : Message := { v with
  attachments := []
  linkPreviews := v.linkPreviews.map fun _ => []
  reactions := v.reactions.map fun _ => []
  parts := v.parts.map fun _ => [] }

def Spelling.measuring (s : Spelling) (enc : Encoding) : Encoding := { enc with
  attachment := fun a => (s.attachment a).length
  preview := fun p => (s.preview p).length
  reaction := fun r => (s.reaction r).length
  part := fun p => (s.part p).length
  envelope := fun v e => (metadata s (emptied v) e).length }

section Shrinking

/-- The metadata with exact totals and no section complete. -/
def unmarked (v : Message) : Enrichment := { v.enrichment.getD { state := .complete } with
  attachments := ⟨v.attachments.length, false⟩
  previews := ⟨(v.linkPreviews.getD []).length, false⟩
  reactions := ⟨(v.reactions.getD []).length, false⟩
  parts := ⟨(v.parts.getD []).length, false⟩ }

def marked (v : Message) (kept : Counts) : Enrichment := { unmarked v with
  attachments := ⟨v.attachments.length, v.attachments.length = kept.attachments⟩
  previews := ⟨(v.linkPreviews.getD []).length, (v.linkPreviews.getD []).length = kept.previews⟩
  reactions := ⟨(v.reactions.getD []).length, (v.reactions.getD []).length = kept.reactions⟩
  parts := ⟨(v.parts.getD []).length, (v.parts.getD []).length = kept.parts⟩ }

def inlined (v : Message) (kept : Counts) : Message := { v with
  attachments := v.attachments.take kept.attachments
  linkPreviews := v.linkPreviews.map fun items => items.take kept.previews
  reactions := v.reactions.map fun items => items.take kept.reactions
  parts := v.parts.map fun items => items.take kept.parts
  enrichment := some (marked v kept) }

def Spelling.sizes (s : Spelling) (v : Message) : Sizes where
  attachments := v.attachments.map fun a => (s.attachment a).length
  previews := (v.linkPreviews.getD []).map fun p => (s.preview p).length
  reactions := (v.reactions.getD []).map fun r => (s.reaction r).length
  parts := (v.parts.getD []).map fun p => (s.part p).length

def candidates (v : Message) : Counts where
  attachments := min v.attachments.length maxInlineAttachments
  previews := min (v.linkPreviews.getD []).length maxInlinePreviews
  reactions := min (v.reactions.getD []).length maxInlineReactions
  parts := min (v.parts.getD []).length maxInlineParts

def weight (sizes : Sizes) (counts : Counts) : Nat :=
  listed sizes.attachments counts.attachments + listed sizes.previews counts.previews +
    listed sizes.reactions counts.reactions + listed sizes.parts counts.parts

def next (sizes : Sizes) (counts : Counts) : Option (Nat × Counts) :=
  if counts.parts > 1 then
    some (saved sizes.parts counts.parts, { counts with parts := counts.parts - 1 })
  else if counts.reactions > 0 then
    some (saved sizes.reactions counts.reactions, { counts with reactions := counts.reactions - 1 })
  else if counts.previews > 0 then
    some (saved sizes.previews counts.previews, { counts with previews := counts.previews - 1 })
  else if counts.attachments > 0 then
    some (saved sizes.attachments counts.attachments,
      { counts with attachments := counts.attachments - 1 })
  else if counts.parts > 0 then
    some (saved sizes.parts counts.parts, { counts with parts := counts.parts - 1 })
  else none

/-- One turn of the loop, over the running size and the counts. -/
structure Turn (sizes : Sizes) (q r : Nat × Counts) : Prop where
  excess : q.1 > maxEnrichment
  drops : ∃ saving, next sizes q.2 = some (saving, r.2) ∧ r.1 = q.1 - saving

theorem shrink_next (sizes : Sizes) (fuel bytes : Nat) (counts : Counts) :
    shrink sizes (fuel + 1) bytes counts =
      if bytes > maxEnrichment then
        (next sizes counts).bind fun r => shrink sizes fuel (bytes - r.1) r.2
      else some counts := by
  rw [shrink]
  unfold next
  split_ifs <;> rfl

structure Within (sizes : Sizes) (counts : Counts) : Prop where
  attachments : counts.attachments ≤ sizes.attachments.length
  previews : counts.previews ≤ sizes.previews.length
  reactions : counts.reactions ≤ sizes.reactions.length
  parts : counts.parts ≤ sizes.parts.length

def Counts.total (counts : Counts) : Nat :=
  counts.attachments + counts.previews + counts.reactions + counts.parts

theorem listed_saved {sizes : List Nat} {count : Nat} (hpos : 0 < count)
    (h : count ≤ sizes.length) : listed sizes count = listed sizes (count - 1) + saved sizes count := by
  obtain ⟨n, rfl⟩ : ∃ n, count = n + 1 := ⟨count - 1, by omega⟩
  unfold listed saved
  rw [Nat.add_sub_cancel, List.take_add_one, List.sum_append, List.getD_eq_getElem?_getD,
    List.getElem?_eq_getElem (by omega)]
  simp only [Option.toList_some, List.sum_singleton, Option.getD_some]
  split_ifs <;> omega

theorem next_some {sizes : Sizes} {counts after : Counts} {saving : Nat}
    (hwithin : Within sizes counts) (h : next sizes counts = some (saving, after)) :
    weight sizes counts = weight sizes after + saving ∧ Within sizes after ∧
      counts.total = after.total + 1 := by
  obtain ⟨hattachments, hpreviews, hreactions, hparts⟩ := hwithin
  have hpart (hpos : counts.parts > 0)
      (h : (saved sizes.parts counts.parts, { counts with parts := counts.parts - 1 }) =
        (saving, after)) :
      weight sizes counts = weight sizes after + saving ∧ Within sizes after ∧
        counts.total = after.total + 1 := by
    cases h
    have hsaved := listed_saved hpos hparts
    refine ⟨?_, ⟨hattachments, hpreviews, hreactions, Nat.le_trans (Nat.sub_le _ _) hparts⟩, ?_⟩
    · unfold weight
      dsimp only
      omega
    · unfold Counts.total
      dsimp only
      omega
  unfold next at h
  split_ifs at h with hsome hreaction hpreview hattachment hlast
  · exact hpart (by omega) (Option.some.inj h)
  · cases h
    have hsaved := listed_saved hreaction hreactions
    refine ⟨?_, ⟨hattachments, hpreviews, Nat.le_trans (Nat.sub_le _ _) hreactions, hparts⟩, ?_⟩
    · unfold weight
      dsimp only
      omega
    · unfold Counts.total
      dsimp only
      omega
  · cases h
    have hsaved := listed_saved hpreview hpreviews
    refine ⟨?_, ⟨hattachments, Nat.le_trans (Nat.sub_le _ _) hpreviews, hreactions, hparts⟩, ?_⟩
    · unfold weight
      dsimp only
      omega
    · unfold Counts.total
      dsimp only
      omega
  · cases h
    have hsaved := listed_saved hattachment hattachments
    refine ⟨?_, ⟨Nat.le_trans (Nat.sub_le _ _) hattachments, hpreviews, hreactions, hparts⟩, ?_⟩
    · unfold weight
      dsimp only
      omega
    · unfold Counts.total
      dsimp only
      omega
  · exact hpart hlast (Option.some.inj h)

theorem next_none {sizes : Sizes} {counts : Counts} (h : next sizes counts = none) :
    counts = ⟨0, 0, 0, 0⟩ := by
  unfold next at h
  split_ifs at h
  obtain ⟨attachments, previews, reactions, parts⟩ := counts
  simp only [Counts.mk.injEq]
  dsimp only at *
  omega

/-- The running size is the envelope's and that of the items inline. -/
structure Sized (base : Nat) (sizes : Sizes) (q : Nat × Counts) : Prop where
  bytes : q.1 = base + weight sizes q.2
  within : Within sizes q.2

variable {base : Nat} {sizes : Sizes} {q r : Nat × Counts}

theorem Sized.turn (h : Sized base sizes q) (hturn : Turn sizes q r) : Sized base sizes r := by
  obtain ⟨saving, hnext, hbytes⟩ := hturn.drops
  obtain ⟨hweight, hwithin, -⟩ := next_some h.within hnext
  refine ⟨?_, hwithin⟩
  rw [hbytes, h.bytes, hweight]
  omega

theorem Sized.turns (h : Sized base sizes q) (hturns : Relation.ReflTransGen (Turn sizes) q r) :
    Sized base sizes r := by
  induction hturns with
  | refl => exact h
  | tail _ hturn ih => exact ih.turn hturn

/-- The loop ends within the budget, or with nothing inline and an envelope over it. -/
theorem Sized.shrink {bytes : Nat} {counts : Counts} (h : Sized base sizes (bytes, counts))
    {fuel : Nat} (hfuel : fuel = counts.total) :
    (∃ last kept, Enrichment.shrink sizes fuel bytes counts = some kept ∧ last ≤ maxEnrichment ∧
        Relation.ReflTransGen (Turn sizes) (bytes, counts) (last, kept)) ∨
      Enrichment.shrink sizes fuel bytes counts = none ∧ base > maxEnrichment := by
  have hwhole : bytes = base + weight sizes counts := h.bytes
  induction fuel generalizing bytes counts with
  | zero =>
    have hcounts : counts = ⟨0, 0, 0, 0⟩ := by
      obtain ⟨attachments, previews, reactions, parts⟩ := counts
      unfold Counts.total at hfuel
      simp only [Counts.mk.injEq]
      dsimp only at hfuel
      omega
    have hweight : weight sizes counts = 0 := by
      rw [hcounts]
      rfl
    rw [Enrichment.shrink]
    split_ifs with hover
    · exact Or.inr ⟨rfl, by omega⟩
    · exact Or.inl ⟨bytes, counts, rfl, by omega, .refl⟩
  | succ fuel ih =>
    rw [shrink_next]
    split_ifs with hover
    · cases hnext : next sizes counts with
      | none =>
        rw [next_none hnext] at hfuel
        exact absurd hfuel (Nat.succ_ne_zero fuel)
      | some r =>
        have htotal : counts.total = r.2.total + 1 := (next_some h.within hnext).2.2
        have hturn : Turn sizes (bytes, counts) (bytes - r.1, r.2) := ⟨hover, r.1, hnext, rfl⟩
        have hafter := h.turn hturn
        rcases ih hafter (by omega) hafter.bytes with ⟨last, kept, hkept, hlast, hturns⟩ | hnone
        · exact Or.inl ⟨last, kept, hkept, hlast, .head hturn hturns⟩
        · exact Or.inr hnone
    · exact Or.inl ⟨bytes, counts, rfl, by omega, .refl⟩

end Shrinking

section Sizes

theorem array_length (items : List Bytes) :
    (array items).length = 2 + (items.map List.length).sum + (items.length - 1) := by
  have hitems (first : Bytes) (rest : List Bytes) : ([44].intercalate (first :: rest)).length =
      ((first :: rest).map List.length).sum + rest.length := by
    induction rest generalizing first with
    | nil => simp [List.intercalate]
    | cons second rest ih =>
      rw [List.intercalate_cons_cons, List.length_append, List.length_append, ih]
      simp only [List.length_nil, List.map_cons, List.sum_cons, List.length_cons]
      omega
  unfold array
  rw [List.length_cons, List.length_append]
  cases items with
  | nil => rfl
  | cons first rest =>
    rw [hitems, List.length_singleton, List.length_cons]
    omega

theorem array_take {α : Type} (spell : α → Bytes) (items : List α) {count : Nat}
    (h : count ≤ items.length) :
    (array ((items.take count).map spell)).length =
      (array []).length + listed (items.map fun a => (spell a).length) count := by
  rw [array_length, array_length]
  unfold listed
  rw [List.map_map, List.length_map, List.length_take_of_le h, ← List.map_take]
  simp only [List.map_nil, List.sum_nil, List.length_nil]
  have hsum : (List.map (List.length ∘ spell) (List.take count items)).sum =
      (List.map (fun a => (spell a).length) (List.take count items)).sum := rfl
  omega

theorem nullable_take {α : Type} (spell : α → Bytes) (items : Option (List α)) {count : Nat}
    (h : count ≤ (items.getD []).length) :
    (nullable (fun items => array (items.map spell))
      (items.map fun items => items.take count)).length =
      (nullable (fun items => array (items.map spell)) (items.map fun _ => [])).length +
        listed ((items.getD []).map fun a => (spell a).length) count := by
  cases items with
  | none =>
    have hcount : count = 0 := Nat.le_zero.mp h
    rw [hcount]
    rfl
  | some items => exact array_take spell items h

theorem metadata_inlined (s : Spelling) (v : Message) (e : Enrichment) {kept : Counts}
    (h : Within (s.sizes v) kept) :
    (metadata s (inlined v kept) e).length =
      (metadata s (emptied v) e).length + weight (s.sizes v) kept := by
  obtain ⟨hattachments, hpreviews, hreactions, hparts⟩ := h
  simp only [Spelling.sizes, List.length_map] at hattachments hpreviews hreactions hparts
  unfold metadata inlined emptied weight Spelling.sizes
  simp only [List.length_append, List.map_nil]
  rw [array_take s.attachment _ hattachments, nullable_take s.part _ hparts,
    nullable_take s.preview _ hpreviews, nullable_take s.reaction _ hreactions]
  omega

/-- Flags that are not yet set cost at most a byte each. -/
theorem enrichment_flags (e e' : Enrichment) (hstate : e'.state = e.state)
    (hmapping : e'.partMapping = e.partMapping)
    (hattachments : e'.attachments.total = e.attachments.total)
    (hpreviews : e'.previews.total = e.previews.total)
    (hreactions : e'.reactions.total = e.reactions.total)
    (hparts : e'.parts.total = e.parts.total)
    (hfalse : e'.attachments.complete = false ∧ e'.previews.complete = false ∧
      e'.reactions.complete = false ∧ e'.parts.complete = false) :
    (enrichment e).length ≤ (enrichment e').length ∧
      (enrichment e').length ≤ (enrichment e).length + 4 := by
  have hflag (b : Bool) : (boolean b).length ≤ (boolean false).length ∧
      (boolean false).length ≤ (boolean b).length + 1 := by
    cases b <;> decide
  unfold enrichment aggregate
  rw [hstate, hmapping, hattachments, hpreviews, hreactions, hparts, hfalse.1, hfalse.2.1,
    hfalse.2.2.1, hfalse.2.2.2]
  simp only [List.length_append]
  have := hflag e.attachments.complete
  have := hflag e.previews.complete
  have := hflag e.reactions.complete
  have := hflag e.parts.complete
  omega

theorem metadata_flags (s : Spelling) (w v : Message) (kept : Counts) :
    (metadata s w (marked v kept)).length ≤ (metadata s w (unmarked v)).length ∧
      (metadata s w (unmarked v)).length ≤ (metadata s w (marked v kept)).length + 4 := by
  have hflags := enrichment_flags (marked v kept) (unmarked v) rfl rfl rfl rfl rfl rfl
    ⟨rfl, rfl, rfl, rfl⟩
  unfold metadata
  simp only [List.length_append]
  omega

end Sizes

theorem inlineMessage_eq (enc : Encoding) (s : Spelling) (v : Message) :
    inlineMessage (s.measuring enc) v =
      match shrink (s.sizes v) (candidates v).total
        ((metadata s (emptied v) (unmarked v)).length + weight (s.sizes v) (candidates v))
        (candidates v) with
      | none => .error .metadataItemTooLarge
      | some kept => .ok (inlined v kept) := by
  have hbytes : (metadata s (emptied v) (unmarked v)).length +
      listed (s.sizes v).attachments (candidates v).attachments +
      listed (s.sizes v).previews (candidates v).previews +
      listed (s.sizes v).reactions (candidates v).reactions +
      listed (s.sizes v).parts (candidates v).parts =
      (metadata s (emptied v) (unmarked v)).length + weight (s.sizes v) (candidates v) := by
    unfold weight
    omega
  rw [← hbytes]
  rfl

structure Summarises {α : Type} (a : Aggregate) (full items : List α) : Prop where
  first : items <+: full
  total : a.total = full.length
  complete : a.complete = true ↔ items = full

/-- The message with some of its items inline, and nothing else changed. -/
structure Inlined (v w : Message) (e : Enrichment) : Prop where
  attachments : Summarises e.attachments v.attachments w.attachments
  previews : Summarises e.previews (v.linkPreviews.getD []) (w.linkPreviews.getD [])
  reactions : Summarises e.reactions (v.reactions.getD []) (w.reactions.getD [])
  parts : Summarises e.parts (v.parts.getD []) (w.parts.getD [])
  supplied : w.linkPreviews.isSome = v.linkPreviews.isSome ∧
    w.reactions.isSome = v.reactions.isSome ∧ w.parts.isSome = v.parts.isSome
  rest : w = { v with
    attachments := w.attachments
    linkPreviews := w.linkPreviews
    reactions := w.reactions
    parts := w.parts
    enrichment := some e }

theorem summarises_take {α : Type} {full : List α} {count : Nat} (h : count ≤ full.length) :
    Summarises ⟨full.length, full.length = count⟩ full (full.take count) where
  first := List.take_prefix count full
  total := rfl
  complete := by
    rw [decide_eq_true_eq]
    constructor
    · intro hall
      rw [← hall, List.take_length]
    · intro hall
      have hlength := congrArg List.length hall
      rw [List.length_take_of_le h] at hlength
      exact hlength.symm

theorem getD_take {α : Type} (items : Option (List α)) (count : Nat) :
    (items.map fun items => items.take count).getD [] = (items.getD []).take count := by
  cases items with
  | none => simp
  | some items => rfl

theorem inlined_spec {v : Message} {kept : Counts} {s : Spelling} (h : Within (s.sizes v) kept) :
    Inlined v (inlined v kept) (marked v kept) := by
  obtain ⟨hattachments, hpreviews, hreactions, hparts⟩ := h
  simp only [Spelling.sizes, List.length_map] at hattachments hpreviews hreactions hparts
  refine ⟨summarises_take hattachments, ?_, ?_, ?_, ?_, rfl⟩
  · unfold inlined
    dsimp only
    rw [getD_take]
    exact summarises_take hpreviews
  · unfold inlined
    dsimp only
    rw [getD_take]
    exact summarises_take hreactions
  · unfold inlined
    dsimp only
    rw [getD_take]
    exact summarises_take hparts
  · unfold inlined
    exact ⟨Option.isSome_map, Option.isSome_map, Option.isSome_map⟩

def start (s : Spelling) (v : Message) : Nat × Counts :=
  ((metadata s (emptied v) (unmarked v)).length + weight (s.sizes v) (candidates v), candidates v)

theorem start_sized (s : Spelling) (v : Message) :
    Sized (metadata s (emptied v) (unmarked v)).length (s.sizes v) (start s v) where
  bytes := rfl
  within := by
    constructor <;> simp only [start, candidates, Spelling.sizes, List.length_map] <;> omega

/-- At every turn the running size is at least what would be serialized. The
message that is returned is within the budget, with its first items inline. No
message is returned only if the envelope, with no section complete, is over the
budget; it is at most four bytes longer than with the sections' own flags. -/
theorem inline_budget (enc : Encoding) (s : Spelling) (v : Message) :
    (∀ bytes kept, Relation.ReflTransGen (Turn (s.sizes v)) (start s v) (bytes, kept) →
      (metadata s (inlined v kept) (marked v kept)).length ≤ bytes) ∧
    match inlineMessage (s.measuring enc) v with
    | .ok w => ∃ e, w.enrichment = some e ∧ Inlined v w e ∧ (metadata s w e).length ≤ maxEnrichment
    | .error e => e = .metadataItemTooLarge ∧
      maxEnrichment < (metadata s (emptied v) (unmarked v)).length ∧
      (metadata s (emptied v) (unmarked v)).length ≤
        (metadata s (emptied v) (marked v ⟨0, 0, 0, 0⟩)).length + 4 := by
  have hturns (bytes : Nat) (kept : Counts)
      (h : Relation.ReflTransGen (Turn (s.sizes v)) (start s v) (bytes, kept)) :
      Within (s.sizes v) kept ∧ (metadata s (inlined v kept) (marked v kept)).length ≤ bytes := by
    have hsized := (start_sized s v).turns h
    have hbytes : bytes = (metadata s (emptied v) (unmarked v)).length +
        weight (s.sizes v) kept := hsized.bytes
    have hlength : (metadata s (inlined v kept) (unmarked v)).length =
        (metadata s (emptied v) (unmarked v)).length + weight (s.sizes v) kept :=
      metadata_inlined s v (unmarked v) hsized.within
    have hflags := (metadata_flags s (inlined v kept) v kept).1
    exact ⟨hsized.within, by omega⟩
  refine ⟨fun bytes kept h => (hturns bytes kept h).2, ?_⟩
  rw [inlineMessage_eq]
  rcases (start_sized s v).shrink rfl with ⟨last, kept, hkept, hlast, hreached⟩ | ⟨hnone, hover⟩
  · have hend := hturns last kept hreached
    rw [show shrink (s.sizes v) (candidates v).total _ (candidates v) = some kept from hkept]
    exact ⟨marked v kept, rfl, inlined_spec hend.1, by omega⟩
  · rw [show shrink (s.sizes v) (candidates v).total _ (candidates v) = none from hnone]
    exact ⟨rfl, hover, (metadata_flags s (emptied v) v ⟨0, 0, 0, 0⟩).2⟩

section Slack

def quote (s : Bytes) : Bytes := 34 :: (s ++ [34])

def operation : ReactionOperation → Bytes
  | .add => text "\"add\""
  | .remove => text "\"remove\""
  | .current => text "\"current\""
  | .retired => text "\"retired\""
  | .unknown => text "\"unknown\""

def resolution : ReactionResolution → Bytes
  | .pending => text "\"pending\""
  | .resolved => text "\"resolved\""
  | .unavailable => text "\"unavailable\""
  | .unsupported => text "\"unsupported\""
  | .malformed => text "\"malformed\""

def reactionEvent (e : ReactionEvent) : Bytes :=
  text "\x7b\"target_message_id\":" ++ nullable quote e.targetMessageId ++
    text ",\"part_id\":" ++ nullable quote e.partId ++
    text ",\"part_state\":" ++ mapping e.partState ++
    text ",\"actor\":\x7b\"address\":" ++ nullable quote e.actor.address ++
    text ",\"service\":" ++ quote e.actor.service ++
    text ",\"is_self\":" ++ boolean e.actor.isSelf ++
    text "\x7d,\"operation\":" ++ operation e.operation ++
    text ",\"key\":" ++ nullable quote e.key ++
    text ",\"emoji\":" ++ nullable quote e.emoji ++
    text ",\"resolution\":" ++ resolution e.resolution ++ text "\x7d"

def itemless : Spelling where
  attachment _ := []
  preview _ := []
  reaction _ := []
  part _ := []
  event := reactionEvent

def longReaction (key : Bytes) : Message where
  sender := []
  direction := .incoming
  service := text "imessage"
  timestamp := text "2026-01-01T00:00:00.000000000Z"
  kind := .reaction
  decoding := .empty
  observedStatus := .received
  parts := some []
  reactionEvent := some {
    actor := { service := text "imessage" }
    operation := .add
    key := some key }

theorem longReaction_length (key : Bytes) (e : Enrichment) :
    (metadata itemless (emptied (longReaction key)) e).length =
      (metadata itemless (emptied (longReaction [])) e).length + key.length := by
  unfold metadata emptied longReaction itemless reactionEvent nullable quote
  simp only [List.length_append, List.length_cons, List.length_nil]
  omega

/-- The envelope would fit with its own flags, and the message is rejected. -/
theorem inline_budget_slack :
    let v := longReaction (List.replicate 32270 97)
    inlineMessage (itemless.measuring Sample.encoding) v = .error .metadataItemTooLarge ∧
      (metadata itemless (emptied v) (marked v ⟨0, 0, 0, 0⟩)).length ≤ maxEnrichment := by
  intro v
  have hfalse : (metadata itemless (emptied (longReaction [])) (unmarked v)).length = 500 := by
    decide +kernel
  have htrue : (metadata itemless (emptied (longReaction [])) (marked v ⟨0, 0, 0, 0⟩)).length =
      496 := by
    decide +kernel
  have hmeasured : (metadata itemless (emptied v) (unmarked v)).length = 32770 := by
    rw [longReaction_length, List.length_replicate, hfalse]
  have hactual : (metadata itemless (emptied v) (marked v ⟨0, 0, 0, 0⟩)).length = 32766 := by
    rw [longReaction_length, List.length_replicate, htrue]
  refine ⟨?_, ?_⟩
  · rw [inlineMessage_eq, hmeasured]
    rfl
  · rw [hactual]
    decide

end Slack

end Zimbr.Relay.Enrichment
