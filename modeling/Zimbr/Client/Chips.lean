import Mathlib.Data.List.Induction
import Zimbr.Client.Blocks
import Zimbr.Client.Validation

set_option autoImplicit false

/-!
# Reactions below their parts

Every actor is in the group of its part or of the message. The group of a part is
shown below each block of that part, so once where the part has one block.
-/
namespace Zimbr.Content
open Library

section Groups

def reactor (r : Reaction) : Bytes × ReactionActor := (label r, r.actor)

def pairs (group : List PendingChip) : List (Bytes × ReactionActor) :=
  group.flatMap fun chip => chip.actors.map fun actor => (chip.label, actor)

def chipActors (chips : List Chip) : List (Bytes × ReactionActor) :=
  chips.flatMap fun chip => chip.actors.map fun actor => (chip.label, actor)

def pendingGroups (ids : List Bytes) (reactions : List Reaction) : List (List PendingChip) :=
  reactions.foldl (fun groups r => groups.modify (groupOf ids r) (addActor (label r) r.actor))
    (List.replicate (ids.length + 1) [])

variable {ids : List Bytes} {reactions : List Reaction} {id : Bytes} {i : Nat}

theorem addActor_pairs (label : Bytes) (actor : ReactionActor) (group : List PendingChip) :
    (pairs (addActor label actor group)).Perm ((label, actor) :: pairs group) := by
  induction group with
  | nil => exact .refl _
  | cons chip rest ih =>
    rw [addActor]
    split_ifs with h
    · subst h
      simp only [pairs, List.flatMap_cons, List.map_append, List.map_singleton, List.append_assoc]
      exact List.perm_middle
    · exact (ih.append_left _).trans List.perm_middle

theorem pendingGroups_snoc (r : Reaction) : pendingGroups ids (reactions ++ [r]) =
    (pendingGroups ids reactions).modify (groupOf ids r) (addActor (label r) r.actor) := by
  rw [pendingGroups, List.foldl_append]
  rfl

theorem pendingGroups_length : (pendingGroups ids reactions).length = ids.length + 1 := by
  induction reactions using List.reverseRecOn with
  | nil => exact List.length_replicate
  | append_singleton reactions r ih => rw [pendingGroups_snoc, List.length_modify, ih]

theorem pendingGroups_pairs {group : List PendingChip}
    (h : (pendingGroups ids reactions)[i]? = some group) :
    (pairs group).Perm ((reactions.filter fun r => decide (groupOf ids r = i)).map reactor) := by
  induction reactions using List.reverseRecOn generalizing group with
  | nil =>
    obtain rfl := List.eq_of_mem_replicate (List.mem_of_getElem? h)
    exact .refl _
  | append_singleton reactions r ih =>
    rw [pendingGroups_snoc, List.getElem?_modify] at h
    obtain ⟨old, hold, rfl⟩ := Option.map_eq_some_iff.mp h
    rw [List.filter_append, List.map_append, List.filter_singleton]
    by_cases hgroup : groupOf ids r = i
    · rw [if_pos hgroup, decide_eq_true hgroup, cond_true, List.map_singleton]
      refine (addActor_pairs _ _ old).trans ?_
      exact ((ih hold).cons _).trans (List.perm_append_singleton _ _).symm
    · rw [if_neg hgroup, decide_eq_false hgroup, cond_false, List.map_nil, List.append_nil]
      exact ih hold

theorem init_chips {τ : Type} (reactions : List Reaction) (blocks : List (Block τ))
    (hi : i ≤ (ReactionGroups.init reactions blocks).ids.length) :
    ∃ chips, (ReactionGroups.init reactions blocks).groups[i]? = some chips ∧
      (chipActors chips).Perm ((reactions.filter fun r =>
        decide (groupOf (ReactionGroups.init reactions blocks).ids r = i)).map reactor) := by
  obtain ⟨ids, hids⟩ : ∃ ids, (ReactionGroups.init reactions blocks).ids = ids := ⟨_, rfl⟩
  have hgroups : (ReactionGroups.init reactions blocks).groups =
      (pendingGroups ids reactions).mapIdx fun index group => group.map fun chip => {
        label := chip.label, actors := chip.actors, unresolved := index = 0 } := by
    rw [← hids]
    rfl
  rw [hids] at hi ⊢
  have hlength : i < (pendingGroups ids reactions).length := by
    rw [pendingGroups_length]
    omega
  have hget := List.getElem?_eq_getElem hlength
  rw [hgroups, List.getElem?_mapIdx, hget]
  refine ⟨_, rfl, ?_⟩
  have hpairs := pendingGroups_pairs hget
  rw [chipActors, List.flatMap_map]
  exact hpairs

end Groups

section Ids

variable {ids : List Bytes} {id id' : Bytes} {i : Nat} {r : Reaction}

theorem mem_addParts (ids added : List Bytes) :
    id ∈ added.foldl addPart ids ↔ id ∈ ids ∨ id ∈ added := by
  induction added generalizing ids with
  | nil => simp
  | cons first rest ih =>
    have hfirst : id ∈ addPart ids first ↔ id ∈ ids ∨ id = first := by
      unfold addPart
      split_ifs with hknown
      · exact ⟨Or.inl, fun h => h.elim (fun h => h) fun h => h ▸ hknown⟩
      · rw [List.mem_append, List.mem_singleton]
    rw [List.foldl_cons, ih, hfirst, List.mem_cons, or_assoc]

theorem mem_init {τ : Type} {reactions : List Reaction} {blocks : List (Block τ)} :
    id ∈ (ReactionGroups.init reactions blocks).ids ↔ id ∈ partIds blocks := by
  refine (mem_addParts [] (partIds blocks)).trans ?_
  simp

theorem byPart_get (h : byPart ids id = some i) : ∃ k, i = k + 1 ∧ ids[k]? = some id := by
  obtain ⟨k, hk, rfl⟩ := Option.map_eq_some_iff.mp h
  obtain ⟨hlength, hfound, -⟩ := List.findIdx?_eq_some_iff_getElem.mp hk
  refine ⟨k, rfl, ?_⟩
  rw [List.getElem?_eq_getElem hlength, of_decide_eq_true hfound]

theorem byPart_bound (h : byPart ids id = some i) : i ≤ ids.length := by
  obtain ⟨k, rfl, hk⟩ := byPart_get h
  exact (List.getElem?_eq_some_iff.mp hk).1

theorem byPart_injective (h : byPart ids id = some i) (h' : byPart ids id' = some i) : id = id' := by
  obtain ⟨k, rfl, hk⟩ := byPart_get h
  obtain ⟨k', hsame, hk'⟩ := byPart_get h'
  cases hsame
  exact Option.some.inj (hk.symm.trans hk')

theorem byPart_mem : (∃ i, byPart ids id = some i) ↔ id ∈ ids := by
  rw [← Option.isSome_iff_exists, byPart, Option.isSome_map, List.findIdx?_isSome]
  simp

theorem groupOf_part (h : byPart ids id = some i) :
    groupOf ids r = i ↔ r.partState = .resolved ∧ r.partId = some id := by
  obtain ⟨k, hk, -⟩ := byPart_get h
  unfold groupOf
  split_ifs with hstate
  · rw [and_iff_right hstate]
    constructor
    · intro hgroup
      cases hid : r.partId with
      | none =>
        rw [hid, Option.bind_none, Option.getD_none] at hgroup
        omega
      | some other =>
        rw [hid, Option.bind_some] at hgroup
        cases hother : byPart ids other with
        | none =>
          rw [hother, Option.getD_none] at hgroup
          omega
        | some j =>
          rw [hother, Option.getD_some] at hgroup
          subst hgroup
          exact congrArg some (byPart_injective hother h)
    · intro hid
      rw [hid, Option.bind_some, h, Option.getD_some]
  · refine iff_of_false (by omega) fun hboth => hstate hboth.1

theorem groupOf_message : groupOf ids r = 0 ↔
    ∀ id, r.partState = .resolved → r.partId = some id → id ∉ ids := by
  constructor
  · intro hgroup id hstate hid hmem
    obtain ⟨i, hi⟩ := byPart_mem.mpr hmem
    have hsame := (groupOf_part (r := r) hi).mpr ⟨hstate, hid⟩
    obtain ⟨k, rfl, -⟩ := byPart_get hi
    omega
  · intro h
    unfold groupOf
    split_ifs with hstate
    · cases hid : r.partId with
      | none => rfl
      | some id =>
        have hnone : byPart ids id = none := by
          rw [Option.eq_none_iff_forall_ne_some]
          exact fun i hi => h id hstate hid (byPart_mem.mp ⟨i, hi⟩)
        rw [Option.bind_some, hnone, Option.getD_none]
    · rfl

end Ids

section Placing

variable {τ : Type} {grouped : ReactionGroups} {blocks : List (Block τ)}

def chipsOf (grouped : ReactionGroups) (id : Bytes) : List Chip :=
  ((byPart grouped.ids id).bind fun i => grouped.groups[i]?).getD []

def withChips (grouped : ReactionGroups) (block : Block τ) : List (Block τ) :=
  block :: block.partId.elim [] fun id => chipsBlock (some id) (chipsOf grouped id)

theorem partIds_cons (block : Block τ) :
    partIds (block :: blocks) = block.partId.toList ++ partIds blocks := by
  unfold partIds
  rw [List.filterMap_cons]
  cases block.partId <;> rfl

/-- Where every part has a group, no lookup fails. -/
theorem placeChips_eq (h : ∀ id ∈ partIds blocks, ∃ i chips, byPart grouped.ids id = some i ∧
      grouped.groups[i]? = some chips) :
    placeChips grouped blocks = some (blocks.flatMap (withChips grouped)) := by
  induction blocks with
  | nil => rfl
  | cons block rest ih =>
    rw [partIds_cons] at h
    have hrest := ih fun id hid => h id (List.mem_append_right _ hid)
    rw [placeChips, List.flatMap_cons, withChips]
    cases hid : block.partId with
    | none =>
      rw [hrest]
      rfl
    | some id =>
      obtain ⟨i, chips, hi, hchips⟩ := h id (List.mem_append_left _ (by rw [hid]; exact List.mem_singleton_self id))
      have hof : chipsOf grouped id = chips := by
        rw [chipsOf, hi, Option.bind_some, hchips, Option.getD_some]
      dsimp only
      rw [hi, Option.bind_some, hchips, Option.bind_some, hrest, Option.map_some, Option.elim_some, hof]

theorem chipsBlock_silent {γ : Type} {f : Block τ → Option γ} {partId : Option Bytes} {chips : List Chip}
    (h : f { partId := partId, value := .reactions chips } = none) :
    (chipsBlock partId chips).filterMap f = [] := by
  unfold chipsBlock
  split_ifs
  · rw [List.filterMap_cons, h]
    rfl
  · rfl

theorem withChips_silent {γ : Type} {f : Block τ → Option γ}
    (h : ∀ partId chips, f { partId := partId, value := .reactions chips } = none) :
    (blocks.flatMap (withChips grouped)).filterMap f = blocks.filterMap f := by
  induction blocks with
  | nil => rfl
  | cons block rest ih =>
    have hchips : (block.partId.elim [] fun id => chipsBlock (some id) (chipsOf grouped id)).filterMap f =
        [] := by
      cases block.partId with
      | none => rfl
      | some id => exact chipsBlock_silent (h _ _)
    rw [List.flatMap_cons, List.filterMap_append, ih, withChips, List.filterMap_cons, List.filterMap_cons,
      hchips]
    cases f block <;> rfl

theorem actorsAt_append (place : Option Bytes) (front rest : List (Block τ)) :
    actorsAt place (front ++ rest) = actorsAt place front ++ actorsAt place rest := by
  rw [actorsAt, List.filter_append, List.flatMap_append]
  rfl

theorem actorsAt_chips (place partId : Option Bytes) (chips : List Chip) :
    actorsAt (τ := τ) place (chipsBlock partId chips) =
      if partId = place then chipActors chips else [] := by
  unfold actorsAt chipsBlock
  cases chips with
  | nil => simp [chipActors]
  | cons chip rest =>
    have hsome : (chip :: rest).length > 0 := Nat.succ_pos rest.length
    rw [if_pos hsome, List.filter_singleton]
    by_cases h : partId = place
    · rw [if_pos h, decide_eq_true h, cond_true, List.flatMap_singleton]
      rfl
    · rw [if_neg h, decide_eq_false h]
      rfl

theorem actorsAt_placed (h : ∀ block ∈ blocks, block.actors = []) (place : Option Bytes) :
    actorsAt place (blocks.flatMap (withChips grouped)) =
      ((partIds blocks).filter fun id => decide (some id = place)).flatMap fun id =>
        chipActors (chipsOf grouped id) := by
  induction blocks with
  | nil => rfl
  | cons block rest ih =>
    have hrest := ih fun other hother => h other (List.mem_cons_of_mem block hother)
    have hown : actorsAt place [block] = [] := by
      unfold actorsAt
      rw [List.flatMap_eq_nil_iff]
      exact fun other hother => h other
        ((List.mem_singleton.mp (List.mem_of_mem_filter hother)) ▸ List.mem_cons_self)
    rw [List.flatMap_cons, actorsAt_append, hrest, withChips, ← List.singleton_append, actorsAt_append,
      hown, List.nil_append, partIds_cons, List.filter_append, List.flatMap_append]
    congr 1
    cases block.partId with
    | none => rfl
    | some id =>
      rw [Option.elim_some, actorsAt_chips, Option.toList_some, List.filter_singleton]
      by_cases hplace : some id = place
      · rw [if_pos hplace, decide_eq_true hplace, cond_true, List.flatMap_singleton]
      · rw [if_neg hplace, decide_eq_false hplace]
        rfl

end Placing

section Raw

variable {τ : Type} {m : Message}

def shownParts (m : Message) : List MessagePart := if mapped m then parts m else []

def looseAttachments (m : Message) : List Attachment :=
  m.attachments.filter fun item => !wanted wantsAttachment (shownParts m) item

def looseCards (m : Message) : List LinkPreview :=
  (previews m).filter fun item => !wanted wantsPreview (shownParts m) item

def rawBlocks (m : Message) : List (Block τ) :=
  captionBlocks m ++ (partsBlocks m (seenAfter m []) (shownParts m)).1 ++
    attachmentBlocks none (looseAttachments m) ++
    cardBlocks (fun item => if mapped m then some item.partId else none) (looseCards m)

theorem contentBlocks_eq : contentBlocks (τ := τ) m =
    if (rawBlocks (τ := τ) m).length = 0 then [{ value := .text (Display.record m) }] else rawBlocks m := by
  have hseen : (⟨Library.unseen m.attachments, Library.unseen (previews m)⟩ : Seen) =
      seenAfter m [] := rfl
  have hafter : (partsBlocks (τ := τ) m (seenAfter m []) (shownParts m)).2 =
      seenAfter m ([] ++ shownParts m) := partsBlocks_seen
  have hplaced : (if mapped m then partsBlocks (τ := τ) m (seenAfter m []) (parts m) else
      ([], seenAfter m [])) = partsBlocks m (seenAfter m []) (shownParts m) := by
    unfold shownParts
    split_ifs <;> rfl
  unfold contentBlocks
  dsimp only
  rw [hseen, hplaced, hafter, List.nil_append]
  simp only [seenAfter, unclaimed_marks]
  rfl

/-- The record that stands for no block holds none of what blocks hold. -/
theorem contentBlocks_silent {γ : Type} {f : Block τ → Option γ}
    (h : f { value := .text (Display.record m) } = none) :
    (contentBlocks m).filterMap f = (rawBlocks m).filterMap f := by
  rw [contentBlocks_eq]
  split_ifs with hnone
  · rw [List.length_eq_zero_iff.mp hnone, List.filterMap_cons, h]
  · rfl

theorem captionBlocks_silent {γ : Type} {f : Block τ → Option γ}
    (h : ∀ block, (∃ shown, block.value = .text shown) → block.partId = none → f block = none) :
    (captionBlocks m).filterMap f = [] := by
  unfold captionBlocks
  cases m.text with
  | none => rfl
  | some value =>
    dsimp only
    split_ifs
    · rw [List.filterMap_cons, h _ ⟨Display.message value, rfl⟩ rfl]
      rfl
    · rfl

theorem captionBlocks_captions (h : validText m = false) :
    (captionBlocks (τ := τ) m).filterMap Block.caption? = (m.text.bind (piece none)).toList := by
  unfold captionBlocks
  cases m.text with
  | none => rfl
  | some value =>
    have hempty : Display.message [] = [] := by decide +kernel
    rw [Option.bind_some]
    unfold piece
    dsimp only
    rw [h, Bool.not_false, Bool.true_and]
    by_cases hshown : Display.message value = []
    · rw [hshown, if_neg (by simp)]
      rfl
    · have hvalue : value ≠ [] := by
        rintro rfl
        exact hshown hempty
      have hlengths := List.length_pos_of_ne_nil hshown
      have hlength := List.length_pos_of_ne_nil hvalue
      rw [if_pos (by simp [hlengths, hlength]), if_neg hshown]
      rfl

theorem contentBlocks_captions :
    (contentBlocks (τ := τ) m).filterMap Block.caption? =
      if validText m then (parts m).filterMap (spoken m) else (m.text.bind (piece none)).toList := by
  have hloose : (attachmentBlocks (τ := τ) none (looseAttachments m)).filterMap Block.caption? = [] :=
    filterMap_silent fun _ _ => rfl
  have hcards : (cardBlocks (τ := τ) (fun item => if mapped m then some item.partId else none)
      (looseCards m)).filterMap Block.caption? = [] := filterMap_silent fun _ _ => rfl
  rw [contentBlocks_silent rfl, rawBlocks]
  simp only [List.filterMap_append, hloose, hcards, List.append_nil, partsBlocks_captions]
  cases hvalid : validText m with
  | true =>
    have hnone : captionBlocks (τ := τ) m = [] := by
      unfold captionBlocks
      cases m.text <;> simp [hvalid]
    rw [hnone, shownParts, (validText_tiles hvalid).1]
    rfl
  | false =>
    rw [captionBlocks_captions hvalid, if_neg Bool.false_ne_true, if_neg Bool.false_ne_true,
      List.append_nil]

theorem contentBlocks_attachments : ((contentBlocks (τ := τ) m).filterMap Block.attachment?).Perm
    (m.attachments.filter fun item => !item.previewArtwork) := by
  have hcards : (cardBlocks (τ := τ) (fun item => if mapped m then some item.partId else none)
      (looseCards m)).filterMap Block.attachment? = [] := filterMap_silent fun _ _ => rfl
  have hcaption : (captionBlocks (τ := τ) m).filterMap Block.attachment? = [] :=
    captionBlocks_silent fun block ⟨shown, h⟩ _ => by rw [Block.attachment?, h]
  have hperm : (claimed wantsAttachment m.attachments [] (shownParts m) ++
      m.attachments.filter fun item => !wanted wantsAttachment ([] ++ shownParts m) item).Perm
        (m.attachments.filter fun item => !wanted wantsAttachment [] item) := claimed_perm
  rw [contentBlocks_silent rfl, rawBlocks]
  simp only [List.filterMap_append, hcaption, hcards, List.nil_append, List.append_nil,
    partsBlocks_attachments, attachmentBlocks_attachments]
  rw [← List.filter_append]
  refine (hperm.filter _).trans (.of_eq (congrArg _ ?_))
  exact List.filter_eq_self.mpr fun _ _ => rfl

theorem contentBlocks_cards :
    ((contentBlocks (τ := τ) m).filterMap Block.card?).Perm (previews m) := by
  have hloose : (attachmentBlocks (τ := τ) none (looseAttachments m)).filterMap Block.card? = [] :=
    filterMap_silent fun _ _ => rfl
  have hcaption : (captionBlocks (τ := τ) m).filterMap Block.card? = [] :=
    captionBlocks_silent fun block ⟨shown, h⟩ _ => by rw [Block.card?, h]
  have hperm : (claimed wantsPreview (previews m) [] (shownParts m) ++
      (previews m).filter fun item => !wanted wantsPreview ([] ++ shownParts m) item).Perm
        ((previews m).filter fun item => !wanted wantsPreview [] item) := claimed_perm
  rw [contentBlocks_silent rfl, rawBlocks]
  simp only [List.filterMap_append, hcaption, hloose, List.nil_append, List.append_nil,
    partsBlocks_cards, cardBlocks_cards]
  refine hperm.trans (.of_eq ?_)
  exact List.filter_eq_self.mpr fun _ _ => rfl

def Block.chips? (block : Block τ) : Option (List Chip) :=
  match block.value with
  | .reactions chips => some chips
  | _ => none

theorem partsBlocks_chips {before rest : List MessagePart} :
    (partsBlocks (τ := τ) m (seenAfter m before) rest).1.filterMap Block.chips? = [] := by
  induction rest generalizing before with
  | nil => rfl
  | cons part rest ih =>
    have hpart : (partBlocks (τ := τ) m (seenAfter m before) part).1.filterMap Block.chips? = [] := by
      unfold partBlocks
      cases part.kind with
      | text => exact textBlocks_silent fun block ⟨shown, h⟩ => by rw [Block.chips?, h]
      | attachment => exact filterMap_silent fun _ _ => rfl
      | linkPreview => exact filterMap_silent fun _ _ => rfl
    rw [partsBlocks_cons, List.filterMap_append, hpart, ih, List.append_nil]

theorem contentBlocks_actors : ∀ block ∈ contentBlocks (τ := τ) m, block.actors = [] := by
  have hloose : (attachmentBlocks (τ := τ) none (looseAttachments m)).filterMap Block.chips? = [] :=
    filterMap_silent fun _ _ => rfl
  have hcards : (cardBlocks (τ := τ) (fun item => if mapped m then some item.partId else none)
      (looseCards m)).filterMap Block.chips? = [] := filterMap_silent fun _ _ => rfl
  have hcaption : (captionBlocks (τ := τ) m).filterMap Block.chips? = [] :=
    captionBlocks_silent fun block ⟨shown, h⟩ _ => by rw [Block.chips?, h]
  have hnone : (contentBlocks (τ := τ) m).filterMap Block.chips? = [] := by
    rw [contentBlocks_silent rfl, rawBlocks]
    simp only [List.filterMap_append, hloose, hcards, hcaption, partsBlocks_chips, List.append_nil]
  intro block hblock
  have hchips := List.filterMap_eq_nil_iff.mp hnone block hblock
  unfold Block.chips? at hchips
  unfold Block.actors
  cases hvalue : block.value with
  | reactions chips =>
    rw [hvalue] at hchips
    exact nomatch hchips
  | _ => rfl

end Raw

section PartIds

variable {τ : Type} {m : Message} {before rest : List MessagePart} {part : MessagePart}

theorem filter_unique {α : Type} {key : α → Bytes} {items : List α} {p : α → Bool} {k : Bytes}
    (hnodup : (items.map key).Nodup) (hp : ∀ a ∈ items, p a = true → key a = k) :
    items.filter p = [] ∨ ∃ a ∈ items, p a = true ∧ items.filter p = [a] := by
  induction items with
  | nil => exact Or.inl rfl
  | cons a rest ih =>
    obtain ⟨hfresh, htail⟩ := List.nodup_cons.mp hnodup
    rw [List.filter_cons]
    split_ifs with ha
    · have hnone : rest.filter p = [] := by
        refine List.filter_eq_nil_iff.mpr fun b hb hpb => hfresh ?_
        have hkey := hp b (List.mem_cons_of_mem a hb) hpb
        rw [hp a List.mem_cons_self ha, ← hkey]
        exact List.mem_map_of_mem hb
      exact Or.inr ⟨a, List.mem_cons_self, ha, by rw [hnone]⟩
    · rcases ih htail fun b hb => hp b (List.mem_cons_of_mem a hb) with hnone | ⟨b, hb, hpb, hone⟩
      · exact Or.inl hnone
      · exact Or.inr ⟨b, List.mem_cons_of_mem a hb, hpb, hone⟩

theorem partBlocks_ids (before : List MessagePart) (part : MessagePart)
    (hattachments : (m.attachments.map Attachment.id).Nodup)
    (hpreviews : ((previews m).map LinkPreview.id).Nodup) :
    Shown m before part ∧
        partIds (partBlocks (τ := τ) m (seenAfter m before) part).1 = [part.id] ∨
      ¬Shown m before part ∧
        partIds (partBlocks (τ := τ) m (seenAfter m before) part).1 = [] := by
  unfold Shown partBlocks seenAfter partIds
  cases hkind : part.kind with
  | text =>
    dsimp only
    unfold textBlocks
    by_cases hvalid : validText m = true
    · rw [if_pos hvalid, and_iff_right hvalid]
      cases hvalue : partText m part with
      | none => exact Or.inr ⟨nofun, rfl⟩
      | some value =>
        by_cases hshown : Display.message value = []
        · refine Or.inr ⟨?_, ?_⟩
          · rintro ⟨other, hother, hne⟩
            cases hother
            exact hne hshown
          · dsimp only
            rw [if_pos (List.length_eq_zero_iff.mpr hshown)]
            rfl
        · refine Or.inl ⟨⟨value, rfl, hshown⟩, ?_⟩
          dsimp only
          rw [if_neg (mt List.length_eq_zero_iff.mp hshown)]
          rfl
    · rw [if_neg hvalid]
      exact Or.inr ⟨fun h => hvalid h.1, rfl⟩
  | attachment =>
    dsimp only
    rw [claim_marks, attachmentBlocks, List.filter_filter]
    have hkey : ∀ item ∈ m.attachments, (!item.previewArtwork && (!wanted wantsAttachment before item &&
        wantsAttachment part item)) = true → item.id = part.attachmentId.getD [] := by
      intro item _ hitem
      simp only [wantsAttachment, Bool.and_eq_true, decide_eq_true_eq] at hitem
      exact hitem.2.2.2
    rcases filter_unique hattachments hkey with hnone | ⟨item, hitem, hwants, hone⟩
    · refine Or.inr ⟨?_, by rw [hnone]; rfl⟩
      rintro ⟨item, hitem, hwants, hart, hearlier⟩
      have hmem : item ∈ ([] : List Attachment) := by
        rw [← hnone, List.mem_filter, hwants, hart, hearlier]
        exact ⟨hitem, rfl⟩
      exact absurd hmem List.not_mem_nil
    · simp only [Bool.and_eq_true, Bool.not_eq_true'] at hwants
      exact Or.inl ⟨⟨item, hitem, hwants.2.2, hwants.1, hwants.2.1⟩, by rw [hone]; rfl⟩
  | linkPreview =>
    dsimp only
    rw [claim_marks, cardBlocks]
    have hkey : ∀ item ∈ previews m, (!wanted wantsPreview before item &&
        wantsPreview part item) = true → item.id = part.previewId.getD [] := by
      intro item _ hitem
      simp only [wantsPreview, Bool.and_eq_true, decide_eq_true_eq] at hitem
      exact hitem.2.2
    rcases filter_unique hpreviews hkey with hnone | ⟨item, hitem, hwants, hone⟩
    · refine Or.inr ⟨?_, by rw [hnone]; rfl⟩
      rintro ⟨item, hitem, hwants, hearlier⟩
      have hmem : item ∈ ([] : List LinkPreview) := by
        rw [← hnone, List.mem_filter, hwants, hearlier]
        exact ⟨hitem, rfl⟩
      exact absurd hmem List.not_mem_nil
    · simp only [Bool.and_eq_true, Bool.not_eq_true'] at hwants
      exact Or.inl ⟨⟨item, hitem, hwants.2, hwants.1⟩, by rw [hone]; rfl⟩

variable (hattachments : (m.attachments.map Attachment.id).Nodup)
  (hpreviews : ((previews m).map LinkPreview.id).Nodup)

include hattachments hpreviews

theorem partsBlocks_sublist :
    (partIds (partsBlocks (τ := τ) m (seenAfter m before) rest).1).Sublist (rest.map MessagePart.id) := by
  induction rest generalizing before with
  | nil => exact List.Sublist.refl _
  | cons part rest ih =>
    rw [partsBlocks_cons, partIds, List.filterMap_append, List.map_cons]
    change (partIds _ ++ partIds _).Sublist _
    rcases partBlocks_ids (τ := τ) before part hattachments hpreviews with ⟨-, hone⟩ | ⟨-, hnone⟩
    · rw [hone]
      exact ih.cons_cons _
    · rw [hnone]
      exact ih.cons _

omit hattachments hpreviews in
theorem exists_split {P : List MessagePart → MessagePart → Prop} :
    (∃ front p back, part :: rest = front ++ p :: back ∧ P front p) ↔
      P [] part ∨ ∃ front p back, rest = front ++ p :: back ∧ P (part :: front) p := by
  constructor
  · rintro ⟨_ | ⟨first, front⟩, p, back, heq, hp⟩
    · cases heq
      exact Or.inl hp
    · cases heq
      exact Or.inr ⟨front, p, back, rfl, hp⟩
  · rintro (hp | ⟨front, p, back, rfl, hp⟩)
    · exact ⟨[], part, rest, rfl, hp⟩
    · exact ⟨part :: front, p, back, rfl, hp⟩

theorem mem_partsBlocks {id : Bytes} :
    id ∈ partIds (partsBlocks (τ := τ) m (seenAfter m before) rest).1 ↔
      ∃ front part back, rest = front ++ part :: back ∧ part.id = id ∧
        Shown m (before ++ front) part := by
  induction rest generalizing before with
  | nil => simp [partsBlocks, partIds]
  | cons part rest ih =>
    have hlater : (∃ front p back, rest = front ++ p :: back ∧ p.id = id ∧
        Shown m (before ++ part :: front) p) ↔
          id ∈ partIds (partsBlocks (τ := τ) m (seenAfter m (before ++ [part])) rest).1 := by
      rw [ih]
      simp only [List.append_assoc, List.singleton_append]
    rw [exists_split, hlater, List.append_nil, partsBlocks_cons, partIds, List.filterMap_append,
      List.mem_append]
    refine or_congr_left ?_
    change id ∈ partIds _ ↔ _
    rcases partBlocks_ids (τ := τ) before part hattachments hpreviews with ⟨hshown, hone⟩ | ⟨hhidden, hnone⟩
    · rw [hone, List.mem_singleton, and_iff_left hshown, eq_comm]
    · rw [hnone]
      exact iff_of_false List.not_mem_nil fun h => hhidden h.2

variable (hparts : ((parts m).map MessagePart.id).Nodup)

omit hattachments hpreviews in
theorem contentBlocks_ids : partIds (contentBlocks (τ := τ) m) =
    partIds (partsBlocks (τ := τ) m (seenAfter m []) (shownParts m)).1 ++
      if mapped m then (looseCards m).map LinkPreview.partId else [] := by
  have hloose : (attachmentBlocks (τ := τ) none (looseAttachments m)).filterMap Block.partId = [] :=
    filterMap_silent fun _ _ => rfl
  have hcaption : (captionBlocks (τ := τ) m).filterMap Block.partId = [] :=
    captionBlocks_silent fun block _ h => h
  have hcards : (cardBlocks (τ := τ) (fun item => if mapped m then some item.partId else none)
      (looseCards m)).filterMap Block.partId =
        if mapped m then (looseCards m).map LinkPreview.partId else [] := by
    rw [cardBlocks, List.filterMap_map]
    split_ifs with hmapped
    · exact congrFun List.filterMap_eq_map' _
    · exact List.filterMap_eq_nil_iff.mpr fun _ _ => rfl
  unfold partIds
  rw [contentBlocks_silent rfl, rawBlocks]
  simp only [List.filterMap_append, hloose, hcaption, hcards, List.nil_append, List.append_nil]

include hparts

omit hattachments hpreviews hparts in
theorem mem_looseCards (hmapped : mapped m = true) {item : LinkPreview} :
    item ∈ looseCards m ↔ Stray m item := by
  rw [looseCards, List.mem_filter, shownParts, if_pos hmapped, Bool.not_eq_true', Stray,
    and_iff_right hmapped]

/-- The blocks of a part are its own, if it is shown, and the cards that name it. -/
theorem count_iff (hmapped : mapped m = true) (id : Bytes) :
    (partIds (contentBlocks (τ := τ) m)).count id ≤ 1 ↔
      ∀ item, Stray m item → item.partId = id →
        (∀ other, Stray m other → other.partId = id → other = item) ∧
        ∀ before part after, parts m = before ++ part :: after → part.id = id →
          ¬Shown m before part := by
  have hshown : shownParts m = parts m := if_pos hmapped
  have hplaced : (partIds (partsBlocks (τ := τ) m (seenAfter m []) (parts m)).1).Sublist
      ((parts m).map MessagePart.id) := partsBlocks_sublist hattachments hpreviews
  have hmem : id ∈ partIds (partsBlocks (τ := τ) m (seenAfter m []) (parts m)).1 ↔
      ∃ front part back, parts m = front ++ part :: back ∧ part.id = id ∧ Shown m ([] ++ front) part :=
    mem_partsBlocks hattachments hpreviews
  have honce := List.nodup_iff_count_le_one.mp (hplaced.nodup hparts) id
  have hcards : (looseCards m).Nodup := (List.Nodup.of_map _ hpreviews).filter _
  have hcount : ((looseCards m).map LinkPreview.partId).count id =
      ((looseCards m).filter fun item => decide (item.partId = id)).length := by
    rw [List.count, List.countP_map, List.countP_eq_length_filter]
    exact congrArg List.length (List.filter_congr fun item _ => beq_eq_decide _ _)
  have hnamed (item : LinkPreview) : item ∈ ((looseCards m).filter fun item => decide (item.partId = id)) ↔
      Stray m item ∧ item.partId = id := by
    rw [List.mem_filter, mem_looseCards hmapped, decide_eq_true_eq]
  rw [contentBlocks_ids, if_pos hmapped, hshown, List.count_append, hcount]
  have hnodup := hcards.filter fun item => decide (item.partId = id)
  cases hnames : (looseCards m).filter fun item => decide (item.partId = id) with
  | nil =>
    refine iff_of_true honce fun item hstray hid => ?_
    have hitem := (hnamed item).mpr ⟨hstray, hid⟩
    rw [hnames] at hitem
    exact absurd hitem List.not_mem_nil
  | cons item others =>
    rw [hnames] at hnodup hnamed
    have hitem := (hnamed item).mp List.mem_cons_self
    cases others with
    | nil =>
      have hnone : (partIds (partsBlocks (τ := τ) m (seenAfter m []) (parts m)).1).count id + 1 ≤ 1 ↔
          id ∉ partIds (partsBlocks (τ := τ) m (seenAfter m []) (parts m)).1 := by
        rw [← List.count_eq_zero]
        omega
      rw [List.length_singleton, hnone, hmem]
      constructor
      · intro hhidden other hstray hid
        obtain rfl := List.mem_singleton.mp ((hnamed other).mpr ⟨hstray, hid⟩)
        refine ⟨fun another hanother hsame => ?_, fun before part after hsplit hpart hshown => ?_⟩
        · exact List.mem_singleton.mp ((hnamed another).mpr ⟨hanother, hsame⟩)
        · exact hhidden ⟨before, part, after, hsplit, hpart, hshown⟩
      · rintro hall ⟨before, part, after, hsplit, hpart, hshown⟩
        exact (hall item hitem.1 hitem.2).2 before part after hsplit hpart hshown
    | cons second later =>
      have hsecond := (hnamed second).mp (List.mem_cons_of_mem _ List.mem_cons_self)
      refine iff_of_false (by rw [List.length_cons, List.length_cons]; omega) fun hall => ?_
      have hsame := (hall item hitem.1 hitem.2).1 second hsecond.1 hsecond.2
      rw [hsame] at hnodup
      exact (List.nodup_cons.mp hnodup).1 List.mem_cons_self

/-- A part has more than one block only if a card without a part of its own names it. -/
theorem unshared_iff : Unshared m ↔ ∀ r ∈ m.reactions.getD [], r.partState = .resolved →
    ∀ id, r.partId = some id → (partIds (contentBlocks (τ := τ) m)).count id ≤ 1 := by
  cases hmapped : mapped m with
  | true =>
    simp only [count_iff hattachments hpreviews hparts hmapped]
    rfl
  | false =>
    have hnone : partIds (contentBlocks (τ := τ) m) = [] := by
      rw [contentBlocks_ids, shownParts, hmapped, if_neg Bool.false_ne_true, if_neg Bool.false_ne_true]
      rfl
    refine iff_of_true (fun r _ _ id _ item hstray => ?_) fun r _ _ id _ => ?_
    · cases hmapped.symm.trans hstray.2.1
    · rw [hnone]
      exact Nat.zero_le 1

end PartIds

section Placed

variable {τ : Type} {m : Message} {inText : Bytes → List τ} {chips : List Chip}

@[simp] theorem linked_partId (block : Block τ) : (linked inText block).partId = block.partId := by
  unfold linked
  split <;> rfl

@[simp] theorem linked_value (block : Block τ) : (linked inText block).value = block.value := by
  unfold linked
  split <;> rfl

@[simp] theorem linked_sourceText (block : Block τ) :
    (linked inText block).sourceText = block.sourceText := by
  unfold linked
  split <;> rfl

def grouped (τ : Type) (m : Message) : ReactionGroups :=
  ReactionGroups.init (m.reactions.getD []) (contentBlocks (τ := τ) m)

def arranged (inText : Bytes → List τ) (m : Message) (chips : List Chip) : List (Block τ) :=
  ((contentBlocks m).flatMap (withChips (grouped τ m)) ++ chipsBlock none chips ++ moreBlocks m).map
    (linked inText)

theorem grouped_get {id : Bytes} (h : id ∈ partIds (contentBlocks (τ := τ) m)) :
    ∃ i chips, byPart (grouped τ m).ids id = some i ∧ (grouped τ m).groups[i]? = some chips := by
  obtain ⟨i, hi⟩ := byPart_mem.mpr (mem_init.mpr h)
  obtain ⟨chips, hchips, -⟩ := init_chips _ _ (byPart_bound hi)
  exact ⟨i, chips, hi, hchips⟩

variable (inText) in
theorem prepare_eq (h : (m.reactionEvent.isSome || plain m) = false) :
    ∃ chips, (grouped τ m).groups[0]? = some chips ∧ prepare inText m = some (arranged inText m chips) := by
  obtain ⟨chips, hchips, -⟩ :=
    init_chips (τ := τ) (m.reactions.getD []) (contentBlocks m) (Nat.zero_le _)
  refine ⟨chips, hchips, ?_⟩
  have hplaced := placeChips_eq fun id hid => grouped_get (τ := τ) (m := m) hid
  unfold prepare
  rw [h, if_neg Bool.false_ne_true]
  dsimp only
  unfold grouped at hplaced
  rw [hplaced, Option.bind_some, hchips]
  rfl

theorem arranged_silent {γ : Type} {f : Block τ → Option γ}
    (hlinked : ∀ block, f (linked inText block) = f block)
    (hchips : ∀ partId chips, f { partId := partId, value := .reactions chips } = none)
    (hmore : ∀ part, f { value := .more part } = none) :
    (arranged inText m chips).filterMap f = (contentBlocks m).filterMap f := by
  have hsame : f ∘ linked inText = f := funext hlinked
  have hlast : (moreBlocks m).filterMap f = [] := by
    unfold moreBlocks
    cases m.enrichment with
    | none => rfl
    | some e => exact filterMap_silent fun part _ => hmore part
  rw [arranged, List.filterMap_map, hsame, List.filterMap_append, List.filterMap_append,
    withChips_silent hchips, chipsBlock_silent (hchips none chips), hlast, List.append_nil,
    List.append_nil]

theorem chipsBlock_partId {partId : Option Bytes} {block : Block τ}
    (h : block ∈ chipsBlock partId chips) : block.partId = partId := by
  unfold chipsBlock at h
  split_ifs at h
  · rw [List.mem_singleton.mp h]
  · exact absurd h List.not_mem_nil

theorem moreBlocks_more {block : Block τ} (h : block ∈ moreBlocks m) :
    block.partId = none ∧ block.actors = [] := by
  unfold moreBlocks at h
  cases he : m.enrichment with
  | none =>
    rw [he] at h
    exact absurd h List.not_mem_nil
  | some e =>
    rw [he] at h
    obtain ⟨part, -, rfl⟩ := List.mem_map.mp h
    exact ⟨rfl, rfl⟩

theorem arranged_any {id : Bytes} :
    ((arranged inText m chips).any fun block => decide (block.partId = some id)) = true ↔
      id ∈ partIds (contentBlocks (τ := τ) m) := by
  constructor
  · intro h
    obtain ⟨last, hlast, hid⟩ := List.any_eq_true.mp h
    obtain ⟨block, hblock, rfl⟩ := List.mem_map.mp hlast
    rw [linked_partId, decide_eq_true_eq] at hid
    rcases List.mem_append.mp hblock with hfront | hmore
    · rcases List.mem_append.mp hfront with hplaced | hchips
      · obtain ⟨own, hown, hmem⟩ := List.mem_flatMap.mp hplaced
        have hpart : own.partId = some id := by
          rcases List.mem_cons.mp hmem with rfl | hbelow
          · exact hid
          · cases hpart : own.partId with
            | none =>
              rw [hpart] at hbelow
              exact absurd hbelow List.not_mem_nil
            | some other =>
              rw [hpart, Option.elim_some] at hbelow
              exact (chipsBlock_partId hbelow).symm.trans hid
        exact List.mem_filterMap.mpr ⟨own, hown, hpart⟩
      · exact absurd ((chipsBlock_partId hchips).symm.trans hid) nofun
    · exact absurd ((moreBlocks_more hmore).1.symm.trans hid) nofun
  · intro h
    obtain ⟨block, hblock, hid⟩ := List.mem_filterMap.mp h
    refine List.any_eq_true.mpr ⟨linked inText block, List.mem_map_of_mem ?_, ?_⟩
    · refine List.mem_append_left _ (List.mem_append_left _ ?_)
      exact List.mem_flatMap.mpr ⟨block, hblock, List.mem_cons_self⟩
    · rw [linked_partId, hid, decide_eq_true rfl]

theorem actorsAt_linked (place : Option Bytes) (blocks : List (Block τ)) :
    actorsAt place (blocks.map (linked inText)) = actorsAt place blocks := by
  have hactors (block : Block τ) : (linked inText block).actors = block.actors := by
    unfold Block.actors
    rw [linked_value]
  have hplace : (fun block : Block τ => decide (block.partId = place)) ∘ linked inText =
      fun block => decide (block.partId = place) := by
    funext block
    rw [Function.comp_apply, linked_partId]
  rw [actorsAt, List.filter_map, List.flatMap_map, hplace]
  simp only [hactors]
  rfl

theorem arranged_actors (place : Option Bytes) : actorsAt place (arranged inText m chips) =
    ((partIds (contentBlocks (τ := τ) m)).filter fun id => decide (some id = place)).flatMap
      (fun id => chipActors (chipsOf (grouped τ m) id)) ++
    if none = place then chipActors chips else [] := by
  have hmore : actorsAt place (moreBlocks (τ := τ) m) = [] :=
    List.flatMap_eq_nil_iff.mpr fun block hblock =>
      (moreBlocks_more (List.mem_of_mem_filter hblock)).2
  rw [arranged, actorsAt_linked, actorsAt_append, actorsAt_append, hmore, List.append_nil,
    actorsAt_placed contentBlocks_actors, actorsAt_chips]

/-- Copies of a group are the group if there is one copy, or nothing to copy. -/
theorem copies_perm {α : Type} {n : Nat} {copied group : List α} (h : copied.Perm group) (hn : 0 < n) :
    (List.replicate n copied).flatten.Perm group ↔ n ≤ 1 ∨ group = [] := by
  constructor
  · intro hall
    have hlength := hall.length_eq
    rw [List.length_flatten, List.map_replicate, List.sum_replicate_nat, h.length_eq] at hlength
    by_cases hnil : group = []
    · exact Or.inr hnil
    · have hpos := List.length_pos_of_ne_nil hnil
      exact Or.inl (Nat.eq_of_mul_eq_mul_right hpos (hlength.trans (Nat.one_mul _).symm)).le
  · rintro (hone | rfl)
    · obtain rfl : n = 1 := by omega
      simpa using h
    · rw [h.eq_nil, List.flatten_replicate_nil]

variable (inText) in
/-- Reactions have their places once where no part with reactions has two blocks. -/
theorem reactions_iff (hchips : (grouped τ m).groups[0]? = some chips) :
    (∀ place, (actorsAt place (arranged inText m chips)).Perm (((m.reactions.getD []).filter fun r =>
        decide (placeOf (arranged inText m chips) r = place)).map reactor)) ↔
      ∀ r ∈ m.reactions.getD [], r.partState = .resolved → ∀ id, r.partId = some id →
        (partIds (contentBlocks (τ := τ) m)).count id ≤ 1 := by
  have hplace (r : Reaction) (id : Bytes) : placeOf (arranged inText m chips) r = some id ↔
      (r.partState = .resolved ∧ r.partId = some id) ∧ id ∈ partIds (contentBlocks (τ := τ) m) := by
    unfold placeOf
    split_ifs with hstate
    · rw [Option.filter_eq_some_iff, arranged_any, and_iff_right hstate]
    · exact iff_of_false nofun fun h => hstate h.1.1
  have hmessage (r : Reaction) : placeOf (arranged inText m chips) r = none ↔
      groupOf (grouped τ m).ids r = 0 := by
    rw [groupOf_message, Option.eq_none_iff_forall_ne_some]
    constructor
    · intro h id hstate hid hmem
      exact h id ((hplace r id).mpr ⟨⟨hstate, hid⟩, mem_init.mp hmem⟩)
    · intro h id hsome
      obtain ⟨⟨hstate, hid⟩, hmem⟩ := (hplace r id).mp hsome
      exact h id hstate hid (mem_init.mpr hmem)
  have hpart (id : Bytes) : (actorsAt (some id) (arranged inText m chips)).Perm
      (((m.reactions.getD []).filter fun r =>
        decide (placeOf (arranged inText m chips) r = some id)).map reactor) ↔
      (partIds (contentBlocks (τ := τ) m)).count id ≤ 1 ∨ ((m.reactions.getD []).filter fun r =>
        decide (placeOf (arranged inText m chips) r = some id)).map reactor = [] := by
    have hcopies : actorsAt (some id) (arranged inText m chips) =
        (List.replicate ((partIds (contentBlocks (τ := τ) m)).count id)
          (chipActors (chipsOf (grouped τ m) id))).flatten := by
      have hsame : (partIds (contentBlocks (τ := τ) m)).filter (fun other => decide (some other = some id)) =
          List.replicate ((partIds (contentBlocks (τ := τ) m)).count id) id := by
        rw [← List.filter_eq]
        simp only [Option.some.injEq]
      rw [arranged_actors, hsame, if_neg nofun, List.append_nil, List.flatMap, List.map_replicate]
    rw [hcopies]
    by_cases hmem : id ∈ partIds (contentBlocks (τ := τ) m)
    · refine copies_perm ?_ (List.count_pos_iff.mpr hmem)
      obtain ⟨i, hi⟩ := byPart_mem.mpr (mem_init.mpr hmem)
      obtain ⟨group, hgroup, hperm⟩ := init_chips _ _ (byPart_bound hi)
      have hof : chipsOf (grouped τ m) id = group := by
        unfold chipsOf grouped
        rw [hi, Option.bind_some, hgroup, Option.getD_some]
      have hfilter : ((m.reactions.getD []).filter fun r => decide (groupOf (grouped τ m).ids r = i)) =
          (m.reactions.getD []).filter fun r =>
            decide (placeOf (arranged inText m chips) r = some id) := by
        refine List.filter_congr fun r _ => decide_eq_decide.mpr ?_
        exact (groupOf_part hi).trans ((hplace r id).trans (and_iff_left hmem)).symm
      rw [hof, ← hfilter]
      exact hperm
    · have hnone : ((m.reactions.getD []).filter fun r =>
          decide (placeOf (arranged inText m chips) r = some id)) = [] := by
        refine List.filter_eq_nil_iff.mpr fun r _ hsome => ?_
        exact hmem ((hplace r id).mp (of_decide_eq_true hsome)).2
      rw [List.count_eq_zero.mpr hmem, hnone]
      exact iff_of_true (.refl _) (Or.inl (Nat.zero_le 1))
  constructor
  · intro hall r hr hstate id hid
    rcases (hpart id).mp (hall (some id)) with hone | hnone
    · exact hone
    · by_contra hmore
      have hmem : id ∈ partIds (contentBlocks (τ := τ) m) := List.count_pos_iff.mp (by omega)
      have hnil := List.map_eq_nil_iff.mp hnone
      refine List.filter_eq_nil_iff.mp hnil r hr (decide_eq_true ?_)
      exact (hplace r id).mpr ⟨⟨hstate, hid⟩, hmem⟩
  · intro h place
    cases place with
    | none =>
      obtain ⟨group, hgroup, hperm⟩ :=
        init_chips (τ := τ) (m.reactions.getD []) (contentBlocks m) (Nat.zero_le _)
      obtain rfl := Option.some.inj (hgroup.symm.trans hchips)
      have hnone : (partIds (contentBlocks (τ := τ) m)).filter (fun id => decide (some id = none)) = [] :=
        List.filter_eq_nil_iff.mpr fun _ _ => nofun
      rw [arranged_actors, hnone, if_pos rfl, List.flatMap_nil, List.nil_append]
      simp only [hmessage]
      exact hperm
    | some id =>
      rw [hpart, List.map_eq_nil_iff]
      cases hplaced : (m.reactions.getD []).filter fun r =>
          decide (placeOf (arranged inText m chips) r = some id) with
      | nil => exact Or.inr rfl
      | cons r rest =>
        have hmem : r ∈ (m.reactions.getD []).filter fun r =>
            decide (placeOf (arranged inText m chips) r = some id) := by
          rw [hplaced]
          exact List.mem_cons_self
        obtain ⟨hr, hsome⟩ := List.mem_filter.mp hmem
        obtain ⟨⟨hstate, hid⟩, -⟩ := (hplace r id).mp (of_decide_eq_true hsome)
        exact Or.inl (h r hr hstate id hid)

/-- Preparing blocks never fails. They hold the whole message once exactly if no card
without a part of its own shares the part of a reaction with another block. -/
theorem content_prepared (inText : Bytes → List τ) (m : Message)
    (hparts : ((parts m).map MessagePart.id).Nodup)
    (hattachments : (m.attachments.map Attachment.id).Nodup)
    (hpreviews : ((previews m).map LinkPreview.id).Nodup) :
    ∃ blocks, prepare inText m = some blocks ∧
      (blocks ≠ [] → (Represented m blocks ↔ Unshared m)) := by
  by_cases hplain : (m.reactionEvent.isSome || plain m) = true
  · refine ⟨[], ?_, fun h => absurd rfl h⟩
    unfold prepare
    exact if_pos hplain
  · obtain ⟨chips, hchips, hprepare⟩ := prepare_eq inText (Bool.not_eq_true _ ▸ hplain)
    have hcaption : (arranged inText m chips).filterMap Block.caption? =
        (contentBlocks (τ := τ) m).filterMap Block.caption? := by
      refine arranged_silent (fun block => ?_) (fun _ _ => rfl) fun _ => rfl
      simp only [Block.caption?, linked_value, linked_sourceText, linked_partId]
    have hheld : (arranged inText m chips).filterMap Block.attachment? =
        (contentBlocks (τ := τ) m).filterMap Block.attachment? := by
      refine arranged_silent (fun block => ?_) (fun _ _ => rfl) fun _ => rfl
      simp only [Block.attachment?, linked_value]
    have hcards : (arranged inText m chips).filterMap Block.card? =
        (contentBlocks (τ := τ) m).filterMap Block.card? := by
      refine arranged_silent (fun block => ?_) (fun _ _ => rfl) fun _ => rfl
      simp only [Block.card?, linked_value]
    refine ⟨_, hprepare, fun _ => ?_⟩
    rw [unshared_iff (τ := τ) hattachments hpreviews hparts, ← reactions_iff inText hchips]
    constructor
    · exact fun h => h.reactions
    · intro h
      refine ⟨?_, hheld ▸ contentBlocks_attachments, hcards ▸ contentBlocks_cards, h⟩
      rw [hcaption, contentBlocks_captions]
      cases hvalid : validText m with
      | true => exact Or.inl ⟨(validText_tiles hvalid).2, if_pos rfl⟩
      | false => exact Or.inr (if_neg Bool.false_ne_true)

end Placed

namespace Sample

def message (parts : List MessagePart) (card : LinkPreview) : Message := {
  id := text "m", conversationId := text "c", sender := text "peer", direction := .incoming
  service := text "imessage", timestamp := [], kind := .text, decoding := .plain
  observedStatus := .received, text := some (text "Hi")
  parts := some ({ id := text "p", kind := .text, textStart := some 0, textLength := some 2 } :: parts)
  enrichment := some { partMapping := .resolved }
  linkPreviews := some [card]
  reactions := some [{
    id := text "r", partId := some (text "p"), partState := .resolved
    actor := { service := text "imessage" }, key := text "like" }] }

def linkedMessage : Message :=
  message [{ id := text "l", kind := .linkPreview, previewId := some (text "v") }]
    { id := text "v", partId := text "l" }

def sharedMessage : Message := message [] { id := text "v", partId := text "p" }

end Sample

theorem content_prepared_linked : ∃ blocks,
    prepare (fun _ => ([] : List Unit)) Sample.linkedMessage = some blocks ∧ blocks ≠ [] ∧
      Represented Sample.linkedMessage blocks := by
  obtain ⟨blocks, hprepare, hblocks⟩ := content_prepared (fun _ => ([] : List Unit))
    Sample.linkedMessage (by decide) (by decide) (by decide)
  have hsome : blocks ≠ [] := by
    rintro rfl
    exact absurd hprepare (by decide +kernel)
  refine ⟨blocks, hprepare, hsome, (hblocks hsome).mpr fun r _ _ id _ item hstray => ?_⟩
  obtain rfl := List.mem_singleton.mp hstray.1
  exact absurd hstray.2.2 (by decide)

/-- The actor is shown below the caption and again below the card. -/
theorem card_doubles_actor : Client.Validation.message Sample.sharedMessage = .ok () ∧
    ((parts Sample.sharedMessage).map MessagePart.id).Nodup ∧
    ((previews Sample.sharedMessage).map LinkPreview.id).Nodup ∧
    ∃ blocks, prepare (fun _ => ([] : List Unit)) Sample.sharedMessage = some blocks ∧ blocks ≠ [] ∧
      ¬Represented Sample.sharedMessage blocks := by
  refine ⟨by decide +kernel, by decide, by decide, ?_⟩
  have hprepare : (prepare (fun _ => ([] : List Unit)) Sample.sharedMessage).isSome = true := by
    decide +kernel
  obtain ⟨blocks, hblocks⟩ := Option.isSome_iff_exists.mp hprepare
  have hactors : ((prepare (fun _ => ([] : List Unit)) Sample.sharedMessage).map fun blocks =>
      ((actorsAt (some (text "p")) blocks).length, (((Sample.sharedMessage.reactions.getD []).filter
        fun r => placeOf blocks r = some (text "p")).length))) = some (2, 1) := by
    decide +kernel
  rw [hblocks] at hactors
  obtain ⟨htwice, hone⟩ := Prod.mk.inj (Option.some.inj hactors)
  refine ⟨blocks, hblocks, ?_, fun h => ?_⟩
  · rintro rfl
    exact absurd htwice (by decide)
  · have hlength := (h.reactions (some (text "p"))).length_eq
    rw [List.length_map, htwice, hone] at hlength
    omega

end Zimbr.Content
