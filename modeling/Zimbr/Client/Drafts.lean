import Zimbr.Client.Effects
import Zimbr.Library.Weakest
import Mathlib.Data.List.Infix

set_option autoImplicit false

/-!
# Drafts

A thread has one draft, saved under its canonical id. Rows under other members
are folded into it when the thread is merged.
-/
namespace Zimbr.Client
open Library

def Error.ofSend : ValidateError → Error
  | .attachments .invalidRequest => .invalidRequest
  | .attachments .attachmentTooLarge => .attachmentTooLarge
  | .attachments .tooManyAttachments => .tooManyAttachments
  | .invalidRequest => .invalidRequest
  | .textTooLarge => .textTooLarge
  | .unsupportedTarget => .unsupportedTarget

def upsertDraft (key value : Bytes) : Tx Unit := Sql.execute fun s => { s with
  drafts := s.drafts.upsert key value fun _ => value }

/-- An edit queued under an old alias is merged with the other saved draft. -/
def storeDraft (key value : Bytes) : Tx Unit := do
  let canonical ← Sql.query (·.threadKey key)
  if canonical != key && value.length > 0 then do
    upsertDraft key value
    mergeThreadState canonical
  else upsertDraft canonical value

def saveDraft (autocommit : Bool) (key value : Bytes) : Tx Unit := do
  Sql.require (value.length ≤ maxText && utf8ValidateSlice value) .invalidDraft
  if autocommit then Sql.transaction (storeDraft key value) else storeDraft key value

def Store.draftFiles (s : Store) (key : Bytes) : List Upload :=
  (s.outgoingFiles.select fun _ f => decide (f.draftKey = some (s.threadKey key))).map
    fun row => row.2.record

/-- Require exactly the reviewed files in their original order, then hand them
to the request. -/
def transfer (key : Bytes) (input : SendInput) : Tx Unit := do
  let files ← Sql.query (·.draftFiles key)
  Sql.require (files = input.attachments) .attachmentDraftChanged
  let canonical ← Sql.query (·.threadKey key)
  Sql.execute fun s => { s with
    outgoingFiles := s.outgoingFiles.modifyWhere (fun _ f => f.draftKey = some canonical)
      fun f => { f with draftKey := none, requestId := some input.requestId } }

def insertOutbox (sentAt : Int) (key : Bytes) (input : SendInput) : Tx Unit :=
  Sql.execute? fun s => (s.outbox.insert input.requestId {
    epoch := input.serverEpoch
    draftKey := key
    payload := input
    state := if input.attachments.length = 0 then .sending else .uploading
    sentAt := sentAt }).map fun outbox => { s with outbox := outbox }

def persistSend (sentAt : Int) (key : Bytes) (input : SendInput) : Tx Unit := do
  Sql.lift ((validate input).mapError .ofSend)
  let epoch ← Sql.query (·.epoch)
  Sql.require (input.serverEpoch = epoch) .staleEpoch
  Sql.transaction do
    transfer key input
    insertOutbox sentAt key input
    saveDraft false key []

namespace Store

def draftText (s : Store) (id : Bytes) : Bytes := (s.drafts.get? id).getD []

/-- The text that answers for an id: that of its row, or of its thread's once the
row was merged. -/
def keptText (s : Store) (id : Bytes) : Bytes := (s.drafts.get? id).getD (s.draft id)

def gathered (s : Store) (canonical : Bytes) : Bytes :=
  (s.aliases canonical).foldl (fun combined a => combine combined a.2) (s.draft canonical)

/-- Merging the thread of `key` overwrites no draft: no other member has one, or what the
row of the canonical id holds is among the others. -/
def Settled (s : Store) (key : Bytes) : Prop :=
  s.aliases (s.threadKey key) = [] ∨
    s.draftText (s.threadKey key) <:+: s.gathered (s.threadKey key)

/-- The record is of a conversation that is new, or newer and in another thread. -/
def moves (s : Store) (record : Incoming) : Bool :=
  record.kind = .conversation && (s.records.get? record.key).all fun old =>
    !superseded record old && old.chat != record.chat

def HoldsBeside (excluded : List Bytes) (text : Bytes) (s : Store) : Prop :=
  ∃ id row, id ∉ excluded ∧ s.drafts.get? id = some row ∧ text <:+: row

def Holds (text : Bytes) (s : Store) : Prop := s.HoldsBeside [] text

end Store

section Combining

variable {combined other : Bytes} {s : Store} {canonical : Bytes} {a : Bytes × Bytes}

theorem combine_left : combined <:+: combine combined other := by
  unfold combine
  split_ifs with hdiffers hempty
  · rw [List.length_eq_zero_iff.mp hempty]
    exact List.nil_infix
  · rw [List.append_assoc]
    exact (List.prefix_append _ _).isInfix
  · exact List.infix_rfl

theorem combine_right : other <:+: combine combined other := by
  unfold combine
  split_ifs with hdiffers hempty
  · exact List.infix_rfl
  · exact (List.suffix_append _ _).isInfix
  · simp only [gt_iff_lt, Bool.and_eq_true, decide_eq_true_eq, bne_iff_ne, not_and, not_not] at hdiffers
    rcases other with _ | ⟨b, rest⟩
    · exact List.nil_infix
    · rw [hdiffers (Nat.succ_pos _)]

theorem foldl_combine_start (rows : List (Bytes × Bytes)) (start : Bytes) :
    start <:+: rows.foldl (fun combined a => combine combined a.2) start := by
  induction rows generalizing start with
  | nil => exact List.infix_rfl
  | cons a rest ih => exact combine_left.trans (ih _)

theorem foldl_combine_mem (rows : List (Bytes × Bytes)) (start : Bytes) (h : a ∈ rows) :
    a.2 <:+: rows.foldl (fun combined a => combine combined a.2) start := by
  induction rows generalizing start with
  | nil => exact nomatch h
  | cons b rest ih =>
    rcases List.mem_cons.mp h with rfl | h
    · exact combine_right.trans (foldl_combine_start rest _)
    · exact ih _ h

namespace Store

theorem mem_aliases : a ∈ s.aliases canonical ↔
    s.drafts.get? a.1 = some a.2 ∧ s.isMember canonical a.1 = true ∧ a.1 ≠ canonical := by
  rw [aliases, List.mem_mergeSort, Table.get?_select, Bool.and_eq_true, bne_iff_ne]

theorem mem_aliases_keys {id : Bytes} : id ∈ (s.aliases canonical).map Prod.fst ↔
    (s.drafts.get? id).isSome ∧ s.isMember canonical id = true ∧ id ≠ canonical := by
  rw [List.mem_map, Option.isSome_iff_exists]
  constructor
  · rintro ⟨a, ha, rfl⟩
    obtain ⟨hrow, hmember, hne⟩ := mem_aliases.mp ha
    exact ⟨⟨_, hrow⟩, hmember, hne⟩
  · rintro ⟨⟨row, hrow⟩, hmember, hne⟩
    exact ⟨(id, row), mem_aliases.mpr ⟨hrow, hmember, hne⟩, rfl⟩

theorem isMember_self {id : Bytes} : s.isMember id id = true := by
  simp [isMember]

theorem draftText_eq {id row : Bytes} (h : s.drafts.get? id = some row) : s.draftText id = row := by
  rw [draftText, h, Option.getD_some]

/-- Every draft of the thread but that of a canonical id with another root is put
together. -/
theorem draftText_gathered {id : Bytes} (hmember : s.isMember canonical id = true)
    (hroot : id = canonical → s.threadKey canonical = canonical) :
    s.draftText id <:+: s.gathered canonical := by
  cases hrow : s.drafts.get? id with
  | none =>
    rw [draftText, hrow]
    exact List.nil_infix
  | some row =>
    rw [draftText_eq hrow]
    by_cases hid : id = canonical
    · have hstart := foldl_combine_start (s.aliases canonical) (s.draft canonical)
      rw [← gathered, draft, hroot hid, ← hid, hrow] at hstart
      exact hid ▸ hstart
    · have halias : (id, row) ∈ s.aliases canonical := mem_aliases.mpr ⟨hrow, hmember, hid⟩
      exact foldl_combine_mem _ _ halias

theorem Settled.of_root {key : Bytes} (h : s.threadKey (s.threadKey key) = s.threadKey key) :
    s.Settled key :=
  Or.inr (draftText_gathered isMember_self fun _ => h)

end Store

end Combining

/-- What a merge of the thread leaves: the records, and one draft for its rows. -/
structure Merged (s : Store) (canonical : Bytes) (s' : Store) : Prop where
  records : s'.records = s.records
  drafts : ∀ id, s'.drafts.get? id =
    if s.aliases canonical = [] then s.drafts.get? id
    else if id ∈ (s.aliases canonical).map Prod.fst then none
    else if id = canonical then some (s.gathered canonical) else s.drafts.get? id

section Merging

variable {s : Store} {fresh : List Bytes} {c c' : Conn Store Bytes}

theorem Merged.keptText {s' : Store} {id canonical : Bytes} (h : Merged s canonical s')
    (hkey : s.threadKey id = canonical) : s.draftText id <:+: s'.keptText id := by
  have hkey' : s'.threadKey id = canonical := (threadKey_congr h.records id).trans hkey
  have hrow := h.drafts id
  have hcanonical := h.drafts canonical
  rw [Store.keptText, Store.draft, hkey']
  by_cases hrows : s.aliases canonical = []
  · rw [if_pos hrows] at hrow
    rw [hrow, Store.draftText]
    cases s.drafts.get? id with
    | none => exact List.nil_infix
    | some row => exact List.infix_rfl
  · rw [if_neg hrows, if_neg fun hmem => (Store.mem_aliases_keys.mp hmem).2.2 rfl, if_pos rfl]
      at hcanonical
    rw [if_neg hrows] at hrow
    split_ifs at hrow with halias hroot
    · obtain ⟨hheld, hmember, hne⟩ := Store.mem_aliases_keys.mp halias
      rw [hrow, Option.getD_none, hcanonical, Option.getD_some]
      exact Store.draftText_gathered hmember fun heq => absurd heq hne
    · rw [hroot, hcanonical, Option.getD_some]
      refine Store.draftText_gathered Store.isMember_self fun _ => ?_
      rw [← hroot, hkey, hroot]
    · rw [hrow, Store.draftText]
      cases s.drafts.get? id with
      | none => exact List.nil_infix
      | some row => exact List.infix_rfl

theorem deleteDrafts_wp (rows : List (Bytes × Bytes)) :
    Sql.wp (Sql.each (fun a => Sql.execute fun s => { s with
      drafts := s.drafts.deleteWhere fun key _ => key = a.1 }) rows : Tx Unit)
      (fun _ s' _ => s'.records = s.records ∧ ∀ id, s'.drafts.get? id =
        if id ∈ rows.map Prod.fst then none else s.drafts.get? id) s fresh := by
  induction rows generalizing s with
  | nil =>
    rw [Sql.wp_each_nil]
    exact ⟨rfl, fun id => (if_neg List.not_mem_nil).symm⟩
  | cons a rest ih =>
    rw [Sql.wp_each_cons, Sql.wp_execute]
    refine Sql.wp_mono ih fun _ s' _ hdeleted => ⟨hdeleted.1, fun id => ?_⟩
    rw [hdeleted.2 id]
    dsimp only
    simp only [List.map_cons, List.mem_cons, Table.get?_deleteWhere]
    by_cases hrest : id ∈ rest.map Prod.fst
    · simp [hrest]
    · by_cases hid : id = a.1
      · cases s.drafts.get? id <;> simp [hid]
      · cases s.drafts.get? id <;> simp [hid, hrest]

theorem mergeDrafts_wp (canonical : Bytes) :
    Sql.wp (mergeDrafts canonical (s.gathered canonical) (s.aliases canonical))
      (fun _ s' _ => Merged s canonical s') s fresh := by
  unfold mergeDrafts
  split_ifs with hrows
  · have hne : s.aliases canonical ≠ [] := List.ne_nil_of_length_pos hrows
    rw [Sql.wp_bind, Sql.wp_execute]
    refine Sql.wp_mono (deleteDrafts_wp _) fun _ s' _ hdeleted => ⟨hdeleted.1, fun id => ?_⟩
    rw [hdeleted.2 id, if_neg hne, Table.get?_upsert]
    split_ifs
    · rfl
    · cases s.drafts.get? canonical <;> rfl
    · rfl
  · have hnil : s.aliases canonical = [] := List.eq_nil_of_length_eq_zero (by omega)
    rw [Sql.wp_pure]
    exact ⟨rfl, fun id => (if_pos hnil).symm⟩

theorem mergeThreadState_wp (key : Bytes) :
    Sql.wp (mergeThreadState key) (fun _ s' _ => Merged s (s.threadKey key) s') s fresh := by
  unfold mergeThreadState
  simp only [Sql.wp_bind, Sql.wp_query]
  refine Sql.wp_mono (mergeDrafts_wp _) fun _ s' _ h => ?_
  rw [Sql.wp_bind, Sql.wp_execute, Sql.wp_execute]
  exact ⟨h.records, h.drafts⟩

/-- Each member's text is part of the merged draft, exactly if the merge
overwrites none. -/
theorem mergeThreadState_kept {key : Bytes} (h : (mergeThreadState key).run c = (.ok (), c')) :
    (∀ id, c.db.isMember (c.db.threadKey key) id = true →
      c.db.draftText id <:+: c'.db.draftText (c.db.threadKey key)) ↔ c.db.Settled key := by
  have hmerged : Merged c.db (c.db.threadKey key) c'.db := Sql.wp_ok (mergeThreadState_wp key) h
  unfold Store.Settled
  generalize c.db.threadKey key = canonical at *
  by_cases hrows : c.db.aliases canonical = []
  · have hsame (id : Bytes) : c'.db.draftText id = c.db.draftText id := by
      rw [Store.draftText, hmerged.drafts, if_pos hrows, Store.draftText]
    refine iff_of_true (fun id hid => ?_) (Or.inl hrows)
    rw [hsame]
    by_cases hne : id = canonical
    · rw [hne]
    · cases hrow : c.db.drafts.get? id with
      | none =>
        rw [Store.draftText, hrow]
        exact List.nil_infix
      | some row =>
        have halias : (id, row) ∈ c.db.aliases canonical := Store.mem_aliases.mpr ⟨hrow, hid, hne⟩
        rw [hrows] at halias
        exact nomatch halias
  · have hgathered : c'.db.draftText canonical = c.db.gathered canonical := by
      have hrow := hmerged.drafts canonical
      rw [if_neg hrows, if_neg fun hmem => (Store.mem_aliases_keys.mp hmem).2.2 rfl, if_pos rfl] at hrow
      exact Store.draftText_eq hrow
    rw [hgathered]
    constructor
    · exact fun hall => Or.inr (hall canonical Store.isMember_self)
    · intro hsettled id hid
      by_cases hne : id = canonical
      · rw [hne]
        exact hsettled.resolve_left hrows
      · exact Store.draftText_gathered hid fun heq => absurd heq hne

end Merging

section Saving

variable {c c' : Conn Store Bytes} {key value : Bytes}

theorem saveDraft_ok {autocommit : Bool} (h : (saveDraft autocommit key value).run c = (.ok (), c')) :
    ∃ c₁ c₂, c₁.db = c.db ∧ c₂.db = c'.db ∧ (storeDraft key value).run c₁ = (.ok (), c₂) := by
  obtain ⟨_, c₁, hvalid, hstore⟩ := Sql.bind_ok h
  obtain ⟨-, rfl⟩ := Sql.require_ok hvalid
  split_ifs at hstore
  · obtain ⟨c₂, c₃, hbegin, -, hbody, hcommit⟩ := Sql.transaction_ok hstore
    exact ⟨c₂, c₃, hbegin, hcommit.symm, hbody⟩
  · exact ⟨c₁, c', rfl, rfl, hstore⟩

/-- The text under the canonical id is kept by a save for an alias, exactly if
what is saved is not empty or there is no such text. -/
theorem storeDraft_kept (hne : c.db.threadKey key ≠ key)
    (h : (storeDraft key value).run c = (.ok (), c')) :
    c.db.draftText (c.db.threadKey key) <:+: c'.db.keptText (c.db.threadKey key) ↔
      value ≠ [] ∨ c.db.draftText (c.db.threadKey key) = [] := by
  obtain ⟨_, c₁, hquery, h⟩ := Sql.bind_ok h
  obtain ⟨rfl, hdb₁⟩ := Sql.query_ok hquery
  generalize hcanonical : c.db.threadKey key = canonical at *
  by_cases hvalue : value = []
  · rw [hvalue, if_neg (by simp)] at h
    have hrow : c'.db.drafts.get? canonical = some [] := by
      rw [Sql.execute_ok h]
      dsimp only
      rw [Table.get?_upsert, if_pos rfl]
      cases c₁.db.drafts.get? canonical <;> rfl
    rw [Store.keptText, hrow, Option.getD_some, List.infix_nil]
    simp [hvalue]
  · rw [if_pos (by simp [hne, List.length_pos_iff.mpr hvalue])] at h
    obtain ⟨_, c₂, hsave, h⟩ := Sql.bind_ok h
    have hdb₂ := Sql.execute_ok hsave
    rw [hdb₁] at hdb₂
    have hrow₂ : c₂.db.drafts.get? canonical = c.db.drafts.get? canonical := by
      rw [hdb₂]
      dsimp only
      rw [Table.get?_upsert, if_neg hne]
    have hmerged : Merged c₂.db (c₂.db.threadKey canonical) c'.db :=
      Sql.wp_ok (mergeThreadState_wp canonical) h
    refine iff_of_true ?_ (Or.inl hvalue)
    rw [Store.draftText, ← hrow₂, ← Store.draftText]
    exact hmerged.keptText rfl

theorem saveDraft_kept {autocommit : Bool} (hne : c.db.threadKey key ≠ key)
    (h : (saveDraft autocommit key value).run c = (.ok (), c')) :
    c.db.draftText (c.db.threadKey key) <:+: c'.db.keptText (c.db.threadKey key) ↔
      value ≠ [] ∨ c.db.draftText (c.db.threadKey key) = [] := by
  obtain ⟨c₁, c₂, hdb₁, hdb₂, hstore⟩ := saveDraft_ok h
  rw [← hdb₁] at hne ⊢
  rw [← hdb₂]
  exact storeDraft_kept hne hstore

def threads (s : Store) : Table (Kind × Bytes) RecordRow × Table Bytes Bytes := (s.records, s.drafts)

theorem transfer_keeps {input : SendInput} : Sql.Keeps threads (transfer key input) :=
  .bind .query fun _ => .bind .require fun _ => .bind .query fun _ => .execute fun _ => rfl

theorem insertOutbox_keeps {sentAt : Int} {input : SendInput} :
    Sql.Keeps threads (insertOutbox sentAt key input) := by
  refine .execute? fun s s' h => ?_
  obtain ⟨outbox, -, rfl⟩ := Option.map_eq_some_iff.mp h
  rfl

theorem persistSend_ok {sentAt : Int} {input : SendInput}
    (h : (persistSend sentAt key input).run c = (.ok (), c')) :
    ∃ c₁ c₂, threads c₁.db = threads c.db ∧ c₂.db = c'.db ∧
      (saveDraft false key []).run c₁ = (.ok (), c₂) := by
  obtain ⟨_, c₁, hvalid, h⟩ := Sql.bind_ok h
  obtain ⟨_, c₂, hepoch, h⟩ := Sql.bind_ok h
  obtain ⟨_, c₃, hcurrent, h⟩ := Sql.bind_ok h
  obtain ⟨c₄, c₅, hbegin, -, hbody, hcommit⟩ := Sql.transaction_ok h
  obtain ⟨_, c₆, htransfer, hbody⟩ := Sql.bind_ok hbody
  obtain ⟨_, c₇, hinsert, hsave⟩ := Sql.bind_ok hbody
  have hdb₄ : c₄.db = c.db := by
    rw [hbegin, (Sql.require_ok hcurrent).2, (Sql.query_ok hepoch).2, (Sql.lift_ok hvalid).2]
  refine ⟨c₇, c₅, ?_, hcommit.symm, hsave⟩
  rw [insertOutbox_keeps.run hinsert, transfer_keeps.run htransfer, hdb₄]

theorem draftText_congr {s s' : Store} (h : threads s' = threads s) (id : Bytes) :
    s'.draftText id = s.draftText id := by
  rw [Store.draftText, (Prod.mk.inj h).2, Store.draftText]

theorem persistSend_kept {sentAt : Int} {input : SendInput} (hne : c.db.threadKey key ≠ key)
    (h : (persistSend sentAt key input).run c = (.ok (), c')) :
    c.db.draftText (c.db.threadKey key) <:+: c'.db.keptText (c.db.threadKey key) ↔
      c.db.draftText (c.db.threadKey key) = [] := by
  obtain ⟨c₁, c₂, hthreads, hdb₂, hsave⟩ := persistSend_ok h
  have hkey : c₁.db.threadKey key = c.db.threadKey key :=
    threadKey_congr (Prod.mk.inj hthreads).1 key
  have hkept := saveDraft_kept (hkey ▸ hne) hsave
  rw [hkey, draftText_congr hthreads, hdb₂] at hkept
  simpa using hkept

end Saving

section Held

variable {s s' : Store} {text : Bytes} {c : Conn Store Bytes} {key : Bytes}

theorem Store.HoldsBeside.holds {excluded : List Bytes} (h : s.HoldsBeside excluded text) :
    s.Holds text := by
  obtain ⟨id, row, -, hrow, htext⟩ := h
  exact ⟨id, row, List.not_mem_nil, hrow, htext⟩

theorem Store.HoldsBeside.congr {excluded : List Bytes} (h : s.HoldsBeside excluded text)
    (hdrafts : s'.drafts = s.drafts) : s'.HoldsBeside excluded text := by
  obtain ⟨id, row, hid, hrow, htext⟩ := h
  exact ⟨id, row, hid, hdrafts ▸ hrow, htext⟩

theorem deleteDrafts_stays {excluded : List Bytes} {rows : List (Bytes × Bytes)}
    (hrows : ∀ a ∈ rows, a.1 ∈ excluded) :
    Sql.Stays (Store.HoldsBeside excluded text) (Sql.each (fun a => Sql.execute fun s => { s with
      drafts := s.drafts.deleteWhere fun key _ => key = a.1 }) rows : Tx Unit) := by
  refine .each fun a ha c hc => ?_
  rcases hrun : (Sql.execute _ : Tx Unit).run c with ⟨e | _, c'⟩
  · rw [Sql.Aborts.execute c e c' hrun]
    exact hc
  · obtain ⟨id, row, hid, hrow, htext⟩ := hc
    refine ⟨id, row, hid, ?_, htext⟩
    rw [Sql.execute_ok hrun]
    dsimp only
    have hne : id ≠ a.1 := fun h => hid (h ▸ hrows a ha)
    rw [Table.get?_deleteWhere, hrow]
    simp [hne]

variable (s') in
theorem gathered_holds {canonical : Bytes}
    (hsettled : s.aliases canonical = [] ∨ s.draftText canonical <:+: s.gathered canonical)
    (hrows : s.aliases canonical ≠ []) (h : s.Holds text)
    (hdrafts : s'.drafts = s.drafts.upsert canonical (s.gathered canonical) fun _ => s.gathered canonical) :
    s'.HoldsBeside ((s.aliases canonical).map Prod.fst) text := by
  obtain ⟨id, row, -, hrow, htext⟩ := h
  have hcanonical : canonical ∉ (s.aliases canonical).map Prod.fst :=
    fun hmem => (Store.mem_aliases_keys.mp hmem).2.2 rfl
  have hmerged : s'.drafts.get? canonical = some (s.gathered canonical) := by
    rw [hdrafts, Table.get?_upsert, if_pos rfl]
    cases s.drafts.get? canonical <;> rfl
  have hjoined (hinside : s.draftText id <:+: s.gathered canonical) :
      s'.HoldsBeside ((s.aliases canonical).map Prod.fst) text :=
    ⟨canonical, _, hcanonical, hmerged, htext.trans (Store.draftText_eq hrow ▸ hinside)⟩
  by_cases halias : id ∈ (s.aliases canonical).map Prod.fst
  · obtain ⟨-, hmember, hne⟩ := Store.mem_aliases_keys.mp halias
    exact hjoined (Store.draftText_gathered hmember fun heq => absurd heq hne)
  · by_cases hid : id = canonical
    · exact hjoined (hid ▸ hsettled.resolve_left hrows)
    · refine ⟨id, row, halias, ?_, htext⟩
      rw [hdrafts, Table.get?_upsert, if_neg hid, hrow]

/-- The merged draft is written before the rows that it holds are deleted. -/
theorem mergeDrafts_holds {canonical : Bytes}
    (hsettled : s.aliases canonical = [] ∨ s.draftText canonical <:+: s.gathered canonical)
    (hdrafts : c.db.drafts = s.drafts) (h : s.Holds text) :
    ((mergeDrafts canonical (s.gathered canonical) (s.aliases canonical)).run c).2.db.Holds text := by
  unfold mergeDrafts
  split_ifs with hrows
  · have hne : s.aliases canonical ≠ [] := List.ne_nil_of_length_pos hrows
    have hjoined := gathered_holds { c.db with
      drafts := c.db.drafts.upsert canonical (s.gathered canonical) fun _ => s.gathered canonical }
      hsettled hne h (by rw [hdrafts])
    refine Sql.bind_after
      (Sql.execute_after (h.congr hdrafts) hjoined.holds) fun _ c₁ hrun _ => ?_
    rw [← Sql.execute_ok hrun] at hjoined
    exact (deleteDrafts_stays (fun a ha => List.mem_map_of_mem ha) c₁ hjoined).holds
  · exact h.congr hdrafts

/-- No merge of a settled thread loses a text, also if it stops half-way. -/
theorem mergeThreadState_holds (hsettled : c.db.Settled key) (h : c.db.Holds text) :
    ((mergeThreadState key).run c).2.db.Holds text := by
  unfold mergeThreadState
  refine Sql.query_after h fun c₁ hdb₁ => ?_
  refine Sql.query_after (hdb₁ ▸ h) fun c₂ hdb₂ => ?_
  refine Sql.query_after (hdb₂ ▸ hdb₁ ▸ h) fun c₃ hdb₃ => ?_
  have hdb : c₃.db = c.db := hdb₃.trans (hdb₂.trans hdb₁)
  rw [hdb₂, hdb₁]
  refine Sql.bind_after (mergeDrafts_holds hsettled (congrArg Store.drafts hdb) h) fun _ c₄ _ h₄ => ?_
  exact Sql.bind_after (Sql.execute_after h₄ (h₄.congr rfl)) fun _ c₅ _ h₅ =>
    Sql.execute_after h₅ (h₅.congr rfl)

theorem upsert_holds (key value : Bytes) (h : s.Holds text)
    (hrow : text <:+: s.draftText key → text <:+: value)
    (hdrafts : s'.drafts = s.drafts.upsert key value fun _ => value) : s'.Holds text := by
  obtain ⟨id, row, -, hid, hinside⟩ := h
  by_cases hkey : id = key
  · refine ⟨key, value, List.not_mem_nil, ?_, hrow ?_⟩
    · rw [hdrafts, Table.get?_upsert, if_pos rfl]
      cases s.drafts.get? key <;> rfl
    · rw [← hkey, Store.draftText_eq hid]
      exact hinside
  · refine ⟨id, row, List.not_mem_nil, ?_, hinside⟩
    rw [hdrafts, Table.get?_upsert, if_neg hkey, hid]

end Held

inductive DraftWrite where
  | save (key value : Bytes)
  | send (sentAt : Int) (key : Bytes) (input : SendInput)
  | receive (autocommit : Bool) (record : Incoming)

namespace DraftWrite

def exec : DraftWrite → Tx Unit
  | .save key value => saveDraft true key value
  | .send sentAt key input => persistSend sentAt key input
  | .receive autocommit record => do
    let _ ← writeRecord autocommit record
    return ()

/-- A save made for a canonical id itself, whose row holds the text. -/
def Clears (s : Store) (text : Bytes) : DraftWrite → Prop
  | .save key _ => s.threadKey key = key ∧ text <:+: s.draftText key
  | .send _ key _ => s.threadKey key = key ∧ text <:+: s.draftText key
  | .receive _ _ => False

/-- A save for an alias finds nothing to overwrite, and a merge is of a settled
thread. -/
def Careful (s : Store) : DraftWrite → Prop
  | .save key value => s.threadKey key = key ∨
      if value = [] then s.draftText (s.threadKey key) = []
      else s.draftText key <:+: value ∧
        Store.Settled { s with drafts := s.drafts.upsert key value fun _ => value } (s.threadKey key)
  | .send _ key _ => s.threadKey key = key ∨ s.draftText (s.threadKey key) = []
  | .receive _ record => s.moves record = true →
      Store.Settled { s with records := s.records.upsert record.key (.of record) fun _ => .of record }
        record.id

end DraftWrite

section Writes

variable {c c' : Conn Store Bytes} {text key value : Bytes}

/-- A save for the canonical id replaces its row; a careful one for an alias
loses no text. -/
theorem storeDraft_holds (hcareful : (DraftWrite.save key value).Careful c.db)
    (h : c.db.Holds text) :
    ((storeDraft key value).run c).2.db.Holds text ∨ (DraftWrite.save key value).Clears c.db text := by
  by_cases hkey : c.db.threadKey key = key
  · by_cases hinside : text <:+: c.db.draftText key
    · exact Or.inr ⟨hkey, hinside⟩
    · refine Or.inl (Sql.query_after h fun c₁ hdb₁ => ?_)
      rw [hkey, if_neg (by simp)]
      refine Sql.execute_after (hdb₁ ▸ h) (upsert_holds key value h (fun hin => absurd hin hinside) ?_)
      rw [hdb₁]
  · have hcareful := hcareful.resolve_left hkey
    refine Or.inl (Sql.query_after h fun c₁ hdb₁ => ?_)
    by_cases hvalue : value = []
    · rw [if_pos hvalue] at hcareful
      rw [if_neg (by simp [hvalue])]
      refine Sql.execute_after (hdb₁ ▸ h) (upsert_holds (c.db.threadKey key) value h (fun hin => ?_) ?_)
      · rw [hcareful] at hin
        rw [List.infix_nil.mp hin]
        exact List.nil_infix
      · rw [hdb₁]
    · rw [if_neg hvalue] at hcareful
      rw [if_pos (by simp [hkey, List.length_pos_iff.mpr hvalue])]
      have hsaved : Store.Holds text { c₁.db with
          drafts := c₁.db.drafts.upsert key value fun _ => value } := by
        refine upsert_holds key value h (fun hin => hin.trans hcareful.1) ?_
        rw [hdb₁]
      refine Sql.bind_after (Sql.execute_after (hdb₁ ▸ h) hsaved) fun _ c₂ hrun h₂ => ?_
      refine mergeThreadState_holds ?_ h₂
      rw [Sql.execute_ok hrun, hdb₁]
      exact hcareful.2

theorem followRequest_threads {record : Incoming} : Sql.Keeps threads (followRequest record) :=
  followRequest_keeps fun _ _ _ => rfl

theorem forgetEnrichment_threads {record : Incoming} {upgrade : Bool} :
    Sql.Keeps threads (forgetEnrichment record upgrade) := forgetEnrichment_keeps fun _ _ _ => rfl

theorem saveDraft_holds {autocommit : Bool} (hcareful : (DraftWrite.save key value).Careful c.db)
    (h : c.db.Holds text) (hrun : (saveDraft autocommit key value).run c = (.ok (), c')) :
    c'.db.Holds text ∨ (DraftWrite.save key value).Clears c.db text := by
  obtain ⟨c₁, c₂, hdb₁, hdb₂, hstore⟩ := saveDraft_ok hrun
  have hkept := storeDraft_holds (hdb₁ ▸ hcareful) (hdb₁ ▸ h)
  rw [hstore, hdb₂, hdb₁] at hkept
  exact hkept

theorem Store.Settled.congr {s s' : Store} (h : s.Settled key) (hthreads : threads s' = threads s) :
    s'.Settled key := by
  obtain ⟨hrecords, hdrafts⟩ := Prod.mk.inj hthreads
  have hkey : s'.threadKey = s.threadKey := funext (threadKey_congr hrecords)
  have hmember : s'.isMember = s.isMember := by
    funext id other
    rw [Store.isMember, Store.conversation?, Store.conversation?, hrecords]
    rfl
  have haliases : s'.aliases = s.aliases := by
    funext id
    rw [Store.aliases, hdrafts, hmember, Store.aliases]
  have htext : s'.draftText = s.draftText := funext (draftText_congr hthreads)
  have hgathered : s'.gathered = s.gathered := by
    funext id
    simp only [Store.gathered, haliases, Store.draft, hkey, hdrafts]
  rw [Store.Settled, hkey, haliases, htext, hgathered]
  exact h

theorem writeStored_holds {record : Incoming}
    (hsettled : c.db.moves record = true → Store.Settled { c.db with
      records := c.db.records.upsert record.key (.of record) fun _ => .of record } record.id)
    (h : c.db.Holds text) : ((writeStored record).run c).2.db.Holds text := by
  refine Sql.query_after h fun c₁ hdb₁ => ?_
  have h₁ : c₁.db.Holds text := hdb₁ ▸ h
  split
  · exact Sql.bind_after (h₁.congr (congrArg Prod.snd (followRequest_threads c₁))) fun _ c₂ _ h₂ => h₂
  · next hnew =>
    refine Sql.bind_after (Sql.execute_after h₁ (h₁.congr rfl)) fun _ c₂ hinsert h₂ => ?_
    refine Sql.bind_after (h₂.congr (congrArg Prod.snd (forgetEnrichment_threads c₂))) fun _ c₃ hforget h₃ => ?_
    refine Sql.bind_after (h₃.congr (congrArg Prod.snd (followRequest_threads c₃))) fun _ c₄ hfollow h₄ => ?_
    refine Sql.bind_after ?_ fun _ c₅ _ h₅ => h₅
    have hthreads : threads c₄.db = threads c₂.db :=
      (followRequest_threads.run hfollow).trans (forgetEnrichment_threads.run hforget)
    unfold regroupMoved
    split_ifs with hmoved
    · have hmoves : c.db.moves record = true := by
        rw [Bool.and_eq_true, Option.all_eq_true] at hmoved
        rw [Store.moves, Bool.and_eq_true, Option.all_eq_true]
        refine ⟨hmoved.1, fun old hold => ?_⟩
        rw [hmoved.2 old hold, Bool.and_true, Bool.not_eq_true', Bool.eq_false_iff]
        exact Option.filter_eq_none_iff.mp hnew old hold
      refine Sql.bind_after (Sql.execute_after h₄ (h₄.congr rfl)) fun _ c₅ hpages h₅ => ?_
      refine mergeThreadState_holds ((hsettled hmoves).congr ?_) h₅
      rw [Sql.execute_ok hpages]
      refine hthreads.trans ?_
      rw [Sql.execute_ok hinsert, hdb₁]
    · exact h₄

theorem writeRecord_holds {autocommit : Bool} {record : Incoming}
    (hcareful : (DraftWrite.receive autocommit record).Careful c.db) (h : c.db.Holds text) :
    ((writeRecord autocommit record).run c).2.db.Holds text := by
  by_cases hkind : record.kind = .identity
  · cases record with
    | identity v =>
      have hkeeps : Sql.Keeps Store.drafts (writeIdentity v) := by
        refine .bind .require fun _ => .bind .require fun _ => .statement fun s changed s' hs => ?_
        rw [upsertIdentity_only hs]
      exact h.congr (hkeeps c)
    | _ => exact nomatch hkind
  · rw [writeRecord_eq hkind]
    have hread : ((checkRecord record).run c).2.db = c.db := checkRecord_reads c
    refine Sql.bind_after (hread ▸ h) fun current c₁ hcheck h₁ => ?_
    have hdb₁ : c₁.db = c.db := checkRecord_reads.ok hcheck
    split_ifs
    · exact h₁
    · refine Sql.require_after h₁ fun _ => Sql.require_after h₁ fun _ =>
        Sql.transaction_after h₁ fun c₂ stored c₃ hdb₂ hrun => ?_
      have hstored := writeStored_holds (hdb₂ ▸ hdb₁ ▸ hcareful) (hdb₂ ▸ h₁)
      rw [hrun] at hstored
      exact hstored
    · exact Sql.require_after h₁ fun _ => Sql.require_after h₁ fun _ =>
        writeStored_holds (hdb₁ ▸ hcareful) h₁

theorem persistSend_aborts {sentAt : Int} {input : SendInput} :
    Sql.Aborts (persistSend sentAt key input) :=
  .bind .lift fun _ => .bind .query fun _ => .bind .require fun _ => .transaction

/-- A careful write keeps every text, unless it is a save for the canonical id whose
row holds it. -/
theorem exec_holds {w : DraftWrite} (hcareful : w.Careful c.db) (h : c.db.Holds text) :
    (w.exec.run c).2.db.Holds text ∨ w.Clears c.db text := by
  cases w with
  | save key value =>
    by_cases hkept : (DraftWrite.save key value).Clears c.db text
    · exact Or.inr hkept
    · refine Or.inl (Sql.require_after h fun _ => Sql.transaction_after h fun c₁ _ c₂ hdb₁ hrun => ?_)
      have hstored := storeDraft_holds (hdb₁ ▸ hcareful) (hdb₁ ▸ h)
      rw [hrun, hdb₁] at hstored
      exact hstored.resolve_right hkept
  | send sentAt key input =>
    by_cases hkept : (DraftWrite.send sentAt key input).Clears c.db text
    · exact Or.inr hkept
    · refine Or.inl ?_
      change Store.Holds text ((persistSend sentAt key input).run c).2.db
      rcases hrun : (persistSend sentAt key input).run c with ⟨e | _, c'⟩
      · exact persistSend_aborts c e c' hrun ▸ h
      · obtain ⟨c₁, c₂, hthreads, hdb₂, hsave⟩ := persistSend_ok hrun
        have hkey : c₁.db.threadKey key = c.db.threadKey key :=
          threadKey_congr (Prod.mk.inj hthreads).1 key
        have hcareful₁ : (DraftWrite.save key []).Careful c₁.db := by
          refine hcareful.imp hkey.trans fun hempty => ?_
          rw [if_pos rfl, hkey, draftText_congr hthreads]
          exact hempty
        dsimp only
        rw [← hdb₂]
        refine (saveDraft_holds hcareful₁ (h.congr (Prod.mk.inj hthreads).2) hsave).resolve_right ?_
        rintro ⟨hroot, hinside⟩
        rw [draftText_congr hthreads] at hinside
        exact hkept ⟨hkey ▸ hroot, hinside⟩
  | receive autocommit record =>
    exact Or.inl (Sql.bind_after (writeRecord_holds hcareful h) fun _ c₁ _ h₁ => h₁)

end Writes

/-- A run of the client: writes of its drafts, each with its outcome and the store
it found, and between them writes that leave the drafts as they are. -/
inductive DraftRun : Store → List (Store × DraftWrite) → Store → Prop where
  | done (s : Store) : DraftRun s [] s
  | write (w : DraftWrite) (c : Conn Store Bytes) {writes : List (Store × DraftWrite)} {s : Store}
      (rest : DraftRun (w.exec.run c).2.db writes s) : DraftRun c.db ((c.db, w) :: writes) s
  | other {s₀ s₁ s : Store} {writes : List (Store × DraftWrite)} (same : s₁.drafts = s₀.drafts)
      (rest : DraftRun s₁ writes s) : DraftRun s₀ writes s

/-- In a run of careful writes a text is lost only to a save for the canonical id
itself. -/
theorem DraftRun.holds {s s' : Store} {writes : List (Store × DraftWrite)} {text : Bytes}
    (hrun : DraftRun s writes s') (hcareful : ∀ step ∈ writes, step.2.Careful step.1)
    (h : s.Holds text) : s'.Holds text ∨ ∃ step ∈ writes, step.2.Clears step.1 text := by
  induction hrun with
  | done s => exact Or.inl h
  | write w c rest ih =>
    rcases exec_holds (hcareful _ List.mem_cons_self) h with hkept | hcleared
    · refine (ih (fun step hstep => hcareful step (List.mem_cons_of_mem _ hstep)) hkept).imp_right ?_
      rintro ⟨step, hstep, hcleared⟩
      exact ⟨step, List.mem_cons_of_mem _ hstep, hcleared⟩
    · exact Or.inr ⟨_, List.mem_cons_self, hcleared⟩
  | other same rest ih => exact ih hcareful (h.congr same)

/-- A save for an alias keeps the text under the canonical id exactly if it saves
some text or there is none, a send exactly if there is none, and a merge keeps
every member's text exactly if it overwrites none. Over a run of writes that do,
a text is lost only to a save for the canonical id. -/
theorem drafts_survive (autocommit : Bool) (key value : Bytes) (sentAt : Int) (input : SendInput)
    (c c' : Conn Store Bytes) :
    (c.db.threadKey key ≠ key → (saveDraft autocommit key value).run c = (.ok (), c') →
      (c.db.draftText (c.db.threadKey key) <:+: c'.db.keptText (c.db.threadKey key) ↔
        value ≠ [] ∨ c.db.draftText (c.db.threadKey key) = [])) ∧
    (c.db.threadKey key ≠ key → (persistSend sentAt key input).run c = (.ok (), c') →
      (c.db.draftText (c.db.threadKey key) <:+: c'.db.keptText (c.db.threadKey key) ↔
        c.db.draftText (c.db.threadKey key) = [])) ∧
    ((mergeThreadState key).run c = (.ok (), c') →
      ((∀ id, c.db.isMember (c.db.threadKey key) id = true →
        c.db.draftText id <:+: c'.db.draftText (c.db.threadKey key)) ↔ c.db.Settled key)) ∧
    ∀ (s s' : Store) (writes : List (Store × DraftWrite)) (text : Bytes), DraftRun s writes s' →
      (∀ step ∈ writes, step.2.Careful step.1) → s.Holds text →
        s'.Holds text ∨ ∃ step ∈ writes, step.2.Clears step.1 text :=
  ⟨fun hne h => saveDraft_kept hne h, fun hne h => persistSend_kept hne h,
    fun h => mergeThreadState_kept h, fun _ _ _ _ hrun hcareful h => hrun.holds hcareful h⟩

namespace Sample

def rootId : Bytes := text "UAAAAAAAAAAAAAAAAAAAAA"
def aliasId : Bytes := text "VAAAAAAAAAAAAAAAAAAAAA"

def member (id : Bytes) : RecordRow := .of (.conversation {
  value := { id := id, service := text "imessage", threadId := some rootId, isSelf := true }
  raw := [] })

def drafted : Store where
  epoch := rootId
  records := (Table.single (.conversation, rootId) (member rootId)).upsert (.conversation, aliasId)
    (member aliasId) id
  drafts := .single rootId (text "Keep")

def drafting : Conn Store Bytes := { db := drafted }

def mailSend : SendInput where
  requestId := aliasId
  serverEpoch := rootId
  target := { conversationId := some aliasId }
  text := text "Mail"

end Sample

/-- An empty edit queued under the alias discards the draft of the thread. -/
theorem drafts_survive_cleared :
    Sample.drafted.threadKey Sample.aliasId = Sample.rootId ∧ Sample.rootId ≠ Sample.aliasId ∧
      Sample.drafted.draftText Sample.rootId = text "Keep" ∧
      ((saveDraft true Sample.aliasId []).run Sample.drafting).1 = .ok () ∧
      ((saveDraft true Sample.aliasId []).run Sample.drafting).2.db.drafts.rows =
        [(Sample.rootId, [])] := by
  decide +kernel

theorem drafts_survive_edited :
    text "Keep" <:+: ((saveDraft true Sample.aliasId (text "Mail")).run Sample.drafting).2.db.keptText
        Sample.rootId ∧
      ¬text "Keep" <:+: ((persistSend 0 Sample.aliasId Sample.mailSend).run Sample.drafting).2.db.keptText
        Sample.rootId ∧
      text "Keep" <:+: ((mergeThreadState Sample.aliasId).run Sample.drafting).2.db.draftText
        Sample.rootId ∧
      Store.Holds (text "Keep")
        ((saveDraft true Sample.aliasId (text "Mail")).run Sample.drafting).2.db := by
  have hkey : Sample.drafting.db.threadKey Sample.aliasId = Sample.rootId := by decide +kernel
  have hne : Sample.drafting.db.threadKey Sample.aliasId ≠ Sample.aliasId := by decide +kernel
  have htext : Sample.drafting.db.draftText Sample.rootId = text "Keep" := by decide +kernel
  have hall := drafts_survive true Sample.aliasId (text "Mail") 0 Sample.mailSend Sample.drafting
  have hsave := (hall _).1 hne (Prod.ext (by decide +kernel) rfl)
  have hsend := (hall _).2.1 hne (Prod.ext (by decide +kernel) rfl)
  have hmerge := (hall _).2.2.1 (Prod.ext (by decide +kernel) rfl)
  rw [hkey, htext] at hsave hsend
  rw [hkey] at hmerge
  refine ⟨hsave.mpr (Or.inl (by decide)), fun hkept => absurd (hsend.mp hkept) (by decide), ?_, ?_⟩
  · exact htext ▸ hmerge.mpr (.of_root (by decide +kernel)) Sample.rootId (by decide +kernel)
  · have hcareful : (DraftWrite.save Sample.aliasId (text "Mail")).Careful Sample.drafting.db := by
      refine Or.inr ?_
      rw [if_neg (by decide)]
      exact ⟨by decide +kernel, .of_root (by decide +kernel)⟩
    refine ((hall Sample.drafting).2.2.2 _ _ _ (text "Keep") (.write (.save Sample.aliasId (text "Mail")) Sample.drafting
      (.done _)) ?_ ⟨Sample.rootId, text "Keep", List.not_mem_nil, by decide +kernel,
        List.infix_rfl⟩).resolve_right ?_
    · intro step hstep
      rw [List.mem_singleton.mp hstep]
      exact hcareful
    · rintro ⟨step, hstep, hclears⟩
      rw [List.mem_singleton.mp hstep] at hclears
      exact hne hclears.1

end Zimbr.Client
