import Zimbr.Client.Chats
import Zimbr.Client.Filed
import Zimbr.Client.Unread

set_option autoImplicit false

/-!
# Entries and threads

The list groups conversations by their root if it is held; the queries follow
the stored chat column. They agree where every root is held and is its own.
-/
namespace Zimbr.Client
open Library

namespace Store

def thread? (s : Store) (id : Bytes) : Option Bytes :=
  ((s.conversation? id).bind fun r => r.record.conversation?).bind fun v =>
    if v.isSelf then v.threadId else none

def entryKey (s : Store) (id : Bytes) : Bytes :=
  ((s.thread? id).filter fun thread => (s.conversation? thread).isSome).getD id

/-- The threads of the conversations are as the queries expect them. -/
structure Threaded (s : Store) : Prop where
  /-- A held root has a valid identifier and is its own root. -/
  rooted : ∀ id thread, s.thread? id = some thread → (s.conversation? thread).isSome →
    (validId thread ∨ thread = id) ∧ (s.conversation? thread).map (·.chat) = some thread
  /-- A missing root has one member, and no local state. -/
  missing : ∀ id thread, s.thread? id = some thread → s.conversation? thread = none →
    validId thread → thread ∉ s.localKeys ∧
      ∀ id' r, s.conversation? id' = some r → r.chat = thread → id' = id
  /-- No message is unread in a chat that has only local state. -/
  settled : ∀ key ∈ s.localKeys, count s key = 0

/-- The list of chats, the queries and the unread counts tell the same threads. -/
structure Agrees (s : Store) (hidden : Bytes → Bool) : Prop where
  distinct : ((s.entries hidden).map Entry.id).Nodup
  once : ∀ id, (s.conversation? id).isSome → ∃ entry ∈ s.entries hidden,
    entry.merged.count id = 1 ∧ ∀ other ∈ s.entries hidden, id ∈ other.merged → other = entry
  merged : ∀ entry ∈ s.entries hidden, ∀ id ∈ entry.merged, (s.conversation? id).isSome
  members : ∀ entry ∈ s.entries hidden, ∀ id, (s.conversation? id).isSome →
    (id ∈ entry.merged ↔ s.isMember entry.id id = true) ∧
      (id ∈ entry.merged ↔ s.threadKey id = entry.id)
  unread : ∀ entry ∈ s.entries hidden, entry.value.unread = s.cleared entry.id

end Store

section Rows

variable {s : Store} {hidden : Bytes → Bool} {id thread : Bytes}

theorem Filed.chat (h : Filed s) {r : RecordRow} (hr : s.conversation? id = some r) :
    r.chat = ((s.thread? id).filter validId).getD id := by
  obtain ⟨hkey, hof⟩ := h _ r hr
  obtain ⟨hkind, hid⟩ := Prod.mk.inj hkey
  rw [Store.thread?, hr, hof]
  cases hrecord : r.record with
  | conversation v =>
    have hid : v.value.id = id := by
      rw [hrecord] at hid
      exact hid
    simp only [RecordRow.of, Incoming.chat, Incoming.conversation?, Option.bind_some]
    cases v.value.threadId with
    | none =>
      split_ifs <;> exact hid
    | some thread =>
      dsimp only
      cases hself : v.value.isSelf <;> cases hvalid : validId thread <;>
        simp [Option.filter, hvalid, hid]
  | _ =>
    rw [hrecord] at hkind
    exact nomatch hkind

theorem Filed.conversation (h : Filed s) {r : RecordRow} (hr : s.conversation? id = some r) :
    ∃ v, r.record.conversation? = some v ∧ v.id = id := by
  obtain ⟨hkey, -⟩ := h _ r hr
  obtain ⟨hkind, hid⟩ := Prod.mk.inj hkey
  cases hrecord : r.record with
  | conversation v =>
    rw [hrecord] at hid
    exact ⟨v.value, rfl, hid⟩
  | _ =>
    rw [hrecord] at hkind
    exact nomatch hkind

theorem Filed.mem_chats (h : Filed s) {chat : Chat} : chat ∈ s.chats hidden ↔
    ∃ id r v, s.conversation? id = some r ∧ r.record.conversation? = some v ∧ v.id = id ∧
      chat = {
        value := v
        preview := s.previewText id v
        unread := count s id
        hidden := hidden id } := by
  unfold Store.chats
  rw [List.mem_filterMap]
  constructor
  · rintro ⟨⟨⟨kind, id⟩, r⟩, hmem, hchat⟩
    rw [List.mem_mergeSort, Table.get?_select, decide_eq_true_eq] at hmem
    obtain ⟨hr, hkind⟩ := hmem
    have hkind : kind = .conversation := hkind
    have hr : s.conversation? id = some r := by
      rw [← hr, hkind]
      rfl
    obtain ⟨v, hv, hid⟩ := h.conversation hr
    have hchat := hchat
    rw [hv, Option.map_some, Option.some.injEq] at hchat
    exact ⟨id, r, v, hr, hv, hid, hchat.symm⟩
  · rintro ⟨id, r, v, hr, hv, hid, rfl⟩
    refine ⟨((.conversation, id), r), ?_, ?_⟩
    · rw [List.mem_mergeSort, Table.get?_select]
      exact ⟨hr, rfl⟩
    · rw [hv]
      rfl

theorem Filed.chats_nodup (h : Filed s) : ((s.chats hidden).map fun chat => chat.value.id).Nodup := by
  let rows := (s.records.select fun key _ => decide (key.1 = .conversation)).mergeSort newer
  have hmem {r : (Kind × Bytes) × RecordRow} (hr : r ∈ rows) :
      r.1.1 = .conversation ∧ s.records.get? r.1 = some r.2 := by
    rw [List.mem_mergeSort, Table.get?_select, decide_eq_true_eq] at hr
    exact ⟨hr.2, hr.1⟩
  have hnodup : rows.Nodup := (List.mergeSort_perm _ newer).nodup_iff.mpr
    (s.records.select_keys_nodup _).of_map
  have hids : (s.chats hidden).map (fun chat => chat.value.id) = rows.map fun r => r.1.2 := by
    unfold Store.chats
    rw [List.map_filterMap, ← List.filterMap_eq_map]
    refine List.filterMap_congr fun r hr => ?_
    obtain ⟨hkind, hget⟩ := hmem hr
    have hget : s.conversation? r.1.2 = some r.2 := by
      rw [Store.conversation?, ← hkind]
      exact hget
    obtain ⟨v, hv, hid⟩ := h.conversation hget
    rw [hv, Option.map_some, Option.map_some, hid]
    rfl
  rw [hids]
  refine hnodup.map_on fun r hr r' hr' hsame => ?_
  obtain ⟨hkind, hget⟩ := hmem hr
  obtain ⟨hkind', hget'⟩ := hmem hr'
  have hkey : r.1 = r'.1 := Prod.ext (hkind.trans hkind'.symm) hsame
  rw [← hkey, hget] at hget'
  exact Prod.ext hkey (Option.some.inj hget')

theorem Filed.listed (h : Filed s) (hheld : (s.conversation? id).isSome) :
    ∃ chat ∈ s.chats hidden, chat.value.id = id := by
  obtain ⟨r, hr⟩ := Option.isSome_iff_exists.mp hheld
  obtain ⟨v, hv, hid⟩ := h.conversation hr
  exact ⟨_, h.mem_chats.mpr ⟨id, r, v, hr, hv, hid, rfl⟩, hid⟩

theorem Filed.held (h : Filed s) {chat : Chat} (hchat : chat ∈ s.chats hidden) :
    (s.conversation? chat.value.id).isSome ∧ chat.unread = count s chat.value.id := by
  obtain ⟨id, r, v, hr, -, hid, rfl⟩ := h.mem_chats.mp hchat
  dsimp only
  rw [hid, hr]
  exact ⟨rfl, rfl⟩

theorem Filed.byId_eq (h : Filed s) {chat : Chat} :
    byId (s.chats hidden) id = some chat ↔ chat ∈ s.chats hidden ∧ chat.value.id = id := by
  have hone {a b : Chat} (ha : a ∈ s.chats hidden) (hb : b ∈ s.chats hidden)
      (hsame : a.value.id = b.value.id) : a = b := List.inj_on_of_nodup_map h.chats_nodup ha hb hsame
  unfold byId
  constructor
  · intro hlast
    have hmem := List.mem_of_getLast? hlast
    rw [List.mem_filter, decide_eq_true_eq] at hmem
    exact hmem
  · rintro ⟨hmem, hid⟩
    have hfound : chat ∈ (s.chats hidden).filter fun chat => decide (chat.value.id = id) :=
      List.mem_filter.mpr ⟨hmem, decide_eq_true hid⟩
    cases hlast : ((s.chats hidden).filter fun chat => decide (chat.value.id = id)).getLast? with
    | none =>
      rw [List.getLast?_eq_none_iff] at hlast
      rw [hlast] at hfound
      exact absurd hfound List.not_mem_nil
    | some other =>
      have hother := List.mem_of_getLast? hlast
      rw [List.mem_filter, decide_eq_true_eq] at hother
      rw [hone hother.1 hmem (hother.2.trans hid.symm)]

theorem Filed.byId_isSome (h : Filed s) :
    (byId (s.chats hidden) id).isSome = (s.conversation? id).isSome := by
  rw [Bool.eq_iff_iff]
  constructor
  · intro hfound
    obtain ⟨chat, hchat⟩ := Option.isSome_iff_exists.mp hfound
    obtain ⟨hmem, hid⟩ := h.byId_eq.mp hchat
    rw [← hid]
    exact (h.held hmem).1
  · intro hheld
    obtain ⟨chat, hmem, hid⟩ : ∃ chat ∈ s.chats hidden, chat.value.id = id := h.listed hheld
    rw [h.byId_eq.mpr ⟨hmem, hid⟩]
    rfl

theorem Filed.thread_value (h : Filed s) {chat : Chat} (hchat : chat ∈ s.chats hidden) :
    s.thread? chat.value.id = if chat.value.isSelf then chat.value.threadId else none := by
  obtain ⟨id, r, v, hr, hv, hid, rfl⟩ := h.mem_chats.mp hchat
  dsimp only
  rw [hid, Store.thread?, hr, Option.bind_some, hv, Option.bind_some]

theorem Filed.groupKey_eq (h : Filed s) {chat : Chat} (hchat : chat ∈ s.chats hidden) :
    groupKey (s.chats hidden) chat = s.entryKey chat.value.id := by
  rw [groupKey, root, Store.entryKey, h.thread_value hchat]
  split_ifs
  · cases chat.value.threadId with
    | none => rfl
    | some thread =>
      rw [Option.bind_some, Option.filter_some]
      cases hfound : byId (s.chats hidden) thread with
      | none =>
        have hheld : (byId (s.chats hidden) thread).isSome = _ := h.byId_isSome
        rw [hfound] at hheld
        rw [← hheld]
        rfl
      | some root =>
        obtain ⟨hmem, hid⟩ := h.byId_eq.mp hfound
        rw [← hid, if_pos (h.held hmem).1]
        rfl
  · rfl

def Store.column (s : Store) (id : Bytes) : Bytes := ((s.thread? id).filter validId).getD id

theorem thread_held (hthread : s.thread? id = some thread) : (s.conversation? id).isSome := by
  cases hrow : s.conversation? id with
  | none =>
    rw [Store.thread?, hrow] at hthread
    exact nomatch hthread
  | some r => rfl

theorem column_none (hthread : s.thread? id = none) : s.column id = id := by
  rw [Store.column, hthread]
  rfl

theorem column_missing (hmissing : s.conversation? id = none) : s.column id = id := by
  refine column_none ?_
  rw [Store.thread?, hmissing]
  rfl

theorem column_thread (hthread : s.thread? id = some thread) :
    s.column id = if validId thread then thread else id := by
  rw [Store.column, hthread, Option.filter_some]
  split_ifs <;> rfl

theorem entryKey_none (hthread : s.thread? id = none) : s.entryKey id = id := by
  rw [Store.entryKey, hthread]
  rfl

theorem entryKey_thread (hthread : s.thread? id = some thread) :
    s.entryKey id = if (s.conversation? thread).isSome then thread else id := by
  rw [Store.entryKey, hthread, Option.filter_some]
  split_ifs <;> rfl

theorem entryKey_held (hheld : (s.conversation? id).isSome) :
    (s.conversation? (s.entryKey id)).isSome := by
  cases hthread : s.thread? id with
  | none =>
    rw [entryKey_none hthread]
    exact hheld
  | some thread =>
    rw [entryKey_thread hthread]
    split_ifs with hroot
    · exact hroot
    · exact hheld

theorem Filed.column_row (h : Filed s) :
    s.column id = ((s.conversation? id).map (·.chat)).getD id := by
  cases hrow : s.conversation? id with
  | none => exact column_missing hrow
  | some r => exact (h.chat hrow).symm

theorem Filed.isMember (h : Filed s) {key : Bytes} : s.isMember key id = true ↔
    id = key ∨ ((s.conversation? id).isSome ∧ s.column id = s.column key) := by
  rw [Store.isMember, Bool.or_eq_true, decide_eq_true_eq, ← h.column_row]
  refine or_congr_right ?_
  cases hrow : s.conversation? id with
  | none => simp
  | some r =>
    have hchat : r.chat = s.column id := h.chat hrow
    rw [Option.any_some, hchat, decide_eq_true_eq]
    exact ⟨fun hsame => ⟨rfl, hsame⟩, And.right⟩

theorem Filed.threadKey (h : Filed s) (hheld : (s.conversation? id).isSome) :
    s.threadKey id = if (s.conversation? (s.column id)).isSome then s.column id else id := by
  obtain ⟨r, hrow⟩ := Option.isSome_iff_exists.mp hheld
  have hchat : r.chat = s.column id := h.chat hrow
  rw [Store.threadKey, hrow]
  dsimp only
  rw [hchat]

end Rows

section Entries

variable {s : Store} {hidden : Bytes → Bool} {entry : Entry}

theorem mem_localKeys {key : Bytes} (h : key ∈ s.localKeys) : s.conversation? key = none := by
  have hfree := (List.mem_filter.mp h).2
  simpa using hfree

theorem localKeys_nodup (s : Store) : s.localKeys.Nodup := by
  refine List.Nodup.filter _ ((List.mergeSort_perm _ _).nodup_iff.mpr ?_)
  exact List.nodup_dedup _

/-- An entry of the conversations of one thread. -/
structure Store.Grouped (s : Store) (entry : Entry) : Prop where
  started : ∃ id, (s.conversation? id).isSome ∧ s.entryKey id = entry.id
  merged : ∀ id, id ∈ entry.merged ↔ (s.conversation? id).isSome ∧ s.entryKey id = entry.id
  nodup : entry.merged.Nodup
  unread : entry.value.unread = (entry.merged.map (count s)).sum

structure Store.Local (s : Store) (entry : Entry) : Prop where
  key : entry.id ∈ s.localKeys
  merged : entry.merged = []
  unread : entry.value.unread = 0

theorem first_id (chats : List Chat) (chat : Chat) :
    (Chat.first chats chat).value.id = groupKey chats chat := by
  unfold Chat.first groupKey
  cases root chats chat <;> rfl

theorem first_unread (chats : List Chat) (chat : Chat) :
    (Chat.first chats chat).unread = chat.unread := by
  unfold Chat.first
  cases root chats chat <;> rfl

theorem collected_id {chats : List Chat}
    (h : entry ∈ Group.collect (groupKey chats) (Chat.first chats) Chat.merge chats) :
    entry.id = entry.key := by
  have hstart : ∀ chat ∈ chats, (Chat.first chats chat).value.id = id (groupKey chats chat) :=
    fun chat _ => first_id chats chat
  have hjoin : ∀ merged chat : Chat, (merged.merge chat).value.id = merged.value.id :=
    fun _ _ => rfl
  exact Group.value_label (fun chat => chat.value.id) id hstart hjoin h

theorem Filed.collected (h : Filed s) (hentry : entry ∈ Group.collect
    (groupKey (s.chats hidden)) (Chat.first (s.chats hidden)) Chat.merge (s.chats hidden)) :
    s.Grouped entry := by
  have hid := collected_id hentry
  have hitems := Group.items_eq hentry
  have hmem {chat : Chat} : chat ∈ entry.items ↔
      chat ∈ s.chats hidden ∧ s.entryKey chat.value.id = entry.id := by
    rw [hitems, List.mem_filter, decide_eq_true_eq, hid]
    refine and_congr_right fun hchat => ?_
    rw [h.groupKey_eq hchat]
  refine ⟨?_, fun id => ?_, ?_, ?_⟩
  · have hkey := Group.key_mem.mp (List.mem_map_of_mem hentry)
    obtain ⟨chat, hchat, hkey⟩ := List.mem_map.mp hkey
    refine ⟨chat.value.id, (h.held hchat).1, ?_⟩
    rw [← h.groupKey_eq hchat, hkey, hid]
  · unfold Entry.merged
    constructor
    · intro hmerged
      obtain ⟨chat, hchat, rfl⟩ := List.mem_map.mp hmerged
      obtain ⟨hchat, hkey⟩ := hmem.mp hchat
      exact ⟨(h.held hchat).1, hkey⟩
    · rintro ⟨hheld, hkey⟩
      obtain ⟨chat, hchat, rfl⟩ : ∃ chat ∈ s.chats hidden, chat.value.id = id := h.listed hheld
      exact List.mem_map_of_mem (hmem.mpr ⟨hchat, hkey⟩)
  · unfold Entry.merged
    rw [hitems]
    exact (List.filter_sublist.map _).nodup h.chats_nodup
  · have hsum := Group.value_sum Chat.unread Chat.unread (first_unread (s.chats hidden))
      (fun _ _ => rfl) hentry
    rw [hsum, Entry.merged, List.map_map]
    refine congrArg List.sum (List.map_congr_left fun chat hchat => ?_)
    exact (h.held (hmem.mp hchat).1).2

theorem Filed.entry_cases (h : Filed s) (hentry : entry ∈ s.entries hidden) :
    s.Grouped entry ∨ s.Local entry := by
  rcases List.mem_append.mp hentry with hentry | hentry
  · exact Or.inl (h.collected hentry)
  · obtain ⟨key, hkey, rfl⟩ := List.mem_map.mp hentry
    exact Or.inr ⟨hkey, rfl, rfl⟩

theorem exists_local {key : Bytes} (h : key ∈ s.localKeys) :
    ∃ entry ∈ s.entries hidden, entry.id = key ∧ entry.merged = [] ∧ entry.value.unread = 0 :=
  ⟨_, List.mem_append_right _ (List.mem_map_of_mem h), rfl, rfl, rfl⟩

theorem Filed.exists_entry (h : Filed s) {id : Bytes} (hheld : (s.conversation? id).isSome) :
    ∃ entry ∈ s.entries hidden, entry.id = s.entryKey id ∧ id ∈ entry.merged := by
  obtain ⟨chat, hchat, rfl⟩ : ∃ chat ∈ s.chats hidden, chat.value.id = id := h.listed hheld
  have hkey : groupKey (s.chats hidden) chat ∈ (Group.collect (groupKey (s.chats hidden))
      (Chat.first (s.chats hidden)) Chat.merge (s.chats hidden)).map Group.key :=
    Group.key_mem.mpr (List.mem_map_of_mem hchat)
  obtain ⟨entry, hentry, hkey⟩ := List.mem_map.mp hkey
  rw [h.groupKey_eq hchat, ← collected_id hentry] at hkey
  exact ⟨entry, List.mem_append_left _ hentry, hkey,
    ((h.collected hentry).merged _).mpr ⟨hheld, hkey.symm⟩⟩

theorem Filed.entries_distinct (h : Filed s) : ((s.entries hidden).map Entry.id).Nodup := by
  have hlocal : (s.localKeys.map fun key =>
      Entry.id { key := key, items := [], value := .recovered hidden key }) = s.localKeys :=
    List.map_id' _
  have hkeys : (Group.collect (groupKey (s.chats hidden)) (Chat.first (s.chats hidden)) Chat.merge
      (s.chats hidden)).map Entry.id = (Group.collect (groupKey (s.chats hidden))
        (Chat.first (s.chats hidden)) Chat.merge (s.chats hidden)).map Group.key :=
    List.map_congr_left fun entry hentry => collected_id hentry
  rw [Store.entries, List.map_append, List.map_map]
  refine List.Nodup.append ?_ ?_ ?_
  · rw [hkeys]
    exact Group.keys_nodup _
  · exact hlocal.symm ▸ localKeys_nodup s
  · intro key hkey hkey'
    obtain ⟨entry, hentry, rfl⟩ := List.mem_map.mp hkey
    obtain ⟨key, hkey, hsame⟩ := List.mem_map.mp hkey'
    obtain ⟨id, hheld, hid⟩ := (h.collected hentry).started
    have hroot := entryKey_held hheld
    have hsame : key = entry.id := hsame
    rw [hid, ← hsame, mem_localKeys hkey] at hroot
    exact nomatch hroot

end Entries

section Agreement

variable {s : Store} {hidden : Bytes → Bool} {entry : Entry} {id thread : Bytes}

/-- A held root is the entry and the column of its members, and its own column. -/
theorem Store.Threaded.root (ht : s.Threaded) (h : Filed s) (hthread : s.thread? id = some thread)
    (hheld : (s.conversation? thread).isSome) :
    s.entryKey id = thread ∧ s.column id = thread ∧ s.column thread = thread := by
  obtain ⟨hvalid, hown⟩ := ht.rooted id thread hthread hheld
  refine ⟨by rw [entryKey_thread hthread, if_pos hheld], ?_, ?_⟩
  · rw [column_thread hthread]
    split_ifs with hid
    · rfl
    · exact (hvalid.resolve_left hid).symm
  · rw [h.column_row, hown]
    rfl

theorem Store.Threaded.threadKey (ht : s.Threaded) (h : Filed s)
    (hheld : (s.conversation? id).isSome) : s.threadKey id = s.entryKey id := by
  rw [h.threadKey hheld]
  cases hthread : s.thread? id with
  | none => rw [column_none hthread, entryKey_none hthread, ite_self]
  | some thread =>
    by_cases hroot : (s.conversation? thread).isSome
    · obtain ⟨hentry, hcolumn, -⟩ := ht.root h hthread hroot
      rw [hentry, hcolumn, if_pos hroot]
    · rw [entryKey_thread hthread, if_neg hroot, column_thread hthread]
      cases validId thread
      · exact ite_self _
      · exact if_neg hroot

/-- The column of an entry is its own, or names a root that is missing. -/
theorem Store.Threaded.started (ht : s.Threaded) (h : Filed s) {key : Bytes}
    (hkey : s.entryKey id = key) : s.column key = key ∨ ∃ thread, s.thread? key = some thread ∧
      s.conversation? thread = none ∧ validId thread ∧ s.column key = thread := by
  cases hthread : s.thread? key with
  | none => exact Or.inl (column_none hthread)
  | some thread =>
    by_cases hroot : (s.conversation? thread).isSome
    · left
      by_cases hsame : id = key
      · obtain ⟨hentry, hcolumn, -⟩ := ht.root h hthread hroot
        rw [hcolumn, ← hentry, ← hsame, hkey, hsame]
      · cases hmember : s.thread? id with
        | none => exact absurd ((entryKey_none hmember).symm.trans hkey) hsame
        | some root =>
          rw [entryKey_thread hmember] at hkey
          split_ifs at hkey with hheld
          · rw [← hkey]
            exact (ht.root h hmember hheld).2.2
          · exact absurd hkey hsame
    · rw [column_thread hthread]
      cases hvalid : validId thread with
      | false => exact Or.inl rfl
      | true => exact Or.inr ⟨thread, rfl, by simpa using hroot, hvalid, rfl⟩

theorem Store.Threaded.own (ht : s.Threaded) (h : Filed s) (hcolumn : s.column id = id) :
    s.entryKey id = id := by
  cases hthread : s.thread? id with
  | none => exact entryKey_none hthread
  | some thread =>
    by_cases hroot : (s.conversation? thread).isSome
    · obtain ⟨hentry, hsame, -⟩ := ht.root h hthread hroot
      rw [hentry, ← hsame, hcolumn]
    · rw [entryKey_thread hthread, if_neg hroot]

/-- The members of an entry are the conversations that were merged into it. -/
theorem Store.Threaded.grouped (ht : s.Threaded) (h : Filed s) (hentry : s.Grouped entry)
    (hheld : (s.conversation? id).isSome) :
    s.entryKey id = entry.id ↔ s.isMember entry.id id = true := by
  obtain ⟨first, hfirst, hstarted⟩ := hentry.started
  have hroot := entryKey_held hfirst
  rw [hstarted] at hroot
  rw [h.isMember, and_iff_right hheld]
  rcases ht.started h hstarted with hown | ⟨root, hthread, hmissing, hvalid, hcolumn⟩
  · rw [hown]
    constructor
    · intro hkey
      cases hthread : s.thread? id with
      | none => exact Or.inl ((entryKey_none hthread).symm.trans hkey)
      | some thread =>
        by_cases hroot : (s.conversation? thread).isSome
        · obtain ⟨hentry, hcolumn, -⟩ := ht.root h hthread hroot
          exact Or.inr (hcolumn.trans (hentry.symm.trans hkey))
        · rw [entryKey_thread hthread, if_neg hroot] at hkey
          exact Or.inl hkey
    · have hsame (hid : id = entry.id) : s.entryKey id = entry.id := by
        rw [← hid] at hown ⊢
        exact ht.own h hown
      rintro (hid | hcolumn)
      · exact hsame hid
      · cases hthread : s.thread? id with
        | none =>
          rw [column_none hthread] at hcolumn
          exact hsame hcolumn
        | some thread =>
          rw [column_thread hthread] at hcolumn
          split_ifs at hcolumn
          · rw [entryKey_thread hthread, hcolumn, if_pos hroot]
          · exact hsame hcolumn
  · constructor
    · intro hkey
      cases hmember : s.thread? id with
      | none => exact Or.inl ((entryKey_none hmember).symm.trans hkey)
      | some thread =>
        rw [entryKey_thread hmember] at hkey
        split_ifs at hkey with hheld
        · have hown := (ht.root h hmember hheld).2.2
          rw [hkey, hcolumn] at hown
          rw [← hown, hmissing] at hroot
          exact nomatch hroot
        · exact Or.inl hkey
    · have hsame : id = entry.id → s.entryKey id = entry.id := by
        rintro rfl
        rw [entryKey_thread hthread, hmissing]
        rfl
      rintro (hid | hid)
      · exact hsame hid
      · obtain ⟨r, hr⟩ := Option.isSome_iff_exists.mp hheld
        have hchat : r.chat = root := by
          rw [← hcolumn, ← hid]
          exact h.chat hr
        exact hsame ((ht.missing _ root hthread hmissing hvalid).2 id r hr hchat)

theorem Store.Threaded.alone (ht : s.Threaded) (h : Filed s) {key : Bytes}
    (hkey : key ∈ s.localKeys) (hheld : (s.conversation? id).isSome) :
    s.isMember key id = false := by
  have hmissing := mem_localKeys hkey
  rw [← Bool.not_eq_true, h.isMember, column_missing hmissing]
  rintro (rfl | ⟨-, hcolumn⟩)
  · rw [hmissing] at hheld
    exact nomatch hheld
  · cases hthread : s.thread? id with
    | none =>
      rw [column_none hthread] at hcolumn
      rw [hcolumn, hmissing] at hheld
      exact nomatch hheld
    | some thread =>
      rw [column_thread hthread] at hcolumn
      split_ifs at hcolumn with hvalid
      · rw [← hcolumn] at hkey hmissing
        exact (ht.missing id thread hthread hmissing hvalid).1 hkey
      · rw [hcolumn, hmissing] at hheld
        exact nomatch hheld

theorem cleared_eq {key : Bytes} {members : List Bytes} (hnodup : members.Nodup)
    (h : ∀ id n, s.unread.get? id = some n → (s.isMember key id = true ↔ id ∈ members)) :
    s.cleared key = (members.map (count s)).sum := by
  let weight : Nat → Nat := fun n => n
  have hsum : ((s.unread.select fun id _ => s.isMember key id).map fun r => weight r.2).sum =
      (members.map fun id => ((s.unread.get? id).map weight).getD 0).sum :=
    Table.sum_select hnodup h
  have hcount : members.map (count s) =
      members.map fun id => ((s.unread.get? id).map weight).getD 0 := by
    refine List.map_congr_left fun id _ => ?_
    rw [count]
    cases s.unread.get? id <;> rfl
  rw [hcount]
  exact hsum

theorem Store.Grouped.cleared (hentry : s.Grouped entry) (h : Filed s)
    (hmembers : ∀ id, (s.conversation? id).isSome →
      (id ∈ entry.merged ↔ s.isMember entry.id id = true)) :
    entry.value.unread = s.cleared entry.id := by
  obtain ⟨first, hfirst, hstarted⟩ := hentry.started
  have hroot := entryKey_held hfirst
  rw [hstarted] at hroot
  rw [hentry.unread, cleared_eq hentry.nodup]
  intro id _ _
  by_cases hheld : (s.conversation? id).isSome
  · exact (hmembers id hheld).symm
  · have hnone : id ∉ entry.merged := fun hmerged => hheld ((hentry.merged id).mp hmerged).1
    rw [h.isMember, iff_false_intro hnone, iff_false]
    rintro (rfl | ⟨hmember, -⟩)
    · exact hheld hroot
    · exact hheld hmember

theorem Filed.cleared_local (h : Filed s) {key : Bytes}
    (halone : ∀ id, (s.conversation? id).isSome → s.isMember key id = false) :
    s.cleared key = count s key := by
  rw [cleared_eq (List.nodup_singleton key), List.map_singleton, List.sum_singleton]
  intro id _ _
  rw [List.mem_singleton, h.isMember]
  refine ⟨?_, Or.inl⟩
  rintro (hid | ⟨hheld, hcolumn⟩)
  · exact hid
  · have hmember : s.isMember key id = true := h.isMember.mpr (Or.inr ⟨hheld, hcolumn⟩)
    rw [halone id hheld] at hmember
    exact nomatch hmember

theorem Store.Threaded.agrees (ht : s.Threaded) (h : Filed s) : s.Agrees hidden where
  distinct := h.entries_distinct
  once id hheld := by
    obtain ⟨entry, hentry, hid, hmerged⟩ : ∃ entry ∈ s.entries hidden,
      entry.id = s.entryKey id ∧ id ∈ entry.merged := h.exists_entry hheld
    have hgrouped (other : Entry) (hother : other ∈ s.entries hidden)
        (hmem : id ∈ other.merged) : s.Grouped other := by
      rcases h.entry_cases hother with hgrouped | hlocal
      · exact hgrouped
      · rw [hlocal.merged] at hmem
        exact absurd hmem List.not_mem_nil
    refine ⟨entry, hentry, List.count_eq_one_of_mem (hgrouped entry hentry hmerged).nodup hmerged,
      fun other hother hmem => ?_⟩
    refine List.inj_on_of_nodup_map h.entries_distinct hother hentry ?_
    rw [hid, ← (((hgrouped other hother hmem).merged id).mp hmem).2]
  merged entry hentry id hmem := by
    rcases h.entry_cases hentry with hgrouped | hlocal
    · exact ((hgrouped.merged id).mp hmem).1
    · rw [hlocal.merged] at hmem
      exact absurd hmem List.not_mem_nil
  members entry hentry id hheld := by
    rw [ht.threadKey h hheld]
    rcases h.entry_cases hentry with hgrouped | hlocal
    · rw [hgrouped.merged, and_iff_right hheld]
      exact ⟨ht.grouped h hgrouped hheld, Iff.rfl⟩
    · rw [hlocal.merged, ht.alone h hlocal.key hheld]
      refine ⟨by simp, ⟨fun hmem => absurd hmem List.not_mem_nil, fun hkey => ?_⟩⟩
      have hroot := entryKey_held hheld
      rw [hkey, mem_localKeys hlocal.key] at hroot
      exact nomatch hroot
  unread entry hentry := by
    rcases h.entry_cases hentry with hgrouped | hlocal
    · refine hgrouped.cleared h fun id hheld => ?_
      rw [hgrouped.merged, and_iff_right hheld]
      exact ht.grouped h hgrouped hheld
    · rw [hlocal.unread, h.cleared_local fun id => ht.alone h hlocal.key]
      exact (ht.settled entry.id hlocal.key).symm

theorem Store.Agrees.threaded (ha : s.Agrees hidden) (h : Filed s) : s.Threaded := by
  have hlocal {key : Bytes} (hkey : key ∈ s.localKeys) (id : Bytes)
      (hheld : (s.conversation? id).isSome) : s.isMember key id = false := by
    obtain ⟨entry, hentry, rfl, hmerged, -⟩ : ∃ entry ∈ s.entries hidden, entry.id = key ∧
      entry.merged = [] ∧ entry.value.unread = 0 := exists_local hkey
    have hmember := (ha.members entry hentry id hheld).1
    rw [hmerged] at hmember
    rw [← Bool.not_eq_true]
    exact fun htrue => absurd (hmember.mpr htrue) List.not_mem_nil
  have hentered (id : Bytes) (hheld : (s.conversation? id).isSome) :
      s.isMember (s.entryKey id) id = true ∧ s.threadKey id = s.entryKey id := by
    obtain ⟨entry, hentry, hid, hmerged⟩ : ∃ entry ∈ s.entries hidden,
      entry.id = s.entryKey id ∧ id ∈ entry.merged := h.exists_entry hheld
    obtain ⟨hmember, hkey⟩ := ha.members entry hentry id hheld
    rw [hid] at hmember hkey
    exact ⟨hmember.mp hmerged, hkey.mp hmerged⟩
  have hjoined {id other : Bytes} (hheld : (s.conversation? id).isSome)
      (hother : (s.conversation? other).isSome)
      (hmember : s.isMember (s.entryKey id) other = true) : s.entryKey other = s.entryKey id := by
    obtain ⟨entry, hentry, hid, hmerged⟩ : ∃ entry ∈ s.entries hidden,
      entry.id = s.entryKey id ∧ id ∈ entry.merged := h.exists_entry hheld
    rw [← hid] at hmember
    have hmem := (ha.members entry hentry other hother).1.mpr hmember
    rcases h.entry_cases hentry with hgrouped | hlocal
    · exact ((hgrouped.merged other).mp hmem).2.trans hid
    · rw [hlocal.merged] at hmem
      exact absurd hmem List.not_mem_nil
  refine ⟨fun id thread hthread hroot => ?_, fun id thread hthread hmissing hvalid => ⟨?_, ?_⟩,
    fun key hkey => ?_⟩
  · have hheld := thread_held hthread
    obtain ⟨hmember, hkey⟩ := hentered id hheld
    rw [entryKey_thread hthread, if_pos hroot] at hmember hkey
    obtain ⟨r, hr⟩ := Option.isSome_iff_exists.mp hroot
    have hchat : r.chat = s.column thread := h.chat hr
    rw [hr, Option.map_some, Option.some.injEq, hchat]
    by_cases hsame : thread = id
    · refine ⟨Or.inr hsame, ?_⟩
      rw [column_thread (hsame.symm ▸ hthread), hsame, ite_self]
    · have hcolumn : s.column id = thread := by
        rw [h.threadKey hheld] at hkey
        split_ifs at hkey
        · exact hkey
        · exact absurd hkey.symm hsame
      have hvalid : validId thread = true := by
        rw [column_thread hthread] at hcolumn
        split_ifs at hcolumn with hvalid
        · exact hvalid
        · exact absurd hcolumn.symm hsame
      rcases h.isMember.mp hmember with hid | ⟨-, hroots⟩
      · exact absurd hid.symm hsame
      · exact ⟨Or.inl hvalid, hroots.symm.trans hcolumn⟩
  · intro hkey
    have hmember : s.isMember thread id = true := by
      rw [h.isMember, column_thread hthread, if_pos hvalid, column_missing hmissing]
      exact Or.inr ⟨thread_held hthread, rfl⟩
    rw [hlocal hkey id (thread_held hthread)] at hmember
    exact nomatch hmember
  · intro other r hr hchat
    have hheld : (s.conversation? other).isSome := by
      rw [hr]
      rfl
    have hcolumn : s.column other = thread := by
      rw [← hchat]
      exact (h.chat hr).symm
    have hne : other ≠ thread := by
      rintro rfl
      rw [hmissing] at hr
      exact nomatch hr
    have hnone : ¬(s.conversation? thread).isSome := by
      rw [hmissing]
      exact Bool.false_ne_true
    have hkey : s.entryKey id = id := by
      rw [entryKey_thread hthread, if_neg hnone]
    have hmember : s.isMember id other = true := by
      rw [h.isMember, hcolumn, column_thread hthread, if_pos hvalid]
      exact Or.inr ⟨hheld, rfl⟩
    have hother := hjoined (thread_held hthread) hheld (hkey.symm ▸ hmember)
    rw [hkey] at hother
    rw [← hother]
    cases hthread' : s.thread? other with
    | none =>
      rw [column_none hthread'] at hcolumn
      exact absurd hcolumn hne
    | some thread' =>
      rw [column_thread hthread'] at hcolumn
      split_ifs at hcolumn
      · rw [entryKey_thread hthread', hcolumn, if_neg hnone]
      · exact absurd hcolumn hne
  · obtain ⟨entry, hentry, rfl, -, hunread⟩ : ∃ entry ∈ s.entries hidden, entry.id = key ∧
      entry.merged = [] ∧ entry.value.unread = 0 := exists_local hkey
    rw [← h.cleared_local (hlocal hkey), ← ha.unread entry hentry, hunread]

end Agreement


/-- Whatever was received and saved, the list of chats agrees with the threads
exactly if every held root is its own and every missing one stands alone. -/
theorem chats_agree (dec : Decoder) (hidden : Bytes → Bool) (actions : List Action) :
    let s := ((client dec).run {} actions).store
    s.Agrees hidden ↔ s.Threaded := by
  intro s
  have hfiled : Filed s := reachable_filed dec actions
  exact ⟨fun ha => ha.threaded hfiled, fun ht => ht.agrees hfiled⟩

namespace Sample

def root : Bytes := text "RAAAAAAAAAAAAAAAAAAAAA"
def phone : Bytes := text "SAAAAAAAAAAAAAAAAAAAAA"
def mail : Bytes := text "TAAAAAAAAAAAAAAAAAAAAA"

def oneself (id : Bytes) : Decoded Conversation where
  value := { id := id, revision := 1, service := text "imessage", threadId := some root, isSelf := true }
  raw := text "{}"

def rootless : List Action := [.respond {} (.chats [oneself phone, oneself mail] none)]

end Sample

theorem chats_agree_rootless :
    ¬((client (Sample.decoder [])).run {} Sample.rootless).store.Agrees fun _ => false := by
  intro ha
  have ht := ha.threaded (reachable_filed _ Sample.rootless)
  have halone := ht.missing Sample.phone Sample.root (by decide +kernel) (by decide +kernel)
    (by decide +kernel)
  have hmail : ((client (Sample.decoder [])).run {} Sample.rootless).store.conversation? Sample.mail =
      some (.of (.conversation (Sample.oneself Sample.mail))) := by decide +kernel
  have hsame := halone.2 Sample.mail _ hmail (by decide +kernel)
  exact absurd hsame (by decide)

end Zimbr.Client
