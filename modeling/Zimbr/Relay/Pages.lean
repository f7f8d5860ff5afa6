import Mathlib.Data.Prod.Lex
import Zimbr.Library.Paging
import Zimbr.Relay.Columns
import Zimbr.Relay.Dispatch

set_option autoImplicit false

/-!
# Pages of history

The relay serves messages, conversations and identities in pages, newest first.
A page ends at its limit of rows or at a budget of bytes, and names the position
to continue from.
-/
namespace Zimbr.Relay
open Library

structure Page where
  records : List Record
  next : Option Bytes

/-- Past every identifier: `"~"`. -/
def pastIds : Bytes := [126]

/-- The thread of a conversation's row: `coalesce(thread_id, id)`. -/
def threadOf (id : Bytes) (c : ConversationRow) : Bytes := c.record.threadId.getD id

def threadMembers (j : Journal) (id : Bytes) : List Bytes :=
  let thread := ((j.conversations.get? id).map (threadOf id)).getD id
  (j.conversations.select fun member c => decide (threadOf member c = thread)).map Prod.fst

/-- Optional arrays are stripped before the response is built. The reaction event
stays: it determines whether a source row is displayed. -/
def textContent (v : Message) : Message :=
  let enrichment := v.enrichment.getD {}
  if v.attachments ≠ [] || v.linkPreviews.getD [] ≠ [] || v.reactions.getD [] ≠ [] ||
      0 < enrichment.attachments.total || 0 < enrichment.previews.total ||
      0 < enrichment.reactions.total then
    { v with
      attachments := []
      linkPreviews := none
      reactions := none
      parts := none
      enrichment := none
      metadataDeferred := true }
  else v

/-- `ORDER BY key DESC`. -/
def descending {κ α : Type} [LinearOrder κ] (key : α → κ) (rows : List α) : List α :=
  rows.insertionSort fun a b => key b ≤ key a

/-- The rows below a position until the limit or the budget ends the page. Each
position is formatted into a buffer of `capacity` bytes. -/
def cut {κ α : Type} [LinearOrder κ] (enc : Encoding) (key : α → κ) (spell : κ → Bytes)
    (record : α → Record) (capacity budget limit : Nat) (rows : List α) (start : κ) :
    Except Error Page :=
  let page := Paging.page key limit budget (fun r => enc.record (record r)) rows start
  if page.1.all fun r => decide ((spell (key r)).length ≤ capacity) then
    .ok { records := page.1.map record, next := page.2.map spell }
  else .error .databaseFailure

/-- The sort key of a message: `(date_ns, id)`. -/
def messageKey (r : Bytes × MessageRow) : Int ×ₗ Bytes := toLex (r.2.dateNs, r.1)

/-- `"{d}:{s}"`. -/
def spellPosition (k : Int ×ₗ Bytes) : Bytes := signed (ofLex k).1 ++ 58 :: (ofLex k).2

def parsePosition : Option Bytes → Except Error (Int ×ₗ Bytes)
  | none => .ok (toLex ((maxInt : Int), pastIds))
  | some b =>
    match b.findIdx? fun ch => decide (ch = 58) with
    | none => .error .invalidRequest
    | some split =>
      match parseInt (b.take split) with
      | none => .error .invalidRequest
      | some date =>
        if validId (b.drop (split + 1)) then .ok (toLex (date, b.drop (split + 1)))
        else .error .invalidRequest

def threadMessages (j : Journal) (id : Bytes) : List (Bytes × MessageRow) :=
  descending messageKey (j.messages.select fun _ m => decide (m.conversationId ∈ threadMembers j id))

def messageRecord (textOnly : Bool) (r : Bytes × MessageRow) : Record :=
  .message (if textOnly then textContent r.2.record else r.2.record)

section Pages

variable (enc : Encoding) (j : Journal)

def pageContent (conversationId : Option Bytes) (before : Option Bytes) (limit : Nat)
    (textOnly : Bool) : Except Error Page :=
  if limit = 0 || maxPage < limit then .error .invalidRequest
  else match conversationId with
  | some id =>
    match parsePosition before with
    | .error e => .error e
    | .ok start =>
      cut enc messageKey spellPosition (messageRecord textOnly) (20 + 1 + idLength) maxHistoryBytes
        limit (threadMessages j id) start
  | none =>
    cut enc Prod.fst id (fun r => .conversation r.2.record) (20 + 1 + idLength) maxHistoryBytes
      limit (descending Prod.fst j.conversations.rows) (before.getD pastIds)

def identityPage (before : Option Bytes) (limit : Nat) : Except Error Page :=
  if limit = 0 || maxPage < limit then .error .invalidRequest
  else if !before.all validId then .error .invalidRequest
  else
    cut enc Prod.fst id (fun r => .identity r.2.record) idLength maxMetadataPage
      limit (descending Prod.fst j.identities.rows) (before.getD pastIds)

end Pages

def Page.step (p : Page) : List Record × Option (Option Bytes) := (p.records, p.next.map some)

section Cut

variable {κ α : Type} [LinearOrder κ] {enc : Encoding} {key : α → κ} {spell : κ → Bytes}
  {record : α → Record} {capacity budget limit : Nat} {rows : List α} {start : κ}

theorem mem_page {size : α → Nat} {r : α}
    (h : r ∈ (Paging.page key limit budget size rows start).1) : r ∈ rows :=
  List.mem_of_mem_filter (List.mem_of_mem_take (Paging.fill_prefix.subset h))

theorem cut_ok (hspell : ∀ r ∈ rows, (spell (key r)).length ≤ capacity) :
    cut enc key spell record capacity budget limit rows start = .ok {
      records := (Paging.page key limit budget (fun r => enc.record (record r)) rows start).1.map record
      next := (Paging.page key limit budget (fun r => enc.record (record r)) rows start).2.map spell } := by
  unfold cut
  refine if_pos (List.all_eq_true.mpr fun r hr => ?_)
  exact decide_eq_true (hspell r (mem_page hr))

def PositionOf (key : α → κ) (spell : κ → Bytes) (rows : List α) (before : Option Bytes) : Prop :=
  before = none ∨ ∃ r ∈ rows, before = some (spell (key r))

/-- Pages that read their positions back traverse all rows. -/
theorem cut_traversal (parse : Option Bytes → Except Error κ) {top : κ}
    {f : Option Bytes → Except Error (List Record × Option (Option Bytes))}
    (hrows : rows.Pairwise fun a b => key b < key a) (hlimit : 0 < limit)
    (htop : parse none = .ok top) (hbelow : ∀ r ∈ rows, key r < top)
    (hparse : ∀ r ∈ rows, parse (some (spell (key r))) = .ok (key r))
    (hspell : ∀ r ∈ rows, (spell (key r)).length ≤ capacity)
    (hf : ∀ before start, parse before = .ok start → f before =
      (cut enc key spell record capacity budget limit rows start).map Page.step) :
    Paging.Traversal f none (rows.map record) := by
  let remaining (before : Option Bytes) : List Record :=
    match parse before with
    | .ok start => (Paging.below key rows start).map record
    | .error _ => []
  have hall : remaining none = rows.map record := by
    change (match parse none with
      | .ok start => (Paging.below key rows start).map record
      | .error _ => []) = _
    rw [htop]
    refine congrArg (List.map record) (List.filter_eq_self.mpr fun r hr => ?_)
    exact decide_eq_true (hbelow r hr)
  have hstep (before : Option Bytes) (start : κ) (hstart : parse before = .ok start) :
      ∃ page next, f before = .ok (page, next) ∧ (next = none → page = remaining before) ∧
        ∀ before', next = some before' → PositionOf key spell rows before' ∧ page ≠ [] ∧
          remaining before = page ++ remaining before' := by
    have hremaining : remaining before = (Paging.below key rows start).map record := by
      change (match parse before with
        | .ok start => (Paging.below key rows start).map record
        | .error _ => []) = _
      rw [hstart]
    refine ⟨_, _, (hf before start hstart).trans (congrArg (Except.map Page.step) (cut_ok hspell)),
      fun hnone => ?_, fun before' hnext => ?_⟩
    · rw [Option.map_eq_none_iff, Option.map_eq_none_iff] at hnone
      rw [hremaining, ← Paging.page_last hlimit hnone]
    · obtain ⟨token, htoken, rfl⟩ := Option.map_eq_some_iff.mp hnext
      obtain ⟨k, hk, rfl⟩ := Option.map_eq_some_iff.mp htoken
      obtain ⟨hne, hsplit, r, hr, rfl⟩ := Paging.page_next hrows hk
      have hafter : remaining (some (spell (key r))) =
          (Paging.below key rows (key r)).map record := by
        change (match parse (some (spell (key r))) with
          | .ok start => (Paging.below key rows start).map record
          | .error _ => []) = _
        rw [hparse r hr]
      refine ⟨Or.inr ⟨r, hr, rfl⟩, fun hnil => hne (List.map_eq_nil_iff.mp hnil), ?_⟩
      rw [hremaining, hafter, hsplit, List.map_append]
  have haccepted (before : Option Bytes) (hbefore : PositionOf key spell rows before) :
      ∃ page next, f before = .ok (page, next) ∧ (next = none → page = remaining before) ∧
        ∀ before', next = some before' → PositionOf key spell rows before' ∧ page ≠ [] ∧
          remaining before = page ++ remaining before' := by
    rcases hbefore with rfl | ⟨r, hr, rfl⟩
    · exact hstep none top htop
    · exact hstep _ _ (hparse r hr)
  rw [← hall]
  exact Paging.Traversal.of_pages haccepted none (Or.inl rfl)

end Cut

section Order

variable {κ α : Type} [LinearOrder κ] {key : α → κ} {rows : List α}

theorem descending_perm : (descending key rows).Perm rows := List.perm_insertionSort _ _

theorem descending_pairwise (h : rows.Pairwise fun a b => key a ≠ key b) :
    (descending key rows).Pairwise fun a b => key b < key a := by
  have htotal : Std.Total fun a b : α => key b ≤ key a := ⟨fun a b => le_total (key b) (key a)⟩
  have htrans : IsTrans α fun a b => key b ≤ key a := ⟨fun _ _ _ hab hbc => hbc.trans hab⟩
  have hsorted : (descending key rows).Pairwise fun a b => key b ≤ key a :=
    List.pairwise_insertionSort _ rows
  have hdistinct : (descending key rows).Pairwise fun a b => key a ≠ key b :=
    (descending_perm.pairwise_iff fun h => Ne.symm h).mpr h
  exact (hsorted.and hdistinct).imp fun h => lt_of_le_of_ne h.1 (Ne.symm h.2)

theorem select_distinct {κ ρ : Type} [DecidableEq κ] (t : Table κ ρ) (p : κ → ρ → Bool) :
    (t.select p).Pairwise fun a b => a.1 ≠ b.1 :=
  List.pairwise_map.mp (Table.select_keys_nodup t p)

end Order

section Positions

theorem sextet_lt {b : UInt8} (h : (sextet b).isSome = true) : b < 126 := by
  by_contra hge
  have hge : 126 ≤ b.toNat := UInt8.le_iff_toNat_le.mp (not_lt.mp hge)
  have hne (n : UInt8) (hn : n.toNat < 126) : b ≠ n := fun heq => by
    rw [heq] at hge
    omega
  have hnle (n : UInt8) (hn : n.toNat < 126) : ¬ b ≤ n := fun hle => by
    have := UInt8.le_iff_toNat_le.mp hle
    omega
  have hnone : sextet b = none := by
    simp [sextet, isDigit, hnle 90 (by decide), hnle 122 (by decide), hnle 57 (by decide),
      hne 45 (by decide), hne 95 (by decide)]
  rw [hnone] at h
  cases h

/-- Every identifier is before `"~"`. -/
theorem validId_lt {s : Bytes} (h : validId s = true) : s < pastIds := by
  have hlength := validId_length h
  simp only [validId, Bool.and_eq_true, List.all_eq_true] at h
  cases s with
  | nil => cases hlength
  | cons b rest =>
    exact List.Lex.rel (sextet_lt (h.1.2 b List.mem_cons_self))

theorem signed_length {n : Int} (h : -(2 ^ 63) ≤ n ∧ n < 2 ^ 63) : (signed n).length ≤ 20 := by
  have hdigits : (decimal n.natAbs).length ≤ 19 := by
    rw [decimal, List.length_map]
    exact (Nat.length_toDigits_le_iff (by omega) (by omega)).mpr (by omega)
  unfold signed
  split_ifs
  · rw [List.length_cons]
    omega
  · omega

theorem signed_colon {n : Int} : (58 : UInt8) ∉ signed n := by
  have hdigits : (58 : UInt8) ∉ decimal n.natAbs := fun h =>
    absurd (decimal_digits _ _ h) (by decide)
  unfold signed
  split_ifs
  · exact List.not_mem_cons_of_ne_of_not_mem (by decide) hdigits
  · exact hdigits

theorem parsePosition_spell {date : Int} {id : Bytes} (hdate : -(2 ^ 63) ≤ date ∧ date < 2 ^ 63)
    (hid : validId id = true) :
    parsePosition (some (spellPosition (toLex (date, id)))) = .ok (toLex (date, id)) := by
  have hsplit : (signed date ++ 58 :: id).findIdx? (fun ch => decide (ch = 58)) =
      some (signed date).length := by
    rw [List.findIdx?_append, List.findIdx?_eq_none_iff.mpr]
    · simp [List.findIdx?_cons]
    · intro ch hch
      rw [decide_eq_false_iff_not]
      rintro rfl
      exact signed_colon hch
  have htake : (signed date ++ 58 :: id).take (signed date).length = signed date := List.take_left
  have hdrop : (signed date ++ 58 :: id).drop ((signed date).length + 1) = id := by
    rw [← List.drop_drop, List.drop_left]
    rfl
  unfold parsePosition spellPosition
  simp only [ofLex_toLex, hsplit, htake, hdrop, parseInt_signed hdate.1 hdate.2, hid, if_true]

theorem spellPosition_length {date : Int} {id : Bytes} (hdate : -(2 ^ 63) ≤ date ∧ date < 2 ^ 63)
    (hid : validId id = true) :
    (spellPosition (toLex (date, id))).length ≤ 20 + 1 + idLength := by
  have hlength := signed_length hdate
  have hidLength := validId_length hid
  simp only [spellPosition, ofLex_toLex, List.length_append, List.length_cons]
  omega

end Positions

section Traversals

variable {enc : Encoding} {j : Journal} {id : Bytes} {limit : Nat} {r : Bytes × MessageRow}

theorem pageContent_messages (hlimit : 1 ≤ limit ∧ limit ≤ maxPage) {before : Option Bytes}
    {start : Int ×ₗ Bytes} (hstart : parsePosition before = .ok start) (textOnly : Bool) :
    pageContent enc j (some id) before limit textOnly =
      cut enc messageKey spellPosition (messageRecord textOnly) (20 + 1 + idLength) maxHistoryBytes
        limit (threadMessages j id) start := by
  have hfree : ¬ (limit = 0 || decide (maxPage < limit)) = true := by
    simp only [Bool.or_eq_true, decide_eq_true_eq, not_or]
    omega
  simp only [pageContent, if_neg hfree, hstart]

theorem pageContent_conversations (hlimit : 1 ≤ limit ∧ limit ≤ maxPage) (before : Option Bytes)
    (textOnly : Bool) : pageContent enc j none before limit textOnly =
      cut enc Prod.fst (fun k => k) (fun r => .conversation r.2.record) (20 + 1 + idLength)
        maxHistoryBytes limit (descending Prod.fst j.conversations.rows) (before.getD pastIds) := by
  have hfree : ¬ (limit = 0 || decide (maxPage < limit)) = true := by
    simp only [Bool.or_eq_true, decide_eq_true_eq, not_or]
    omega
  simp only [pageContent, if_neg hfree]
  rfl

theorem identityPage_ok (hlimit : 1 ≤ limit ∧ limit ≤ maxPage) {before : Option Bytes}
    (hbefore : before.all validId = true) : identityPage enc j before limit =
      cut enc Prod.fst (fun k => k) (fun r => .identity r.2.record) idLength maxMetadataPage
        limit (descending Prod.fst j.identities.rows) (before.getD pastIds) := by
  have hfree : ¬ (limit = 0 || decide (maxPage < limit)) = true := by
    simp only [Bool.or_eq_true, decide_eq_true_eq, not_or]
    omega
  simp only [identityPage, if_neg hfree, hbefore]
  rfl

theorem Stored.message (hj : Stored j) (hr : r ∈ threadMessages j id) :
    validId r.1 = true ∧ -(2 ^ 63) ≤ r.2.dateNs ∧ r.2.dateNs < 2 ^ 63 :=
  hj.messages r.1 r.2 (Table.get?_select.mp (descending_perm.mem_iff.mp hr)).1

theorem threadMessages_pairwise :
    (threadMessages j id).Pairwise fun a b => messageKey b < messageKey a := by
  refine descending_pairwise ((select_distinct _ _).imp fun hne heq => hne ?_)
  exact congrArg (fun k => (ofLex k).2) heq

/-- Every message is before the position that a traversal starts from. -/
theorem messageKey_lt (hid : validId r.1 = true) (hdate : r.2.dateNs < 2 ^ 63) :
    messageKey r < toLex ((maxInt : Int), pastIds) := by
  rw [messageKey, Prod.Lex.toLex_lt_toLex]
  rcases lt_or_eq_of_le (show r.2.dateNs ≤ (maxInt : Int) by unfold maxInt; omega) with hlt | heq
  · exact Or.inl hlt
  · exact Or.inr ⟨heq, validId_lt hid⟩

theorem messages_traversal (hj : Stored j) (hlimit : 1 ≤ limit ∧ limit ≤ maxPage) (id : Bytes)
    (textOnly : Bool) : Paging.Traversal
      (fun before => (pageContent enc j (some id) before limit textOnly).map Page.step) none
      ((threadMessages j id).map (messageRecord textOnly)) := by
  have hpage (before : Option Bytes) (start : Int ×ₗ Bytes) (hstart : parsePosition before = .ok start) :
      (pageContent enc j (some id) before limit textOnly).map Page.step =
        (cut enc messageKey spellPosition (messageRecord textOnly) (20 + 1 + idLength)
          maxHistoryBytes limit (threadMessages j id) start).map Page.step := by
    rw [pageContent_messages hlimit hstart]
  refine cut_traversal parsePosition threadMessages_pairwise hlimit.1 rfl (fun r hr => ?_)
    (fun r hr => ?_) (fun r hr => ?_) hpage
  · exact messageKey_lt (hj.message hr).1 (hj.message hr).2.2
  · exact parsePosition_spell (hj.message hr).2 (hj.message hr).1
  · exact spellPosition_length (hj.message hr).2 (hj.message hr).1

theorem ids_traversal {ρ : Type} {t : Table Bytes ρ} {record : Bytes × ρ → Record}
    {capacity budget : Nat} {f : Option Bytes → Except Error (List Record × Option (Option Bytes))}
    (ht : ∀ id row, t.get? id = some row → validId id = true) (hlimit : 1 ≤ limit)
    (hcapacity : idLength ≤ capacity)
    (hf : ∀ before, before.all validId = true → f before = (cut enc Prod.fst (fun k => k) record
      capacity budget limit (descending Prod.fst t.rows) (before.getD pastIds)).map Page.step) :
    Paging.Traversal f none ((descending Prod.fst t.rows).map record) := by
  have hvalid (r : Bytes × ρ) (hr : r ∈ descending Prod.fst t.rows) : validId r.1 = true :=
    ht r.1 r.2 ((Table.get?_eq_some_iff _ _ _).mpr (descending_perm.mem_iff.mp hr))
  have hdistinct : t.rows.Pairwise fun a b => a.1 ≠ b.1 := List.pairwise_map.mp t.unique
  let parse (before : Option Bytes) : Except Error Bytes :=
    if before.all validId then .ok (before.getD pastIds) else .error .invalidRequest
  have hpage (before : Option Bytes) (start : Bytes) (h : parse before = .ok start) :
      f before = (cut enc Prod.fst (fun k => k) record capacity budget limit
        (descending Prod.fst t.rows) start).map Page.step := by
    by_cases hbefore : before.all validId = true
    · obtain rfl := Except.ok.inj ((if_pos hbefore).symm.trans h)
      exact hf before hbefore
    · exact nomatch (if_neg hbefore).symm.trans h
  refine cut_traversal parse (descending_pairwise hdistinct) hlimit rfl
    (fun r hr => validId_lt (hvalid r hr)) (fun r hr => ?_) (fun r hr => ?_) hpage
  · exact if_pos (hvalid r hr)
  · exact (validId_length (hvalid r hr)).le.trans hcapacity

theorem messageRecord_id (textOnly : Bool) (r : Bytes × MessageRow) :
    (messageRecord textOnly r).id = r.2.record.id := by
  cases textOnly with
  | false => rfl
  | true =>
    change (textContent r.2.record).id = r.2.record.id
    unfold textContent
    dsimp only
    split_ifs <;> rfl

end Traversals

section Tokens

variable {enc : Encoding} {j : Journal} {limit limit' : Nat} {page : Page} {token : Bytes}

theorem cut_next {κ α : Type} [LinearOrder κ] {key : α → κ} {spell : κ → Bytes}
    {record : α → Record} {capacity budget : Nat} {rows : List α} {start : κ}
    (hrows : rows.Pairwise fun a b => key b < key a)
    (h : cut enc key spell record capacity budget limit rows start = .ok page)
    (hnext : page.next = some token) : ∃ r ∈ rows, token = spell (key r) := by
  unfold cut at h
  dsimp only at h
  split_ifs at h
  rw [← Except.ok.inj h] at hnext
  obtain ⟨k, hk, rfl⟩ := Option.map_eq_some_iff.mp hnext
  obtain ⟨-, -, r, hr, rfl⟩ := Paging.page_next hrows hk
  exact ⟨r, hr, rfl⟩

theorem limit_of_ok {conversationId before : Option Bytes} {textOnly : Bool}
    (h : pageContent enc j conversationId before limit textOnly = .ok page) :
    1 ≤ limit ∧ limit ≤ maxPage := by
  unfold pageContent at h
  split_ifs at h with hlimit
  simp only [Bool.or_eq_true, decide_eq_true_eq, not_or] at hlimit
  omega

theorem ids_of_table {ρ : Type} {t : Table Bytes ρ} {r : Bytes × ρ}
    (ht : ∀ id row, t.get? id = some row → validId id = true)
    (hr : r ∈ descending Prod.fst t.rows) : validId r.1 = true :=
  ht r.1 r.2 ((Table.get?_eq_some_iff _ _ _).mpr (descending_perm.mem_iff.mp hr))

theorem rows_pairwise {ρ : Type} (t : Table Bytes ρ) :
    (descending Prod.fst t.rows).Pairwise fun a b => b.1 < a.1 :=
  descending_pairwise (List.pairwise_map.mp t.unique)

theorem conversation_token (hj : Stored j) (hlimit : 1 ≤ limit' ∧ limit' ≤ maxPage)
    (textOnly : Bool) : ∃ page', pageContent enc j none (some token) limit' textOnly = .ok page' := by
  rw [pageContent_conversations hlimit]
  refine ⟨_, cut_ok fun r hr => ?_⟩
  have hlength := validId_length (ids_of_table hj.conversations hr)
  omega

theorem message_token (hj : Stored j) {id : Bytes} {before : Option Bytes} {textOnly : Bool}
    (h : pageContent enc j (some id) before limit textOnly = .ok page)
    (hnext : page.next = some token) (hlimit : 1 ≤ limit' ∧ limit' ≤ maxPage) (textOnly' : Bool) :
    ∃ page', pageContent enc j (some id) (some token) limit' textOnly' = .ok page' := by
  cases hstart : parsePosition before with
  | error e =>
    unfold pageContent at h
    split_ifs at h
    simp only [hstart] at h
    exact nomatch h
  | ok start =>
    rw [pageContent_messages (limit_of_ok h) hstart] at h
    obtain ⟨r, hr, rfl⟩ := cut_next threadMessages_pairwise h hnext
    have hvalid := hj.message hr
    have hparse : parsePosition (some (spellPosition (messageKey r))) = .ok (messageKey r) :=
      parsePosition_spell hvalid.2 hvalid.1
    rw [pageContent_messages hlimit hparse]
    refine ⟨_, cut_ok fun r' hr' => ?_⟩
    exact spellPosition_length (hj.message hr').2 (hj.message hr').1

theorem identity_token (hj : Stored j) {before : Option Bytes}
    (h : identityPage enc j before limit = .ok page) (hnext : page.next = some token)
    (hlimit : 1 ≤ limit' ∧ limit' ≤ maxPage) :
    ∃ page', identityPage enc j (some token) limit' = .ok page' := by
  have hfirst : 1 ≤ limit ∧ limit ≤ maxPage ∧ before.all validId = true := by
    unfold identityPage at h
    split_ifs at h with hrange hbefore
    simp only [Bool.or_eq_true, decide_eq_true_eq, not_or] at hrange
    simp only [Bool.not_eq_true', Bool.not_eq_false] at hbefore
    exact ⟨by omega, by omega, hbefore⟩
  rw [identityPage_ok ⟨hfirst.1, hfirst.2.1⟩ hfirst.2.2] at h
  obtain ⟨r, hr, rfl⟩ := cut_next (rows_pairwise j.identities) h hnext
  have hvalid : (some r.1).all validId = true := ids_of_table hj.identities hr
  rw [identityPage_ok hlimit hvalid]
  refine ⟨_, cut_ok fun r' hr' => ?_⟩
  exact (validId_length (ids_of_table hj.identities hr')).le

end Tokens

/-- Following the continuations ends with every row once in descending order,
and every continuation is accepted. -/
structure Lossless (enc : Encoding) (j : Journal) (limit : Nat) : Prop where
  /-- Both modes list the same messages. -/
  messages : ∀ id, ∃ rows : List (Bytes × MessageRow),
    rows.Perm (j.messages.select fun _ m => decide (m.conversationId ∈ threadMembers j id)) ∧
    (rows.Pairwise fun a b => messageKey b < messageKey a) ∧
    (∀ textOnly, Paging.Traversal
      (fun before => (pageContent enc j (some id) before limit textOnly).map Page.step) none
      (rows.map (messageRecord textOnly))) ∧
    (rows.map (messageRecord true)).map Record.id = (rows.map (messageRecord false)).map Record.id
  conversations : ∃ rows : List (Bytes × ConversationRow), rows.Perm j.conversations.rows ∧
    (rows.Pairwise fun a b => b.1 < a.1) ∧
    ∀ textOnly, Paging.Traversal
      (fun before => (pageContent enc j none before limit textOnly).map Page.step) none
      (rows.map fun r => .conversation r.2.record)
  identities : ∃ rows : List (Bytes × IdentityRow), rows.Perm j.identities.rows ∧
    (rows.Pairwise fun a b => b.1 < a.1) ∧
    Paging.Traversal (fun before => (identityPage enc j before limit).map Page.step) none
      (rows.map fun r => .identity r.2.record)
  contentTokens : ∀ conversationId before textOnly page token,
    pageContent enc j conversationId before limit textOnly = .ok page → page.next = some token →
    ∀ limit', 1 ≤ limit' ∧ limit' ≤ maxPage → ∀ textOnly',
      ∃ page', pageContent enc j conversationId (some token) limit' textOnly' = .ok page'
  identityTokens : ∀ before page token,
    identityPage enc j before limit = .ok page → page.next = some token →
    ∀ limit', 1 ≤ limit' ∧ limit' ≤ maxPage →
      ∃ page', identityPage enc j (some token) limit' = .ok page'

theorem Stored.lossless (enc : Encoding) {j : Journal} (hj : Stored j) {limit : Nat}
    (hlimit : 1 ≤ limit ∧ limit ≤ maxPage) : Lossless enc j limit where
  messages id := by
    refine ⟨threadMessages j id, descending_perm, threadMessages_pairwise,
      messages_traversal hj hlimit id, ?_⟩
    rw [List.map_map, List.map_map]
    refine List.map_congr_left fun r _ => ?_
    exact (messageRecord_id true r).trans (messageRecord_id false r).symm
  conversations := by
    refine ⟨_, descending_perm, rows_pairwise j.conversations, fun textOnly => ?_⟩
    have hpage (before : Option Bytes) (_ : before.all validId = true) :
        (pageContent enc j none before limit textOnly).map Page.step =
          (cut enc Prod.fst (fun k => k) (fun r => .conversation r.2.record) (20 + 1 + idLength)
            maxHistoryBytes limit (descending Prod.fst j.conversations.rows)
            (before.getD pastIds)).map Page.step := by
      rw [pageContent_conversations hlimit]
    exact ids_traversal hj.conversations hlimit.1 (by omega) hpage
  identities := by
    refine ⟨_, descending_perm, rows_pairwise j.identities, ?_⟩
    have hpage (before : Option Bytes) (hbefore : before.all validId = true) :
        (identityPage enc j before limit).map Page.step =
          (cut enc Prod.fst (fun k => k) (fun r => .identity r.2.record) idLength maxMetadataPage
            limit (descending Prod.fst j.identities.rows) (before.getD pastIds)).map Page.step := by
      rw [identityPage_ok hlimit hbefore]
    exact ids_traversal hj.identities hlimit.1 (le_refl _) hpage
  contentTokens conversationId before textOnly page token h hnext limit' hlimit' textOnly' := by
    cases conversationId with
    | none => exact conversation_token hj hlimit' textOnly'
    | some id => exact message_token hj h hnext hlimit' textOnly'
  identityTokens before page token h hnext limit' hlimit' := identity_token hj h hnext hlimit'

/-- Pages lose and repeat nothing, in every state of a run. -/
theorem pages_lossless (enc : Encoding) {p : Process} (hp : Stored p.journal)
    {actions : List Action} (hactions : ∀ a ∈ actions, a.dated) {limit : Nat}
    (hlimit : 1 ≤ limit ∧ limit ≤ maxPage) :
    Lossless enc ((relay enc).run p actions).journal limit :=
  (run_stored hp hactions).lossless enc hlimit

namespace Sample

def chatId : Bytes := text "FAAAAAAAAAAAAAAAAAAAAA"

def line (body : String) : Message where
  conversationId := chatId
  sender := text "+15550100"
  direction := .outgoing
  service := text "imessage"
  timestamp := text "2001-01-01T00:00:00Z"
  kind := .text
  text := some (text body)
  decoding := .plain
  observedStatus := .sent

def twoLines : List Action := [
  .launch { now := 0 },
  .critical { now := 1, fresh := [chatId, text "GAAAAAAAAAAAAAAAAAAAAA",
      text "HAAAAAAAAAAAAAAAAAAAAA"] } (.write [
    .conversation (text "c") 1 (text "route") { service := text "imessage" } .live,
    .message (text "m1") 1 7 (line "one") .live,
    .message (text "m2") 2 7 (line "two") .live])]

end Sample

/-- Two pages of one message each, the larger identifier first. -/
theorem pages_lossless_twoLines :
    let j := ((relay Sample.encoding).run (.new Sample.epoch) Sample.twoLines).journal
    (threadMessages j Sample.chatId).map Prod.fst =
      [text "HAAAAAAAAAAAAAAAAAAAAA", text "GAAAAAAAAAAAAAAAAAAAAA"] ∧
    Lossless Sample.encoding j 1 := by
  refine ⟨by decide +kernel, ?_⟩
  refine pages_lossless Sample.encoding (stored_new Sample.epoch) (fun a ha => ?_)
    (by unfold maxPage; omega)
  rcases List.mem_cons.mp ha with rfl | ha
  · trivial
  · rw [List.mem_singleton.mp ha]
    intro op hop
    simp only [List.mem_cons, List.not_mem_nil, or_false] at hop
    rcases hop with rfl | rfl | rfl
    · trivial
    · exact ⟨by omega, by omega⟩
    · exact ⟨by omega, by omega⟩

end Zimbr.Relay
