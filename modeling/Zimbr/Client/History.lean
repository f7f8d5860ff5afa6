import Mathlib.Data.List.Sort
import Zimbr.Client.Metadata

set_option autoImplicit false

/-!
# The messages of a thread, kept between snapshots

A record that an earlier history holds is used again when its revision and the
serial of its enrichment are the stored ones.
-/
namespace Zimbr.Client
open Library

section Rows

/-- `send_echoes_query`: the messages that are echoes of pending sends, with the key
of the send. -/
def Store.sendEchoes (s : Store) : List (Bytes × Bytes) :=
  s.outbox.rows.flatMap fun row =>
    match row.2.record with
    | none => []
    | some v =>
      let current := decide (row.2.epoch = s.epoch)
      let whole := v.value.messageId.orElse fun _ =>
        if row.2.state = .unknown && current then v.value.candidateMessageId else none
      let parts := v.value.parts.map fun part => part.messageId.orElse fun _ =>
        if current && part.state = .unknown then part.candidateMessageId else none
      ((whole :: parts).filterMap id).map fun id => (id, row.2.draftKey)

/-- `ORDER BY sort_key,id`. -/
def older (a b : (Kind × Bytes) × RecordRow) : Prop :=
  a.2.sortKey < b.2.sortKey ∨ (a.2.sortKey = b.2.sortKey ∧ a.1.2 ≤ b.1.2)

instance : DecidableRel older := fun a b =>
  inferInstanceAs (Decidable (a.2.sortKey < b.2.sortKey ∨
    (a.2.sortKey = b.2.sortKey ∧ a.1.2 ≤ b.1.2)))

def Store.inThread (s : Store) (selected : Bytes) (key : Kind × Bytes) (r : RecordRow) : Bool :=
  key.1 = .message && s.isMember selected r.chat

def Store.linked (s : Store) (selected : Bytes) (key : Kind × Bytes) (r : RecordRow) : Bool :=
  key.1 = .message && !s.isMember selected r.chat &&
    s.sendEchoes.any fun echo => echo.1 = key.2 && s.isMember selected echo.2

def Store.historyRows (s : Store) (selected : Bytes) : List ((Kind × Bytes) × RecordRow) :=
  (s.records.select (s.inThread selected) ++ s.records.select (s.linked selected)).insertionSort older

end Rows

/-- An immutable record with its presentation, a function of the stored text. -/
structure HistoryRecord (π : Type) where
  message : Message
  presentation : π
  revision : Nat
  serial : Nat
  deriving DecidableEq, Repr

section Create

variable {π : Type} (present : Decoded Message → π)

def HistoryRecord.create (raw : Decoded Message) (revision serial : Nat) : HistoryRecord π where
  message := raw.value
  presentation := present raw
  revision := revision
  serial := serial

/-- The record of a row as `history_query` reads it. -/
def Store.fresh (s : Store) (row : (Kind × Bytes) × RecordRow) : Except Error (HistoryRecord π) :=
  match s.enriched row.1.2 row.2 with
  | none => .error .missingMessage
  | some raw => .ok (.create present raw row.2.revision (s.serial row.1.2 row.2))

/-- The record of a row of `history_versions_query`, looked up by its id. -/
def Store.looked (s : Store) (row : (Kind × Bytes) × RecordRow) : Except Error (HistoryRecord π) :=
  match s.message row.1.2 with
  | none => .error .missingMessage
  | some raw => .ok (.create present raw row.2.revision (s.serial row.1.2 row.2))

/-- The position of a message in a history: a later record replaces an earlier one. -/
def indexed (old : List (HistoryRecord π)) (id : Bytes) : Option Nat :=
  (old.zipIdx.reverse.find? fun r => decide (r.1.message.id = id)).map Prod.snd

/-- Until the first changed row, the previous history owns the prefix. -/
structure Building (π : Type) where
  unchanged : Bool := true
  kept : Nat := 0
  records : List (HistoryRecord π) := []

namespace Building

def position (b : Building π) : Nat := if b.unchanged then b.kept else b.records.length

/-- Appends and edits usually leave the prefix in the same order. -/
def cached (old : List (HistoryRecord π)) (b : Building π) (id : Bytes) : Option Nat :=
  if (old[b.position]?).any fun r => decide (r.message.id = id) then some b.position
  else indexed old id

def reusable (s : Store) (old : List (HistoryRecord π)) (b : Building π)
    (row : (Kind × Bytes) × RecordRow) : Option Nat :=
  (b.cached old row.1.2).filter fun i => (old[i]?).any fun r =>
    r.revision = row.2.revision && r.serial = s.serial row.1.2 row.2

def moved (old : List (HistoryRecord π)) (b : Building π) : List (HistoryRecord π) :=
  if b.unchanged then old.take b.kept else b.records

def add (s : Store) (old : List (HistoryRecord π)) (b : Building π)
    (row : (Kind × Bytes) × RecordRow) : Except Error (Building π) :=
  let reusable := b.reusable s old row
  if b.unchanged && reusable = some b.kept then .ok { b with kept := b.kept + 1 }
  else match reusable.bind fun i => old[i]? with
  | some record => .ok { unchanged := false, records := b.moved old ++ [record] }
  | none => (s.looked present row).map fun record =>
      { unchanged := false, records := b.moved old ++ [record] }

end Building

def create (s : Store) (selected : Bytes) :
    Option (List (HistoryRecord π)) → Except Error (List (HistoryRecord π))
  | none => (s.historyRows selected).mapM (s.fresh present)
  | some old =>
    ((s.historyRows selected).foldlM (Building.add present s old) {}).map fun b =>
      if b.unchanged then if b.kept = old.length then old else old.take b.kept else b.records

end Create

section Reuse

variable {π : Type} {present : Decoded Message → π} {s : Store} {selected : Bytes}
  {old : List (HistoryRecord π)} {b : Building π} {row : (Kind × Bytes) × RecordRow}

/-- A record of the stored version is the one that would be made now. -/
def Fits (present : Decoded Message → π) (s : Store) (r : HistoryRecord π) : Prop :=
  ∀ row, s.records.get? (.message, r.message.id) = some row → r.revision = row.revision →
    r.serial = s.serial r.message.id row →
      s.fresh present ((.message, r.message.id), row) = .ok r

def Stored (s : Store) (row : (Kind × Bytes) × RecordRow) : Prop :=
  row.1.1 = .message ∧ s.records.get? row.1 = some row.2

theorem historyRows_stored (h : row ∈ s.historyRows selected) : Stored s row := by
  have hrow := (List.perm_insertionSort older _).mem_iff.mp h
  have hselected {p : Kind × Bytes → RecordRow → Bool} (hp : row ∈ s.records.select p)
      (hkind : p row.1 row.2 = true → row.1.1 = .message) : Stored s row := by
    obtain ⟨hget, hrow⟩ := Table.get?_select.mp hp
    exact ⟨hkind hrow, hget⟩
  rcases List.mem_append.mp hrow with h | h
  · refine hselected h fun hthread => ?_
    simp only [Store.inThread, Bool.and_eq_true, decide_eq_true_eq] at hthread
    exact hthread.1
  · refine hselected h fun hlinked => ?_
    simp only [Store.linked, Bool.and_eq_true, decide_eq_true_eq] at hlinked
    exact hlinked.1.1

theorem looked_fresh (h : Stored s row) : s.looked present row = s.fresh present row := by
  obtain ⟨⟨kind, id⟩, row⟩ := row
  obtain ⟨rfl, hget⟩ := h
  rw [Store.looked, Store.message, hget]
  rfl

theorem indexed_id {id : Bytes} {i : Nat} (h : indexed old id = some i) :
    ∃ r, old[i]? = some r ∧ r.message.id = id := by
  obtain ⟨⟨r, j⟩, hfound, rfl⟩ := Option.map_eq_some_iff.mp h
  have hid := List.find?_some hfound
  have hmem := List.mem_reverse.mp (List.mem_of_find?_eq_some hfound)
  exact ⟨r, List.mem_zipIdx_iff_getElem?.mp hmem, of_decide_eq_true hid⟩

theorem cached_id {id : Bytes} {i : Nat} (h : b.cached old id = some i) :
    ∃ r, old[i]? = some r ∧ r.message.id = id := by
  unfold Building.cached at h
  split_ifs at h with hposition
  · rw [← Option.some.inj h]
    obtain ⟨r, hr, hid⟩ := (Option.any_eq_true _ _).mp hposition
    exact ⟨r, hr, of_decide_eq_true hid⟩
  · exact indexed_id h

theorem reusable_fresh (hfits : ∀ r ∈ old, Fits present s r) (h : Stored s row) {i : Nat}
    (hi : b.reusable s old row = some i) :
    ∃ r, old[i]? = some r ∧ s.fresh present row = .ok r := by
  obtain ⟨hcached, hversion⟩ := Option.filter_eq_some_iff.mp hi
  obtain ⟨r, hr, hid⟩ := cached_id hcached
  rw [hr, Option.any_some, Bool.and_eq_true, decide_eq_true_eq, decide_eq_true_eq] at hversion
  obtain ⟨⟨kind, id⟩, row⟩ := row
  obtain ⟨rfl, hget⟩ := h
  dsimp only at hid
  subst hid
  exact ⟨r, hr, hfits r (List.mem_of_getElem? hr) row hget hversion.1 hversion.2⟩

theorem add_fresh (hfits : ∀ r ∈ old, Fits present s r) (h : Stored s row) :
    (b.add present s old row).map (Building.moved old) =
      (s.fresh present row).map fun record => b.moved old ++ [record] := by
  unfold Building.add
  dsimp only
  split_ifs with hprefix
  · rw [Bool.and_eq_true, decide_eq_true_eq] at hprefix
    obtain ⟨r, hr, hfresh⟩ := reusable_fresh hfits h hprefix.2
    rw [hfresh]
    simp only [Except.map, Building.moved, hprefix.1, if_true]
    rw [List.take_add_one, hr]
    rfl
  · cases hreusable : b.reusable s old row with
    | none =>
      rw [Option.bind_none, looked_fresh h]
      cases s.fresh present row <;> rfl
    | some i =>
      obtain ⟨r, hr, hfresh⟩ := reusable_fresh hfits h hreusable
      rw [Option.bind_some, hr, hfresh]
      rfl

theorem addAll_fresh (hfits : ∀ r ∈ old, Fits present s r) {rows : List ((Kind × Bytes) × RecordRow)}
    (h : ∀ row ∈ rows, Stored s row) :
    (rows.foldlM (Building.add present s old) b).map (Building.moved old) =
      (rows.mapM (s.fresh present)).map fun records => b.moved old ++ records := by
  induction rows generalizing b with
  | nil => simp [Except.map, pure, Except.pure]
  | cons row rest ih =>
    have hadd := add_fresh (b := b) hfits (h row List.mem_cons_self)
    have hrest := fun b' => ih (b := b') fun r hr => h r (List.mem_cons_of_mem row hr)
    rw [List.foldlM_cons, List.mapM_cons]
    cases hfirst : b.add present s old row with
    | error e =>
      rw [hfirst] at hadd
      cases hfresh : s.fresh present row with
      | error e' =>
        rw [hfresh] at hadd
        exact hadd
      | ok record =>
        rw [hfresh] at hadd
        exact nomatch hadd
    | ok b' =>
      rw [hfirst] at hadd
      cases hfresh : s.fresh present row with
      | error e' =>
        rw [hfresh] at hadd
        exact nomatch hadd
      | ok record =>
        rw [hfresh] at hadd
        have hmoved : b'.moved old = b.moved old ++ [record] := Except.ok.inj hadd
        change Except.map _ (rest.foldlM (Building.add present s old) b') = _
        rw [hrest b', hmoved]
        change _ = Except.map _ (do
          let records ← rest.mapM (s.fresh present)
          return record :: records)
        cases rest.mapM (s.fresh present) with
        | error e => rfl
        | ok records =>
          simp only [Except.map, List.append_assoc, List.singleton_append]
          rfl

theorem create_fresh (hfits : ∀ r ∈ old, Fits present s r) :
    create present s selected (some old) = create present s selected none := by
  have hstored : ∀ row ∈ s.historyRows selected, Stored s row := fun _ => historyRows_stored
  have hall := addAll_fresh (b := {}) hfits hstored
  have hresult (b : Building π) :
      (if b.unchanged then if b.kept = old.length then old else old.take b.kept else b.records) =
        b.moved old := by
    unfold Building.moved
    split_ifs with hunchanged hwhole
    · rw [hwhole, List.take_length]
    · rfl
    · rfl
  simp only [create, hresult]
  refine hall.trans ?_
  change Except.map (fun records => old.take 0 ++ records) _ = _
  rw [List.take_zero]
  cases (s.historyRows selected).mapM (s.fresh present) <;> rfl

end Reuse

end Zimbr.Client
