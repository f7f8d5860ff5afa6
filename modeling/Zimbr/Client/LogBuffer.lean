import Zimbr.Library.RingBuffer
import Zimbr.Protocol.Utf8
import Mathlib.Data.List.Forall2

set_option autoImplicit false

/-!
# Session logs

Background workers and the GUI share a ring of the newest entries. `calendar` is what
`localtime_r` and `strftime` write for a time.
-/
namespace Zimbr
open Library

namespace LogBuffer

def capacity : Nat := 500

def marker : Bytes := text " … [truncated]"

def room : Nat := 768 - marker.length

structure Entry where
  serial : Nat
  text : Bytes
  deriving DecidableEq, Repr

inductive Level where
  | err | warn | info | debug
  deriving DecidableEq, Repr

def Level.asText : Level → Bytes
  | .err => text "error"
  | .warn => text "warning"
  | .info => text "info"
  | .debug => text "debug"

/-- A name fixed at compile time, which leaves its header room. -/
structure Scope where
  name : Bytes
  short : name.length ≤ 719

def formatTimestamp (calendar : Int → Option Bytes) (ms : Int) : Bytes :=
  let unavailable := text "Time unavailable"
  match calendar ms with
  | none => unavailable
  | some date =>
    if date.length != 19 then unavailable
    else
      let hundredths := ((ms % 1000) / 10).toNat.toUInt8
      date ++ [48 + hundredths / 10, 48 + hundredths % 10]

def header (calendar : Int → Option Bytes) (now : Int) (level : Level) (scope : Scope) : Bytes :=
  formatTimestamp calendar now ++ text " " ++ level.asText ++ text "(" ++ scope.name ++ text "): "

/-- A writer with a fixed buffer takes what fits. -/
def print (written value : Bytes) : Bytes × Bool :=
  ((written ++ value).take room, written.length + value.length ≤ room)

/-- Truncation must not leave a partial UTF-8 character. -/
def trim (storage : Bytes) : Nat → Nat
  | 0 => 0
  | length + 1 =>
    if utf8ValidateSlice (storage.take (length + 1)) then length + 1 else trim storage length

def clean (byte : UInt8) : UInt8 := if byte < 32 && byte != 10 && byte != 9 then 32 else byte

/-- The text of an entry; long ones end with the marker. -/
def entryText (header message : Bytes) : Bytes :=
  let (written, _) := print [] header
  let (written, fits) := print written message
  let kept := written.take (trim written written.length)
  (if fits then kept else kept ++ marker).map clean

end LogBuffer

open LogBuffer in
structure LogBuffer where
  entries : RingBuffer Entry
  serial : Nat

namespace LogBuffer

def init (undefined : Nat → Entry) : LogBuffer := ⟨⟨undefined, 0, 0⟩, 0⟩

def append (s : LogBuffer) (header message : Bytes) : LogBuffer where
  entries := s.entries.push capacity ⟨s.serial + 1, entryText header message⟩
  serial := s.serial + 1

/-- The copies need memory. -/
def snapshot (s : LogBuffer) (allocated : Bool) : Option (List Entry) :=
  if allocated then some (s.entries.contents capacity) else none

def clear (s : LogBuffer) : LogBuffer := { s with entries := { s.entries with start := 0, count := 0 } }

inductive Op where
  | append (now : Int) (level : Level) (scope : Scope) (message : Bytes)
  | snapshot (allocated : Bool)
  | clear

section Runs

variable (calendar : Int → Option Bytes)

def step (s : LogBuffer) : Op → LogBuffer
  | .append now level scope message => s.append (header calendar now level scope) message
  | .snapshot _ => s
  | .clear => s.clear

def run (undefined : Nat → Entry) (ops : List Op) : LogBuffer :=
  ops.foldl (step calendar) (init undefined)

/-- The lines since the buffer was cleared, each with its number among all lines, and how
many lines there were. -/
def note (log : Nat × List (Nat × Bytes)) : Op → Nat × List (Nat × Bytes)
  | .append now level scope message =>
    (log.1 + 1, log.2 ++ [(log.1 + 1, header calendar now level scope ++ message)])
  | .snapshot _ => log
  | .clear => (log.1, [])

def logged (ops : List Op) : List (Nat × Bytes) := (ops.foldl (note calendar) (0, [])).2

end Runs

/-- The longest valid text that a line starts with and that fits. -/
structure Truncation (line kept : Bytes) : Prop where
  cut : kept <+: line
  fits : kept.length ≤ room
  valid : utf8ValidateSlice kept = true
  longest : ∀ other, other <+: line → other.length ≤ room → utf8ValidateSlice other = true →
    other.length ≤ kept.length

/-- An entry shows a line: its longest truncation without control bytes, then the marker
if the line is too long. -/
def Shows (line shown : Bytes) : Prop :=
  ∃ kept, Truncation line kept ∧
    shown = kept.map clean ++ if line.length ≤ room then [] else marker

theorem formatTimestamp_length (calendar : Int → Option Bytes) (ms : Int) :
    (formatTimestamp calendar ms).length ≤ 21 := by
  unfold formatTimestamp
  dsimp only
  cases calendar ms with
  | none => exact (by decide : (text "Time unavailable").length ≤ 21)
  | some date =>
    dsimp only
    split_ifs with hdate
    · exact (by decide : (text "Time unavailable").length ≤ 21)
    · simp only [bne_iff_ne, not_not] at hdate
      simp [hdate]

theorem header_fits (calendar : Int → Option Bytes) (now : Int) (level : Level) (scope : Scope) :
    (header calendar now level scope).length ≤ room := by
  have hstamp := formatTimestamp_length calendar now
  have hlevel : level.asText.length ≤ 7 := by cases level <;> decide
  have hscope := scope.short
  have hroom : room = 752 := by decide
  have hblank : (text " ").length = 1 := by decide
  have hopen : (text "(").length = 1 := by decide
  have hclose : (text "): ").length = 3 := by decide
  simp only [header, List.length_append, hblank, hopen, hclose]
  omega

theorem trim_valid (storage : Bytes) (length : Nat) :
    utf8ValidateSlice (storage.take (trim storage length)) = true := by
  induction length with
  | zero => rfl
  | succ length ih =>
    rw [trim]
    split_ifs with hvalid
    · exact hvalid
    · exact ih

theorem trim_longest {storage : Bytes} {length n : Nat} (hn : n ≤ length)
    (hvalid : utf8ValidateSlice (storage.take n) = true) : n ≤ trim storage length := by
  induction length with
  | zero => exact hn
  | succ length ih =>
    rw [trim]
    split_ifs with hall
    · exact hn
    · refine ih (Nat.le_of_lt_succ (lt_of_le_of_ne hn ?_))
      rintro rfl
      exact hall hvalid

theorem marker_clean : marker.map clean = marker := by decide

def kept (line : Bytes) : Bytes := (line.take room).take (trim (line.take room) (line.take room).length)

theorem kept_truncation (line : Bytes) : Truncation line (kept line) where
  cut := (List.take_prefix _ _).trans (List.take_prefix _ _)
  fits := (List.length_take_le' _ _).trans (List.length_take_le _ _)
  valid := trim_valid _ _
  longest := by
    intro other hcut hfits hvalid
    have hother : other = (line.take room).take other.length := by
      rw [List.take_take, Nat.min_eq_left hfits]
      exact List.prefix_iff_eq_take.mp hcut
    have hlength : other.length ≤ (line.take room).length := by
      rw [List.length_take]
      exact le_min hfits hcut.length_le
    rw [kept, List.length_take]
    refine le_min (trim_longest hlength ?_) hlength
    rw [← hother]
    exact hvalid

theorem entryText_shows {header message : Bytes} (hheader : header.length ≤ room) :
    Shows (header ++ message) (entryText header message) := by
  have hfirst : (print [] header).1 = header := List.take_of_length_le hheader
  refine ⟨kept (header ++ message), kept_truncation _, ?_⟩
  unfold entryText
  rcases hprint : print [] header with ⟨written, fits⟩
  rw [hprint] at hfirst
  subst hfirst
  rw [List.length_append]
  dsimp only [print]
  by_cases hroom : written.length + message.length ≤ room
  · rw [if_pos (decide_eq_true hroom), if_pos hroom, List.append_nil]
    rfl
  · rw [if_neg (by simpa using hroom), if_neg hroom, List.map_append, marker_clean]
    rfl

theorem marker_valid : utf8ValidateSlice marker = true := by decide

theorem clean_valid {s : Bytes} (h : utf8ValidateSlice s = true) :
    utf8ValidateSlice (s.map clean) = true := by
  refine utf8_map (fun b hb => ?_) (fun b hb => ?_) h
  · unfold clean
    split_ifs
    · decide
    · exact hb
  · have hprintable : ¬b < 32 := not_lt.mpr ((by decide : (32 : UInt8) ≤ 0x80).trans hb)
    simp [clean, hprintable]

theorem Shows.fits {line shown : Bytes} (h : Shows line shown) :
    utf8ValidateSlice shown = true ∧ shown.length ≤ 768 := by
  obtain ⟨kept, htruncation, rfl⟩ := h
  have hlength := htruncation.fits
  have hroom : room + marker.length = 768 := by decide
  rw [List.length_append, List.length_map]
  split_ifs
  · rw [List.append_nil]
    exact ⟨clean_valid htruncation.valid, by simp; omega⟩
  · exact ⟨utf8_append (clean_valid htruncation.valid) marker_valid, by omega⟩

structure Records (row : Nat × Bytes) (entry : Entry) : Prop where
  serial : entry.serial = row.1
  shows : Shows row.2 entry.text

structure Holds (log : Nat × List (Nat × Bytes)) (s : LogBuffer) : Prop where
  ring : s.entries.Valid capacity
  serial : s.serial = log.1
  newest : List.Forall₂ Records (newest capacity log.2) (s.entries.contents capacity)
  numbered : log.2.map Prod.fst = List.range' (log.1 + 1 - log.2.length) log.2.length
  counted : log.2.length ≤ log.1

variable {calendar : Int → Option Bytes} {log : Nat × List (Nat × Bytes)} {s : LogBuffer}

theorem forall₂_newest {α β : Type} {R : α → β → Prop} {n : Nat} {as : List α} {bs : List β}
    (h : List.Forall₂ R as bs) : List.Forall₂ R (newest n as) (newest n bs) := by
  unfold Library.newest
  rw [h.length_eq]
  exact List.forall₂_drop _ h

theorem empty_holds (undefined : Nat → Entry) (n : Nat) : Holds (n, []) ⟨⟨undefined, 0, 0⟩, n⟩ where
  ring := ⟨by simp [capacity], Nat.zero_le _⟩
  serial := rfl
  newest := by
    rw [newest_nil]
    exact .nil
  numbered := rfl
  counted := Nat.zero_le _

theorem step_holds (h : Holds log s) (op : Op) : Holds (note calendar log op) (step calendar s op) := by
  obtain ⟨ring, serial, holds, numbered, counted⟩ := h
  cases op with
  | append now level scope message =>
    refine ⟨ring.push, congrArg (· + 1) serial, ?_, ?_, ?_⟩
    · change List.Forall₂ Records (newest capacity (log.2 ++ [_]))
        ((s.entries.push capacity _).contents capacity)
      rw [RingBuffer.push_contents ring, ← newest_append]
      refine forall₂_newest (List.rel_append holds (.cons ⟨?_, ?_⟩ .nil))
      · exact congrArg (· + 1) serial
      · exact entryText_shows (header_fits calendar now level scope)
    · dsimp only [note]
      rw [List.map_append, numbered, List.length_append, List.length_singleton, List.range'_1_concat]
      have hfirst : log.1 + 1 + 1 - (log.2.length + 1) = log.1 + 1 - log.2.length := by omega
      have hnext : log.1 + 1 - log.2.length + log.2.length = log.1 + 1 := by omega
      rw [hfirst, hnext]
      rfl
    · dsimp only [note]
      rw [List.length_append, List.length_singleton]
      omega
  | snapshot allocated => exact ⟨ring, serial, holds, numbered, counted⟩
  | clear =>
    rw [note, step, clear, serial]
    exact empty_holds s.entries.slots log.1

variable (calendar) in
theorem run_holds (undefined : Nat → Entry) (ops : List Op) :
    Holds (ops.foldl (note calendar) (0, [])) (run calendar undefined ops) := by
  have hsteps : ∀ (ops : List Op) log s, Holds log s →
      Holds (ops.foldl (note calendar) log) (ops.foldl (step calendar) s) := by
    intro ops
    induction ops with
    | nil => exact fun _ _ h => h
    | cons op rest ih => exact fun _ _ h => ih _ _ (step_holds h op)
  exact hsteps ops _ _ (empty_holds undefined 0)

theorem records_serials {rows : List (Nat × Bytes)} {entries : List Entry}
    (h : List.Forall₂ Records rows entries) : entries.map Entry.serial = rows.map Prod.fst := by
  induction h with
  | nil => rfl
  | cons first _ ih => rw [List.map_cons, List.map_cons, first.serial, ih]

theorem records_fit {rows : List (Nat × Bytes)} {entries : List Entry}
    (h : List.Forall₂ Records rows entries) :
    ∀ entry ∈ entries, utf8ValidateSlice entry.text = true ∧ entry.text.length ≤ 768 := by
  induction h with
  | nil => exact fun _ hnone => absurd hnone List.not_mem_nil
  | cons first _ ih =>
    intro entry hentry
    rcases List.mem_cons.mp hentry with rfl | hlater
    · exact first.shows.fits
    · exact ih entry hlater

/-- A snapshot holds the newest entries in order, under consecutive serials, each a text
that the storage holds. -/
theorem snapshot_newest (calendar : Int → Option Bytes) (undefined : Nat → Entry) (ops : List Op) :
    ∃ entries, (run calendar undefined ops).snapshot true = some entries ∧
      List.Forall₂ Records (newest capacity (logged calendar ops)) entries ∧
      (∃ first, entries.map Entry.serial =
        List.range' first (min (logged calendar ops).length capacity)) ∧
      ∀ entry ∈ entries, utf8ValidateSlice entry.text = true ∧ entry.text.length ≤ 768 := by
  obtain ⟨-, -, holds, numbered, -⟩ := run_holds calendar undefined ops
  refine ⟨_, if_pos rfl, holds, ?_, records_fit holds⟩
  rw [records_serials holds, newest_map, numbered, Library.newest, List.drop_range', List.length_range']
  change ∃ first, List.range' _ ((logged calendar ops).length - ((logged calendar ops).length - capacity)) = _
  have hcount : (logged calendar ops).length - ((logged calendar ops).length - capacity) =
      min (logged calendar ops).length capacity := by omega
  rw [hcount]
  exact ⟨_, rfl⟩

/-- Control bytes are not shown. -/
theorem snapshot_cleaned :
    let scope : Scope := ⟨text "test_log", by decide⟩
    let line := header (fun _ => none) 0 .info scope ++ [97, 0, 98]
    ∃ shown, (run (fun _ => none) (fun _ => ⟨0, []⟩) [.append 0 .info scope [97, 0, 98]]).snapshot true =
        some [⟨1, shown⟩] ∧
      line.length ≤ room ∧ utf8ValidateSlice line = true ∧ ¬Truncation line shown := by
  refine ⟨text "Time unavailable info(test_log): a b", by decide +kernel, by decide, by decide,
    fun h => ?_⟩
  exact absurd h.cut (by decide)

end LogBuffer

end Zimbr
