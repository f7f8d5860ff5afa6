import Mathlib.Data.List.DropRight
import Zimbr.Client.Schema

set_option autoImplicit false

/-!
# The event stream's parser

Frames are committed only at a blank line. A disconnect discards the partial
frame and resumes from the store's committed cursor.
-/
namespace Zimbr.Client
open Library

structure Frame where
  id : Bytes
  event : Bytes
  data : Bytes
  deriving DecidableEq, Repr

structure Sse where
  buffer : Bytes := []
  lineStart : Nat := 0
  deriving DecidableEq, Repr

namespace Sse

/-- 1 MiB bounds memory when a peer never sends the terminating blank line. -/
def maxFrame : Nat := 1024 * 1024

def trimEnd (line : Bytes) : Bytes := line.rdropWhile fun b => decide (b = 13)

/-- The key and the value of a line; one space before the value is dropped. -/
def keyed (line : Bytes) : Bytes × Bytes :=
  let key := line.takeWhile fun b => decide (b ≠ 58)
  let value := line.drop (key.length + 1)
  (key, if value.head? = some 32 then value.tail else value)

/-- What one line of a frame sets; data of several lines is joined. -/
def addLine (f : Frame) (raw : Bytes) : Frame :=
  let line := trimEnd raw
  if line = [] || line.head? = some 58 then f
  else
    let (key, value) := keyed line
    if key = text "id" then { f with id := value }
    else if key = text "event" then { f with event := value }
    else if key = text "data" then
      { f with data := if f.data = [] then value else f.data ++ 10 :: value }
    else f

/-- A frame without data is a comment. -/
def parse (frame : Bytes) : Except Error (Option Frame) :=
  let f := (frame.splitOn 10).foldl addLine { id := [], event := [], data := [] }
  if f.data = [] then .ok none
  else if f.id = [] || f.event = [] || !utf8ValidateSlice f.data then .error .invalidFrame
  else .ok (some f)

def buffered (s : Sse) (byte : UInt8) : Sse where
  buffer := s.buffer ++ [byte]
  lineStart := if byte = 10 then s.buffer.length + 1 else s.lineStart

def ends (s : Sse) (byte : UInt8) : Bool :=
  byte = 10 && trimEnd (s.buffer.drop s.lineStart) = []

def acceptFound {α : Type} (accept : Frame → Tx (List α)) : Option Frame → Tx (List α)
  | some frame => accept frame
  | none => return []

/-- Each complete frame is accepted as the bytes arrive. -/
def feed {α : Type} (accept : Frame → Tx (List α)) : Sse → Bytes → Tx (List α × Sse)
  | s, [] => return ([], s)
  | s, byte :: rest =>
    if maxFrame ≤ s.buffer.length then Sql.throw .frameTooLarge
    else if s.ends byte then do
      let found ← Sql.lift (parse (s.buffer ++ [byte]))
      let first ← acceptFound accept found
      let others ← feed accept {} rest
      return (first ++ others.1, others.2)
    else feed accept (s.buffered byte) rest

def scan : Sse → Bytes → Except Error (List Frame × Sse)
  | s, [] => .ok ([], s)
  | s, byte :: rest =>
    if maxFrame ≤ s.buffer.length then .error .frameTooLarge
    else if s.ends byte then
      match parse (s.buffer ++ [byte]) with
      | .error e => .error e
      | .ok found => (scan {} rest).map fun others => (found.toList ++ others.1, others.2)
    else scan (s.buffered byte) rest

/-- A stream is cut into the same frames wherever its deliveries are cut. -/
theorem scan_append (s : Sse) (first second : Bytes) :
    scan s (first ++ second) = match scan s first with
      | .error e => .error e
      | .ok (frames, s') => (scan s' second).map fun others => (frames ++ others.1, others.2) := by
  induction first generalizing s with
  | nil =>
    simp only [List.nil_append, scan]
    cases scan s second <;> rfl
  | cons byte rest ih =>
    rw [List.cons_append, scan, scan]
    split_ifs with hlarge hends
    · rfl
    · cases hparse : parse (s.buffer ++ [byte]) with
      | error e => rfl
      | ok found =>
        simp only [ih]
        cases scan {} rest with
        | error e => rfl
        | ok others =>
          simp only [Except.map]
          cases scan others.2 second with
          | error e => rfl
          | ok more => simp
    · exact ih _

end Sse

def gather {α : Type} (accept : Frame → Tx (List α)) : List Frame → Tx (List α)
  | [] => return []
  | frame :: rest => do
    let first ← accept frame
    let others ← gather accept rest
    return first ++ others

section Feed

variable {α : Type} {accept : Frame → Tx (List α)} {c c' : Conn Store Bytes} {items : List α}

theorem feed_ok {s s' : Sse} {bytes : Bytes}
    (h : (s.feed accept bytes).run c = (.ok (items, s'), c')) :
    ∃ frames, s.scan bytes = .ok (frames, s') ∧ (gather accept frames).run c = (.ok items, c') := by
  induction bytes generalizing s c items with
  | nil =>
    obtain ⟨hresult, hc⟩ := Sql.pure_ok h
    obtain ⟨rfl, rfl⟩ := Prod.mk.inj hresult
    rw [hc]
    exact ⟨[], rfl, rfl⟩
  | cons byte rest ih =>
    unfold Sse.feed at h
    split_ifs at h with hlarge hends
    · exact (Sql.throw_ok h).elim
    · obtain ⟨found, c₁, hfound, hrest⟩ := Sql.bind_ok h
      obtain ⟨hparse, hc₁⟩ := Sql.lift_ok hfound
      obtain ⟨first, c₂, hfirst, hrest⟩ := Sql.bind_ok hrest
      obtain ⟨⟨others, s₁⟩, c₃, hothers, hrest⟩ := Sql.bind_ok hrest
      obtain ⟨hresult, hc₃⟩ := Sql.pure_ok hrest
      obtain ⟨rfl, rfl⟩ := Prod.mk.inj hresult
      rw [hc₁] at hfirst
      rw [← hc₃] at hothers
      obtain ⟨frames, hscan, hgather⟩ := ih hothers
      refine ⟨found.toList ++ frames, ?_, ?_⟩
      · rw [Sse.scan, if_neg hlarge, if_pos hends, hparse, hscan]
        rfl
      · cases found with
        | none =>
          obtain ⟨rfl, rfl⟩ := Sql.pure_ok hfirst
          exact hgather
        | some frame =>
          change (accept frame).run c = _ at hfirst
          change (gather accept (frame :: frames)).run c = _
          rw [gather, Sql.bind_run, hfirst]
          simp only [Sql.bind_run, hgather]
          rfl
    · obtain ⟨frames, hscan, hgather⟩ := ih h
      refine ⟨frames, ?_, hgather⟩
      rw [Sse.scan, if_neg hlarge, if_neg hends]
      exact hscan

end Feed

end Zimbr.Client
