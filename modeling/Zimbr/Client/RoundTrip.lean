import Zimbr.Client.Sse
import Zimbr.Relay.Frames

set_option autoImplicit false

/-!
# Frames across the wire

However a connection cuts the bytes that a relay writes, the client finds the
frames that were written.
-/
namespace Zimbr.Client
open Library

namespace Sse

theorem feed_scan (s : Sse) (bytes : Bytes) (c : Conn Store Bytes) :
    (s.feed (fun frame => return [frame]) bytes).run c = (s.scan bytes, c) := by
  induction bytes generalizing s with
  | nil => rfl
  | cons byte rest ih =>
    rw [feed, scan]
    split_ifs with hlarge hends
    · rfl
    · rw [Sql.bind_run]
      cases hparse : parse (s.buffer ++ [byte]) with
      | error e => rfl
      | ok found =>
        dsimp only [Sql.lift]
        cases found with
        | none =>
          change ((do
            let others ← feed (fun frame => return [frame]) {} rest
            return ([] ++ others.1, others.2) : Tx (List Frame × Sse)).run c) = _
          rw [Sql.bind_run, ih]
          cases scan {} rest <;> rfl
        | some frame =>
          change ((do
            let others ← feed (fun frame => return [frame]) {} rest
            return ([frame] ++ others.1, others.2) : Tx (List Frame × Sse)).run c) = _
          rw [Sql.bind_run, ih]
          cases scan {} rest <;> rfl
    · exact ih _

def feedAll {α : Type} (accept : Frame → Tx (List α)) : Sse → List Bytes → Tx (List α × Sse)
  | s, [] => return ([], s)
  | s, chunk :: rest => do
    let first ← s.feed accept chunk
    let others ← feedAll accept first.2 rest
    return (first.1 ++ others.1, others.2)

theorem feedAll_scan (s : Sse) (chunks : List Bytes) (c : Conn Store Bytes) :
    (s.feedAll (fun frame => return [frame]) chunks).run c = (s.scan chunks.flatten, c) := by
  induction chunks generalizing s with
  | nil => rfl
  | cons chunk rest ih =>
    rw [feedAll, Sql.bind_run, feed_scan, List.flatten_cons, scan_append]
    cases hscan : scan s chunk with
    | error e => rfl
    | ok first =>
      dsimp only
      rw [Sql.bind_run, ih]
      cases scan first.2 rest.flatten <;> rfl

section Lines

variable {s : Sse} {line rest buffer : Bytes} {lines : List Bytes}

theorem scan_bytes (hline : (10 : UInt8) ∉ line) (hs : s.buffer.length ≤ maxFrame) :
    s.scan (line ++ rest) =
      if s.buffer.length + line.length ≤ maxFrame then
        scan { s with buffer := s.buffer ++ line } rest
      else .error .frameTooLarge := by
  induction line generalizing s with
  | nil => simp [hs]
  | cons b line ih =>
    have hb : b ≠ 10 := fun h => hline (h ▸ List.mem_cons_self)
    rw [List.cons_append, scan]
    by_cases hfull : maxFrame ≤ s.buffer.length
    · rw [if_pos hfull, if_neg (by rw [List.length_cons]; omega)]
    · have hnext : s.buffered b = { s with buffer := s.buffer ++ [b] } := by
        simp [buffered, hb]
      rw [if_neg hfull, if_neg (by simp [ends, hb]), hnext,
        ih (fun h => hline (List.mem_cons_of_mem b h)) (by simp; omega)]
      simp [Nat.add_assoc, Nat.add_comm 1]

theorem scan_newline (hblank : trimEnd (s.buffer.drop s.lineStart) ≠ []) :
    s.scan (10 :: rest) =
      if s.buffer.length + 1 ≤ maxFrame then
        scan { buffer := s.buffer ++ [10], lineStart := s.buffer.length + 1 } rest
      else .error .frameTooLarge := by
  rw [scan]
  by_cases hfull : maxFrame ≤ s.buffer.length
  · rw [if_pos hfull, if_neg (by omega)]
  · rw [if_neg hfull, if_neg (by simp [ends, hblank]), if_pos (by omega)]
    rfl

theorem scan_line (hline : (10 : UInt8) ∉ line) (hblank : trimEnd line ≠ [])
    (hbuffer : buffer.length ≤ maxFrame) :
    scan { buffer := buffer, lineStart := buffer.length } ((line ++ [10]) ++ rest) =
      if (buffer ++ (line ++ [10])).length ≤ maxFrame then
        scan { buffer := buffer ++ (line ++ [10]),
               lineStart := (buffer ++ (line ++ [10])).length } rest
      else .error .frameTooLarge := by
  rw [List.append_assoc, scan_bytes hline hbuffer]
  dsimp only
  by_cases hfit : buffer.length + line.length ≤ maxFrame
  · rw [if_pos hfit, List.cons_append, List.nil_append, scan_newline (by simpa using hblank)]
    simp [Nat.add_assoc]
  · rw [if_neg hfit, if_neg (by simp; omega)]

theorem scan_lines (buffer rest : Bytes) (hlines : ∀ line ∈ lines, (10 : UInt8) ∉ line ∧ trimEnd line ≠ [])
    (hbuffer : buffer.length ≤ maxFrame) :
    scan { buffer := buffer, lineStart := buffer.length } (lines.flatMap (· ++ [10]) ++ rest) =
      if (buffer ++ lines.flatMap (· ++ [10])).length ≤ maxFrame then
        scan { buffer := buffer ++ lines.flatMap (· ++ [10]),
               lineStart := (buffer ++ lines.flatMap (· ++ [10])).length } rest
      else .error .frameTooLarge := by
  induction lines generalizing buffer with
  | nil => simp [hbuffer]
  | cons line lines ih =>
    obtain ⟨hline, hblank⟩ := hlines line List.mem_cons_self
    have hrest := fun l hl => hlines l (List.mem_cons_of_mem line hl)
    rw [List.flatMap_cons, List.append_assoc, scan_line hline hblank hbuffer]
    by_cases hfit : (buffer ++ (line ++ [10])).length ≤ maxFrame
    · rw [if_pos hfit, ih _ hrest hfit]
      simp only [List.append_assoc]
    · rw [if_neg hfit, if_neg]
      simp only [List.length_append] at hfit ⊢
      omega

theorem splitOn_framed (hlines : ∀ line ∈ lines, (10 : UInt8) ∉ line) :
    (Relay.framed lines).splitOn 10 = lines ++ [[], []] := by
  induction lines with
  | nil => rfl
  | cons line lines ih =>
    have hframed : Relay.framed (line :: lines) = line ++ 10 :: Relay.framed lines := by
      simp [Relay.framed]
    rw [hframed, List.splitOn_append_cons_self_of_not_mem (hlines line List.mem_cons_self),
      ih fun l hl => hlines l (List.mem_cons_of_mem line hl)]
    rfl

/-- A frame is parsed as soon as its last byte arrives, and nothing of it is kept. -/
theorem scan_framed (hlines : ∀ line ∈ lines, (10 : UInt8) ∉ line ∧ trimEnd line ≠ []) :
    scan {} (Relay.framed lines ++ rest) =
      if (Relay.framed lines).length ≤ maxFrame then
        match parse (Relay.framed lines) with
        | .error e => .error e
        | .ok found => (scan {} rest).map fun others => (found.toList ++ others.1, others.2)
      else .error .frameTooLarge := by
  have hstart := scan_lines [] ([10] ++ rest) hlines (by simp)
  simp only [List.nil_append] at hstart
  change scan {} _ = _ at hstart
  rw [Relay.framed, List.append_assoc, hstart, List.length_append, List.length_singleton]
  by_cases hfit : (lines.flatMap (· ++ [10])).length ≤ maxFrame
  · rw [if_pos hfit, List.singleton_append, scan]
    by_cases hlast : maxFrame ≤ (lines.flatMap (· ++ [10])).length
    · rw [if_pos hlast, if_neg (by omega)]
    · have hends : ends { buffer := lines.flatMap (· ++ [10]),
                          lineStart := (lines.flatMap (· ++ [10])).length } 10 = true := by
        simp only [ends, List.drop_length]
        rfl
      rw [if_neg hlast, if_pos hends]
      exact (if_pos (by omega)).symm
  · rw [if_neg hfit, if_neg (by omega)]

end Lines

section Parsing

variable {f : Frame} {key value : Bytes}

theorem trimEnd_eq {line : Bytes} (h : line.getLast? ≠ some 13) : trimEnd line = line := by
  refine List.rdropWhile_eq_self_iff.mpr fun hne h13 => h ?_
  rw [List.getLast?_eq_some_getLast hne, of_decide_eq_true h13]

theorem keyed_line (hkey : (58 : UInt8) ∉ key) : keyed (key ++ 58 :: 32 :: value) = (key, value) := by
  have htake : (key ++ 58 :: 32 :: value).takeWhile (fun b => decide (b ≠ 58)) = key := by
    have hplain : ∀ b ∈ key, decide (b ≠ 58) = true := by
      intro b hb
      exact decide_eq_true fun h => hkey (h ▸ hb)
    rw [List.takeWhile_append_of_pos hplain]
    simp
  rw [keyed, htake]
  simp

/-- A line whose value ends with no carriage return is taken as it is. -/
theorem addLine_line (hkey : key ∈ [text "id", text "event", text "data"])
    (hvalue : value.getLast? ≠ some 13) :
    addLine f (key ++ 58 :: 32 :: value) =
      if key = text "id" then { f with id := value }
      else if key = text "event" then { f with event := value }
      else { f with data := if f.data = [] then value else f.data ++ 10 :: value } := by
  have hkeys : ∀ k ∈ [text "id", text "event", text "data"],
      (58 : UInt8) ∉ k ∧ ∃ b rest, k = b :: rest ∧ b ≠ 58 := by
    intro k hk
    simp only [List.mem_cons, List.not_mem_nil, or_false] at hk
    rcases hk with rfl | rfl | rfl
    · exact ⟨by decide, _, _, rfl, by decide⟩
    · exact ⟨by decide, _, _, rfl, by decide⟩
    · exact ⟨by decide, _, _, rfl, by decide⟩
  have hlast : (key ++ 58 :: 32 :: value).getLast? ≠ some 13 := by
    cases value with
    | nil => simp
    | cons b rest => simpa using hvalue
  obtain ⟨hcolon, b, rest, hhead, hb⟩ := hkeys key hkey
  have hshown : (decide (key ++ 58 :: 32 :: value = []) ||
      decide ((key ++ 58 :: 32 :: value).head? = some 58)) = false := by
    simp [hhead, hb]
  rw [addLine, trimEnd_eq hlast]
  dsimp only
  rw [if_neg (by rw [hshown]; exact Bool.false_ne_true), keyed_line hcolon]
  dsimp only
  simp only [List.mem_cons, List.not_mem_nil, or_false] at hkey
  rcases hkey with rfl | rfl | rfl <;> rfl

end Parsing

end Sse

/-- What the client gets of an event; the record lacks only insignificant whitespace. -/
structure Received (d : Relay.Delivery) (record : Bytes) (frame : Frame) : Prop where
  id : frame.id = d.cursor
  event : frame.event = text d.event.record.eventType
  data : ∃ kept, frame.data = Relay.envelope d kept ∧ Json.validate kept = true ∧
    Json.significant false false kept = Json.significant false false record

def sentEvents (items : List Relay.Sent) : List (Relay.Event × Bytes) :=
  items.filterMap fun item => match item with
    | .event e record => some (e, record)
    | _ => none

section Frames
open Sse

variable {epoch : Bytes} {d : Relay.Delivery} {record : Bytes}

theorem sextet_line {b : UInt8} (h : (sextet b).isSome = true) : b ≠ 10 := by
  rintro rfl
  exact nomatch h

theorem cursor_line (sequence : Nat) (he : validId epoch = true) :
    (10 : UInt8) ∉ cursor epoch sequence ∧ (cursor epoch sequence).getLast? ≠ some 13 := by
  have hdigits : ∀ b ∈ decimal sequence, b ≠ 10 ∧ b ≠ 13 := by
    intro b hb
    have hdigit := decimal_digits sequence b hb
    refine ⟨?_, ?_⟩ <;> rintro rfl <;> exact nomatch hdigit
  simp only [validId, Bool.and_eq_true, List.all_eq_true] at he
  constructor
  · intro h10
    rcases List.mem_append.mp h10 with h | h
    · exact sextet_line (he.1.2 10 h) rfl
    · rcases List.mem_cons.mp h with h | h
      · exact absurd h (by decide)
      · exact (hdigits 10 h).1 rfl
  · intro h13
    rw [cursor, ← List.singleton_append, ← List.append_assoc,
      List.getLast?_append_of_ne_nil _ (decimal_ne_nil sequence)] at h13
    exact (hdigits 13 (List.mem_of_getLast? h13)).2 rfl

theorem eventType_end (r : Relay.Record) : (text r.eventType).getLast? ≠ some 13 := by
  cases r <;> simp only [Relay.Record.eventType] <;> decide

theorem envelope_end (d : Relay.Delivery) (record : Bytes) :
    (Relay.envelope d record).getLast? = some 125 := by
  have hend : text "\x7d" = [125] := rfl
  rw [Relay.envelope, hend, List.getLast?_append]
  rfl

theorem frameLines_plain (hcursor : (10 : UInt8) ∉ d.cursor ∧ d.cursor.getLast? ≠ some 13)
    (hrecord : Json.validate record = true) :
    ∀ line ∈ Relay.frameLines d record, (10 : UInt8) ∉ line ∧ trimEnd line ≠ [] := by
  have hshown {key value : Bytes} (hkey : key ≠ [] ∧ (10 : UInt8) ∉ key ∧ key.head? ≠ some 13)
      (hvalue : (10 : UInt8) ∉ value) : (10 : UInt8) ∉ key ++ value ∧ trimEnd (key ++ value) ≠ [] := by
    refine ⟨fun h => ?_, fun h => ?_⟩
    · rcases List.mem_append.mp h with h | h
      · exact hkey.2.1 h
      · exact hvalue h
    · obtain ⟨b, rest, rfl⟩ := List.exists_cons_of_ne_nil hkey.1
      have hall := List.rdropWhile_eq_nil_iff.mp h b (by simp)
      exact hkey.2.2 (congrArg some (of_decide_eq_true hall))
  have hdata := Relay.envelope_inline d (Json.stringify_inline hrecord)
  intro line hline
  simp only [Relay.frameLines, List.mem_cons, List.not_mem_nil, or_false] at hline
  rcases hline with rfl | rfl | rfl
  · exact hshown (by decide) hcursor.1
  · exact hshown (by decide) (Relay.eventType_inline _).line
  · exact hshown (by decide) hdata.line

theorem parse_event (hcursor : (10 : UInt8) ∉ d.cursor ∧ d.cursor.getLast? ≠ some 13)
    (hid : d.cursor ≠ []) (hrecord : Json.validate record = true) :
    parse (Relay.frameText d record) =
      .ok (some { id := d.cursor, event := text d.event.record.eventType,
                  data := Relay.envelope d (Json.stringify record) }) := by
  have hlines := frameLines_plain hcursor hrecord
  have hdata := Relay.envelope_inline d (Json.stringify_inline hrecord)
  have hend : (Relay.envelope d (Json.stringify record)).getLast? ≠ some 13 := by
    rw [envelope_end]
    decide
  have hne : Relay.envelope d (Json.stringify record) ≠ [] := by
    intro hnil
    have h125 := envelope_end d (Json.stringify record)
    rw [hnil] at h125
    exact nomatch h125
  have htype : text d.event.record.eventType ≠ [] := by
    cases d.event.record <;> simp only [Relay.Record.eventType] <;> decide
  have hkey (key value : Bytes) : key ++ [58, 32] ++ value = key ++ 58 :: 32 :: value := by simp
  have hsplit : Relay.frameLines d record ++ [[], []] =
      [text "id" ++ 58 :: 32 :: d.cursor,
        text "event" ++ 58 :: 32 :: text d.event.record.eventType,
        text "data" ++ 58 :: 32 :: Relay.envelope d (Json.stringify record), [], []] := by
    rw [← hkey, ← hkey, ← hkey]
    rfl
  have hcursorLine (f : Frame) : addLine f (text "id" ++ 58 :: 32 :: d.cursor) =
      { f with id := d.cursor } := by
    rw [addLine_line (by simp) hcursor.2, if_pos rfl]
  have htypeLine (f : Frame) :
      addLine f (text "event" ++ 58 :: 32 :: text d.event.record.eventType) =
        { f with event := text d.event.record.eventType } := by
    rw [addLine_line (by simp) (eventType_end _), if_neg (by decide), if_pos rfl]
  have hdataLine (f : Frame) (hf : f.data = []) :
      addLine f (text "data" ++ 58 :: 32 :: Relay.envelope d (Json.stringify record)) =
        { f with data := Relay.envelope d (Json.stringify record) } := by
    rw [addLine_line (by simp) hend, if_neg (by decide), if_neg (by decide), if_pos hf]
  have hblank (f : Frame) : addLine f [] = f := rfl
  rw [Relay.frameText_lines, parse, splitOn_framed fun line hline => (hlines line hline).1, hsplit]
  simp only [List.foldl_cons, List.foldl_nil, hcursorLine, htypeLine, hblank]
  rw [hdataLine _ rfl]
  simp [hne, hid, htype, hdata.utf8]

def foundIn (epoch : Bytes) : Relay.Sent → Option Frame
  | .event e record => some {
      id := cursor epoch e.sequence
      event := text e.record.eventType
      data := Relay.envelope (Relay.deliver epoch e) (Json.stringify record) }
  | _ => none

theorem scan_comment {comment rest : Bytes} (hline : (10 : UInt8) ∉ comment)
    (hblank : trimEnd comment ≠ []) (hparse : parse (Relay.framed [comment]) = .ok none) :
    scan {} (Relay.framed [comment] ++ rest) =
      if (Relay.framed [comment]).length ≤ maxFrame then scan {} rest
      else .error .frameTooLarge := by
  rw [scan_framed (fun line h => by rw [List.mem_singleton.mp h]; exact ⟨hline, hblank⟩), hparse]
  split_ifs
  · dsimp only
    cases scan {} rest <;> rfl
  · rfl

theorem scan_sent (he : validId epoch = true) (item : Relay.Sent)
    (hvalid : ∀ e record, item = .event e record → Json.validate record = true) :
    ∃ written, item.bytes epoch = some written ∧ ∀ rest, scan {} (written ++ rest) =
      if written.length ≤ maxFrame then
        (scan {} rest).map fun others => ((foundIn epoch item).toList ++ others.1, others.2)
      else .error .frameTooLarge := by
  have hskip (r : Except Error (List Frame × Sse)) :
      r.map (fun others => (([] : List Frame) ++ others.1, others.2)) = r := by
    cases r <;> rfl
  cases item with
  | connected =>
    refine ⟨_, rfl, fun rest => ?_⟩
    change scan {} (Relay.framed [text ": connected"] ++ rest) = _
    rw [scan_comment (by decide) (by decide) rfl]
    simp only [foundIn, Option.toList_none, hskip]
    rfl
  | heartbeat =>
    refine ⟨_, rfl, fun rest => ?_⟩
    change scan {} (Relay.framed [text ": heartbeat"] ++ rest) = _
    rw [scan_comment (by decide) (by decide) rfl]
    simp only [foundIn, Option.toList_none, hskip]
    rfl
  | event e record =>
    have hrecord := hvalid e record rfl
    have hcursor := cursor_line e.sequence he
    have hid : cursor epoch e.sequence ≠ [] := by simp [cursor]
    refine ⟨_, if_pos hrecord, fun rest => ?_⟩
    have hparse := parse_event (d := Relay.deliver epoch e) hcursor hid hrecord
    rw [Relay.frameText_lines] at hparse ⊢
    rw [scan_framed (frameLines_plain hcursor hrecord), hparse]
    rfl

theorem scan_wire (he : validId epoch = true) {items : List Relay.Sent}
    (hvalid : ∀ e record, Relay.Sent.event e record ∈ items → Json.validate record = true) :
    ∃ written, Relay.wire epoch items = some written ∧ scan {} written.flatten =
      if ∀ frame ∈ written, frame.length ≤ maxFrame then .ok (items.filterMap (foundIn epoch), {})
      else .error .frameTooLarge := by
  induction items with
  | nil => exact ⟨[], rfl, rfl⟩
  | cons item rest ih =>
    obtain ⟨first, hfirst, hscan⟩ := scan_sent he item
      fun e record h => hvalid e record (h ▸ List.mem_cons_self)
    obtain ⟨others, hothers, hrest⟩ := ih fun e record h => hvalid e record (List.mem_cons_of_mem _ h)
    refine ⟨first :: others, ?_, ?_⟩
    · rw [Relay.wire] at hothers ⊢
      rw [List.mapM_cons, hfirst, hothers]
      rfl
    · rw [List.flatten_cons, hscan, hrest]
      simp only [List.forall_mem_cons]
      by_cases hfit : first.length ≤ maxFrame
      · by_cases hall : ∀ frame ∈ others, frame.length ≤ maxFrame
        · rw [if_pos hfit, if_pos hall, if_pos ⟨hfit, hall⟩]
          cases hfound : foundIn epoch item <;> simp [Except.map, hfound]
        · rw [if_pos hfit, if_neg hall, if_neg fun h => hall h.2]
          rfl
      · rw [if_neg hfit, if_neg fun h => hfit h.1]

theorem found_received (items : List Relay.Sent)
    (hvalid : ∀ e record, Relay.Sent.event e record ∈ items → Json.validate record = true) :
    List.Forall₂ (fun sent frame => Received (Relay.deliver epoch sent.1) sent.2 frame)
      (sentEvents items) (items.filterMap (foundIn epoch)) := by
  induction items with
  | nil => exact .nil
  | cons item rest ih =>
    have ih := ih fun e record h => hvalid e record (List.mem_cons_of_mem _ h)
    cases item with
    | connected => exact ih
    | heartbeat => exact ih
    | event e record =>
      have hrecord := hvalid e record List.mem_cons_self
      have hscan : ∃ s, record.foldlM Json.Scanner.step {} = some s := by
        rw [Json.validate, Bool.and_eq_true, Option.any_eq_true] at hrecord
        obtain ⟨-, s, hs, -⟩ := hrecord
        exact ⟨s, hs⟩
      obtain ⟨s, hs⟩ := hscan
      refine .cons ⟨rfl, rfl, Json.stringify record, rfl, ?_, ?_⟩ ih
      · exact Json.validate_stringify hrecord
      · exact Json.significant_stringify hs

/-- Whatever the cuts, the client accepts each event of a stream once and in order, and
keeps no residue, exactly if no frame is over its bound. -/
theorem stream_round_trip (epoch : Bytes) (items : List Relay.Sent) (he : validId epoch = true)
    (hvalid : ∀ e record, Relay.Sent.event e record ∈ items → Json.validate record = true) :
    ∃ written, Relay.wire epoch items = some written ∧
      ∀ (chunks : List Bytes) (c : Conn Store Bytes), chunks.flatten = written.flatten →
        ((∀ frame ∈ written, frame.length ≤ maxFrame) →
          ∃ frames, (Sse.feedAll (fun frame => return [frame]) {} chunks).run c =
              (.ok (frames, {}), c) ∧
            List.Forall₂ (fun sent frame => Received (Relay.deliver epoch sent.1) sent.2 frame)
              (sentEvents items) frames) ∧
        ((∃ frame ∈ written, maxFrame < frame.length) →
          (Sse.feedAll (fun frame => return [frame]) {} chunks).run c =
            (.error .frameTooLarge, c)) := by
  obtain ⟨written, hwire, hscan⟩ := scan_wire he hvalid
  refine ⟨written, hwire, fun chunks c hchunks => ⟨fun hfit => ?_, fun hlarge => ?_⟩⟩
  · refine ⟨items.filterMap (foundIn epoch), ?_, found_received items hvalid⟩
    rw [feedAll_scan, hchunks, hscan, if_pos hfit]
  · obtain ⟨frame, hframe, hlarge⟩ := hlarge
    rw [feedAll_scan, hchunks, hscan, if_neg fun h => absurd (h frame hframe) (by omega)]

namespace Sample

def streamEpoch : Bytes := text "EAAAAAAAAAAAAAAAAAAAAA"

def named : Relay.Event where
  sequence := 7
  record := .identity { service := text "iMessage", address := text "+15551234567" }
  origin := .live

def spaced : Bytes := text "\x7b\r\n  \"text\": \"a\\n\"\n\x7d\r\n"

/-- A record of one text of `n` bytes. -/
def long (n : Nat) : Bytes :=
  text "\x7b\"text\":\"" ++ (List.replicate n 97 ++ text "\"\x7d")

end Sample

set_option maxRecDepth 4000 in
/-- Every byte arrives on its own. -/
theorem stream_round_trip_spaced :
    ∃ written, Relay.wire Sample.streamEpoch
        [.connected, .event Sample.named Sample.spaced, .heartbeat] = some written ∧
      ∃ frame, (Sse.feedAll (fun frame => return [frame]) {}
          (written.flatten.map fun b => [b])).run { db := {} } =
            (.ok ([frame], {}), { db := {} }) ∧
        Received (Relay.deliver Sample.streamEpoch Sample.named) Sample.spaced frame := by
  have hvalid : ∀ e record, Relay.Sent.event e record ∈
      ([.connected, .event Sample.named Sample.spaced, .heartbeat] : List Relay.Sent) →
        Json.validate record = true := by
    intro e record h
    simp only [List.mem_cons, List.not_mem_nil, reduceCtorEq, false_or, or_false,
      Relay.Sent.event.injEq] at h
    rw [h.2]
    decide
  obtain ⟨written, hwire, hall⟩ := stream_round_trip Sample.streamEpoch
    [.connected, .event Sample.named Sample.spaced, .heartbeat] (by decide) hvalid
  have hfit : ∀ frame ∈ (Relay.wire Sample.streamEpoch
      [.connected, .event Sample.named Sample.spaced, .heartbeat]).getD [],
        frame.length ≤ maxFrame := by decide
  rw [hwire] at hfit
  have hchunks : (written.flatten.map fun b => [b]).flatten = written.flatten := by
    rw [← List.flatMap_def]
    exact List.flatMap_singleton' _
  obtain ⟨frames, hrun, hreceived⟩ := (hall _ { db := {} } hchunks).1 hfit
  cases hreceived with
  | cons hfirst hrest =>
    cases hrest
    exact ⟨written, hwire, _, hrun, hfirst⟩

theorem long_scan {s : Json.Scanner} (n : Nat) (h : s.mode = .string) :
    (List.replicate n 97).foldlM Json.Scanner.step s = some s := by
  induction n with
  | zero => rfl
  | succ n ih =>
    have hstep : s.step 97 = some s := by
      rw [Json.Scanner.step, h]
      rfl
    rw [List.replicate_succ, List.foldlM_cons, hstep]
    exact ih

theorem long_valid (n : Nat) : Json.validate (Sample.long n) = true := by
  have hutf8 : utf8ValidateSlice (Sample.long n) = true := by
    have htext {s : Bytes} (hs : s.all (fun b => decide (b < (0x80 : UInt8))) = true) :
        utf8ValidateSlice s = true := utf8_of_ascii (List.all_iff_forall_prop.mp hs)
    refine utf8_append (htext (by decide)) (utf8_append ?_ (htext (by decide)))
    refine utf8_of_ascii fun b hb => ?_
    rw [List.eq_of_mem_replicate hb]
    decide
  have hopen : (text "\x7b\"text\":\"").foldlM Json.Scanner.step {} =
      some { mode := .string, stack := [true] } := by decide
  rw [Json.validate, hutf8, Sample.long, List.foldlM_append, hopen]
  change (((List.replicate n 97 ++ text "\"\x7d").foldlM Json.Scanner.step
    { mode := .string, stack := [true] }).any _) = true
  rw [List.foldlM_append, long_scan n rfl]
  decide

theorem long_kept (n : Nat) : Json.stringify (Sample.long n) = Sample.long n := by
  have hends : ∀ b ∈ text "\x7b\"text\":\"" ++ text "\"\x7d",
      (decide (b ≠ 13) && decide (b ≠ 10)) = true := List.all_iff_forall_prop.mp (by decide)
  refine List.filter_eq_self.mpr fun b hb => ?_
  rcases List.mem_append.mp hb with hb | hb
  · exact hends b (List.mem_append_left _ hb)
  · rcases List.mem_append.mp hb with hb | hb
    · rw [List.eq_of_mem_replicate hb]
      rfl
    · exact hends b (List.mem_append_right _ hb)

theorem long_frame (d : Relay.Delivery) (n : Nat) :
    n < (Relay.frameText d (Sample.long n)).length := by
  have hopen : (text "id: ").length = 4 := rfl
  simp only [Relay.frameText, Relay.envelope, long_kept, List.length_append]
  simp only [Sample.long, List.length_append, List.length_replicate]
  omega

/-- An event whose text is a megabyte ends the stream. -/
theorem stream_round_trip_large :
    Json.validate (Sample.long maxFrame) = true ∧
      ∃ written, Relay.wire Sample.streamEpoch [.event Sample.named (Sample.long maxFrame)] =
          some written ∧
        (Sse.feedAll (fun frame => return [frame]) {} written).run { db := {} } =
          (.error .frameTooLarge, { db := {} }) := by
  have hvalid : ∀ e record, Relay.Sent.event e record ∈
      ([.event Sample.named (Sample.long maxFrame)] : List Relay.Sent) →
        Json.validate record = true := by
    intro e record h
    rw [List.mem_singleton, Relay.Sent.event.injEq] at h
    rw [h.2]
    exact long_valid maxFrame
  have hwire : Relay.wire Sample.streamEpoch [.event Sample.named (Sample.long maxFrame)] =
      some [Relay.frameText (Relay.deliver Sample.streamEpoch Sample.named)
        (Sample.long maxFrame)] := by
    rw [Relay.wire, List.mapM_cons, Relay.Sent.bytes, if_pos (long_valid maxFrame)]
    rfl
  have hepoch : validId Sample.streamEpoch = true := by decide
  obtain ⟨written, hwritten, hscan⟩ := scan_wire hepoch hvalid
  refine ⟨long_valid maxFrame, written, hwritten, ?_⟩
  rw [Sse.feedAll_scan, hscan, if_neg]
  rw [hwire] at hwritten
  rw [← Option.some.inj hwritten]
  intro hfit
  have hlength := hfit _ List.mem_cons_self
  exact absurd (long_frame _ maxFrame) (not_lt.mpr hlength)

end Frames

end Zimbr.Client
