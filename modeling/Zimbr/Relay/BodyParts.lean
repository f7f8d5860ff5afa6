import Mathlib.Data.List.Chain
import Mathlib.Data.List.Forall2
import Zimbr.Relay.TypedstreamBounds
import Zimbr.Protocol.Types

set_option autoImplicit false

/-!
# Parts of a message

The runs of an attributed body divide the text of a message into parts, and each
attachment stands at a U+FFFC of the text.
-/
namespace Zimbr.Relay.BodyParts
open Library

/-- `maxInt(usize)`: the second unit of a surrogate pair is no boundary. -/
def unaligned : Nat := 2 ^ 64 - 1

def offsets : Nat → List Nat → List Nat
  | _, [] => []
  | i, cp :: rest =>
    if cp > 0xFFFF then i :: unaligned :: offsets (i + sequenceLength cp) rest
    else i :: offsets (i + sequenceLength cp) rest

def boundaries (text : Bytes) (cps : List Nat) : List Nat := offsets 0 cps ++ [text.length]

structure Placing where
  cursor : Nat := 0
  parts : List MessagePart := []
  seen : List Nat := []
  used : List Bytes := []

def maxSourceIndex : Nat := 2 ^ 32 - 1

/-- The part that the attributes of a run name, and the attachment if they name one. -/
def placement : List (Bytes × Object) → Option Nat × Option Bytes →
    Except Failure (Option Nat × Option Bytes)
  | [], found => .ok found
  | (key, value) :: rest, (index, transfer) =>
    if key = text "__kIMMessagePartAttributeName" then
      match value with
      | .number n =>
        if n < 0 || n > maxSourceIndex then .error .malformed
        else placement rest (some n.toNat, transfer)
      | _ => .error .malformed
    else if key = text "__kIMFileTransferGUIDAttributeName" then
      match value with
      | .text guid =>
        if guid.length > 1024 then .error .malformed else placement rest (index, some guid)
      | _ => .error .malformed
    else placement rest (index, transfer)

def continued (parts : List MessagePart) (index : Nat) (transfer : Option Bytes) :
    Option MessagePart :=
  match transfer, parts.getLast? with
  | none, some previous =>
    if previous.sourceIndex = some index && previous.kind = .text then some previous else none
  | _, _ => none

def sourceId (index : Nat) : Bytes := text "source:" ++ decimal index

section Decode

variable (hashId : Bytes → Bytes) (text : Bytes) (attachments : List Attachment)

def extendPart (previous : MessagePart) (stop : Nat) : Checked Failure Placing Unit := do
  let start ← Checked.orTrap previous.textStart
  let length ← Checked.sub stop start
  Checked.modify fun s =>
    { s with parts := s.parts.dropLast ++ [{ previous with textLength := some length }] }

def beginPart (index : Nat) (transfer : Option Bytes) (start stop : Nat) :
    Checked Failure Placing Unit := do
  let seen ← Checked.get Placing.seen
  Checked.require (!seen.contains index) .unsupported
  Checked.modify fun s => { s with seen := index :: s.seen }
  let length ← Checked.sub stop start
  let covered ← Checked.slice text start length
  match transfer with
  | some guid => do
    Checked.require (covered = objectReplacement) .unsupported
    let attachment ← Checked.orFail .unsupported (attachments.find? fun a => a.id = hashId guid)
    Checked.modify fun s => { s with
      used := attachment.id :: s.used
      parts := s.parts ++ [{
        id := sourceId index
        sourceIndex := some index
        kind := .attachment
        attachmentId := some attachment.id }] }
  | none => do
    Checked.require (!hasReplacement covered) .unsupported
    Checked.modify fun s => { s with
      parts := s.parts ++ [{
        id := sourceId index
        sourceIndex := some index
        kind := .text
        textStart := some start
        textLength := some length }] }

def placeRange (boundaries : List Nat) (range : Range Object) :
    Checked Failure Placing Unit := do
  let cursor ← Checked.get Placing.cursor
  let left ← Checked.sub boundaries.length cursor
  Checked.require (range.length < left) .malformed
  let start ← Checked.index boundaries cursor
  let next ← Checked.add cursor range.length
  Checked.modify fun s => { s with cursor := next }
  let stop ← Checked.index boundaries next
  Checked.require (start ≠ unaligned && stop ≠ unaligned) .malformed
  let found ← Checked.ofExcept (placement range.attributes (none, none))
  let index ← Checked.orFail .unsupported found.1
  let parts ← Checked.get Placing.parts
  match continued parts index found.2 with
  | some previous => extendPart previous stop
  | none => beginPart hashId text attachments index found.2 start stop

def placeRanges (boundaries : List Nat) : List (Range Object) → Checked Failure Placing Unit
  | [] => return ()
  | range :: rest => do
    placeRange hashId text attachments boundaries range
    placeRanges boundaries rest

/-- Every unit is in a run, and every attachment in a part. -/
def finish (boundaries : List Nat) : Checked Failure Placing (List MessagePart) := do
  let last ← Checked.sub boundaries.length 1
  let cursor ← Checked.get Placing.cursor
  Checked.require (cursor = last) .malformed
  let used ← Checked.get Placing.used
  Checked.require (attachments.all fun a => used.contains a.id) .unsupported
  Checked.get Placing.parts

def place (boundaries : List Nat) (ranges : List (Range Object)) :
    Checked Failure Placing (List MessagePart) := do
  placeRanges hashId text attachments boundaries ranges
  finish attachments boundaries

def decode (bytes : Bytes) : Except (Stop Failure) (List MessagePart) :=
  match read bytes with
  | (.error e, _) => .error e
  | (.ok (.attributed body ranges), reader) =>
    if reader.pos ≠ bytes.length || body ≠ text then .error (.error .unsupported)
    else match codepoints text with
      | none => .error (.error .malformed)
      | some cps => (place hashId text attachments (boundaries text cps) ranges {}).1
  | (.ok _, _) => .error (.error .unsupported)

end Decode

end Zimbr.Relay.BodyParts
