import Zimbr.Library.Checked
import Zimbr.Protocol.Utf16
import Zimbr.Relay.MessagesDb

set_option autoImplicit false

/-!
# Attributed bodies

A restricted grammar of Foundation typed streams. Strings, classes and objects
are remembered in tables that later references index.
-/
namespace Zimbr.Relay.BodyParts
open Library

inductive Failure where
  | malformed | unsupported | oversized
  deriving DecidableEq, Repr

structure Range (ω : Type) where
  length : Nat
  attributes : List (Bytes × ω)

inductive Object where
  | pending
  | class' (name : Bytes)
  | text (bytes : Bytes)
  | number (n : Int)
  | dict (entries : List (Bytes × Object))
  | attributed (text : Bytes) (ranges : List (Range Object))

structure Reader where
  pos : Nat := 0
  strings : List Bytes := []
  objects : List Object := []
  visits : Nat := 0

abbrev Reading (α : Type) : Type := Checked Failure Reader α

/-- The entries of each table, and the visited objects. -/
def maxObjects : Nat := 8192

def maxDepth : Nat := 32

def little (bytes : Bytes) : Nat := bytes.foldr (fun b n => b.toNat + 256 * n) 0

def number (signed : Bool) (bits n : Nat) : Int :=
  if signed && 2 ^ (bits - 1) ≤ n then (n : Int) - 2 ^ bits else n

section Primitives

variable (bytes : Bytes)

def take (length : Nat) : Reading Bytes := do
  let pos ← Checked.get Reader.pos
  let left ← Checked.sub bytes.length pos
  Checked.require (length ≤ left) .malformed
  let result ← Checked.slice bytes pos length
  let next ← Checked.add pos length
  Checked.modify fun s => { s with pos := next }
  return result

def readByte : Reading UInt8 := do
  let taken ← take bytes 1
  Checked.index taken 0

def integer (signed : Bool) : Reading Int := do
  let lead ← readByte bytes
  if lead = 0x81 then do
    let payload ← take bytes 2
    return number signed 16 (little payload)
  else if lead = 0x82 then do
    let payload ← take bytes 4
    return number signed 32 (little payload)
  else if lead = 0x80 || (0x83 ≤ lead && lead ≤ 0x86) then Checked.fail .unsupported
  else return number signed 8 lead.toNat

def readLength : Reading Nat := do
  let n ← integer bytes false
  Checked.require (0 ≤ n && n ≤ MessagesDb.maxDecode) .oversized
  return n.toNat

/-- References count from -110. -/
def ref (count : Nat) : Reading Nat := do
  let n ← integer bytes true
  Checked.require (-110 ≤ n) .malformed
  let n ← Checked.int64 (n + 110)
  Checked.require (n < count) .malformed
  return n.toNat

/-- `self.bytes[self.pos]`. -/
def peek : Reading UInt8 := do
  let pos ← Checked.get Reader.pos
  Checked.index bytes pos

/-- `self.pos += 1`. -/
def advance : Reading Unit := do
  let pos ← Checked.get Reader.pos
  let next ← Checked.add pos 1
  Checked.modify fun s => { s with pos := next }

def expectMore (e : Failure) : Reading Unit := do
  let pos ← Checked.get Reader.pos
  Checked.require (pos < bytes.length) e

def shared : Reading Bytes := do
  expectMore bytes .malformed
  let tag ← peek bytes
  if tag ≠ 0x84 then do
    let count ← Checked.get fun s => s.strings.length
    let n ← ref bytes count
    let strings ← Checked.get Reader.strings
    Checked.index strings n
  else do
    advance
    let length ← readLength bytes
    let text ← take bytes length
    let count ← Checked.get fun s => s.strings.length
    Checked.require (count < maxObjects) .oversized
    Checked.modify fun s => { s with strings := s.strings ++ [text] }
    return text

def slot : Reading Nat := do
  let count ← Checked.get fun s => s.objects.length
  Checked.require (count < maxObjects) .oversized
  Checked.modify fun s => { s with objects := s.objects ++ [.pending] }
  return count

/-- `self.objects.items[index] = value`. -/
def remember (index : Nat) (value : Object) : Reading Unit := do
  let objects ← Checked.get Reader.objects
  let _ ← Checked.index objects index
  Checked.modify fun s => { s with objects := s.objects.set index value }

def existing : Reading Object := do
  let count ← Checked.get fun s => s.objects.length
  let n ← ref bytes count
  let objects ← Checked.get Reader.objects
  Checked.index objects n

def expectType (expected : Bytes) : Reading Unit := do
  let type ← shared bytes
  Checked.require (type = expected) .unsupported

def knownClasses : List Bytes := [
  text "NSObject", text "NSValue", text "NSNumber", text "NSString", text "NSMutableString",
  text "NSDictionary", text "NSMutableDictionary", text "NSAttributedString",
  text "NSMutableAttributedString"]

def classBody (ancestor : Reading (Option Bytes)) : Reading (Option Bytes) := do
  expectMore bytes .oversized
  let tag ← peek bytes
  if tag = 0x85 then do
    advance
    return none
  else if tag ≠ 0x84 then do
    let value ← existing bytes
    match value with
    | .class' name => return some name
    | _ => Checked.fail .malformed
  else do
    advance
    let index ← slot
    let name ← shared bytes
    let version ← integer bytes true
    Checked.require (knownClasses.contains name && 0 ≤ version && version ≤ 1) .unsupported
    let _ ← ancestor
    remember index (.class' name)
    return some name

/-- `class`, with the levels left of the 32 that it may nest. -/
def classAt : Nat → Reading (Option Bytes)
  | 0 => Checked.fail .oversized
  | levels + 1 => classBody bytes (classAt levels)

def cstring : Reading Bytes := do
  expectMore bytes .malformed
  let tag ← peek bytes
  if tag ≠ 0x84 then do
    let value ← existing bytes
    match value with
    | .text text => return text
    | _ => Checked.fail .malformed
  else do
    advance
    let index ← slot
    let text ← shared bytes
    remember index (.text text)
    return text

end Primitives

section Objects

variable (bytes : Bytes)

/-- A string is UTF-8, or UTF-16 after a byte order mark. -/
def stringObject : Reading Object := do
  expectType bytes (text "+")
  let length ← readLength bytes
  let raw ← take bytes length
  if [0xFF, 0xFE].isPrefixOf raw then do
    Checked.require (raw.length % 2 = 0) .malformed
    let rest ← Checked.sub raw.length 2
    let units ← Checked.each (fun i => do
      let unit ← Checked.slice raw (2 + i * 2) 2
      return little unit) (List.range (rest / 2))
    let text ← Checked.orFail .malformed (utf16ToUtf8 units)
    return .text text
  else do
    Checked.require (utf8ValidateSlice raw) .malformed
    return .text raw

def numberObject : Reading Object := do
  expectType bytes (text "*")
  let encoding ← cstring bytes
  Checked.require (encoding.length = 1) .unsupported
  let kind ← Checked.index encoding 0
  Checked.require ((text "iIsScCqQ").contains kind) .unsupported
  expectType bytes encoding
  let n ← integer bytes (97 ≤ kind && kind ≤ 122)
  return .number n

def entries (grouped : Reading Object) :
    Nat → List (Bytes × Object) → Reading (List (Bytes × Object))
  | 0, done => return done
  | left + 1, done => do
    let key ← grouped
    match key with
    | .text key => do
      Checked.require (!done.any fun entry => entry.1 = key) .malformed
      let value ← grouped
      entries grouped left (done ++ [(key, value)])
    | _ => Checked.fail .malformed

def dictObject (grouped : Reading Object) : Reading Object := do
  expectType bytes (text "i")
  let count ← readLength bytes
  Checked.require (count ≤ 256) .oversized
  let entries ← entries grouped count []
  return .dict entries

def more : Reading Bool := do
  let pos ← Checked.get Reader.pos
  if pos < bytes.length then do
    let b ← Checked.index bytes pos
    return b ≠ 0x86
  else return false

/-- The attributes of a range: of a format already seen, or of a new one. -/
def attributes (grouped : Reading Object) (formats : List (Int × List (Bytes × Object)))
    (format : Int) : Reading (List (Bytes × Object)) :=
  match formats.find? fun f => f.1 = format with
  | some f => return f.2
  | none => do
    let dict ← grouped
    match dict with
    | .dict entries => return entries
    | _ => Checked.fail .malformed

def rangesFrom (grouped : Reading Object) :
    Nat → List (Int × List (Bytes × Object)) → List (Range Object) → Reading (List (Range Object))
  | 0, _, done => do
    let more ← more bytes
    Checked.require (!more) .oversized
    return done
  | room + 1, formats, done => do
    let more ← more bytes
    if more then do
      expectType bytes (text "iI")
      let format ← integer bytes true
      let length ← readLength bytes
      Checked.require (0 ≤ format && length ≠ 0) .malformed
      let attributes ← attributes grouped formats format
      rangesFrom grouped room ((format, attributes) :: formats)
        (done ++ [{ length := length, attributes := attributes }])
    else return done

def attributedObject (grouped : Reading Object) : Reading Object := do
  let body ← grouped
  match body with
  | .text body => do
    Checked.require (body.length ≤ MessagesDb.maxBody) .oversized
    let ranges ← rangesFrom bytes grouped maxObjects [] []
    return .attributed body ranges
  | _ => Checked.fail .oversized

def valueOf (grouped : Reading Object) (name : Bytes) : Reading Object :=
  if name = text "NSString" || name = text "NSMutableString" then stringObject bytes
  else if name = text "NSNumber" then numberObject bytes
  else if name = text "NSDictionary" || name = text "NSMutableDictionary" then
    dictObject bytes grouped
  else if name = text "NSAttributedString" || name = text "NSMutableAttributedString" then
    attributedObject bytes grouped
  else Checked.fail .unsupported

def visit (deep : Bool) : Reading Unit := do
  let visits ← Checked.get Reader.visits
  let visits ← Checked.add visits 1
  Checked.modify fun s => { s with visits := visits }
  Checked.require (!deep && visits ≤ maxObjects) .oversized

def objectBody (type : Reading (Option Bytes)) (grouped : Reading Object) : Reading Object := do
  expectMore bytes .malformed
  let tag ← peek bytes
  if tag ≠ 0x84 then do
    let value ← existing bytes
    match value with
    | .pending => Checked.fail .malformed
    | .class' _ => Checked.fail .malformed
    | value => return value
  else do
    advance
    let index ← slot
    let name ← type
    let name ← Checked.orFail .malformed name
    let result ← valueOf bytes grouped name
    let last ← readByte bytes
    Checked.require (last = 0x86) .malformed
    remember index result
    return result

/-- `object`, with the levels left of the 32 that it may nest: the class is read
one level further down, and the objects within two. -/
def objectAt : Nat → Reading Object
  | 0 => do
    visit true
    Checked.fail .oversized
  | 1 => do
    visit false
    objectBody bytes (classAt bytes 0) do
      expectType bytes (text "@")
      visit true
      Checked.fail .oversized
  | levels + 2 => do
    visit false
    objectBody bytes (classAt bytes (levels + 1)) do
      expectType bytes (text "@")
      objectAt levels

def object (depth : Nat) : Reading Object := objectAt bytes (maxDepth - depth)

def class' (depth : Nat) : Reading (Option Bytes) := classAt bytes (maxDepth - depth)

def groupedObject (depth : Nat) : Reading Object := do
  expectType bytes (text "@")
  object bytes (depth + 1)

/-- The header of the little-endian typed streams that are recognised. -/
def header : Bytes := [0x04, 0x0B] ++ text "streamtyped" ++ [0x81, 0xE8, 0x03]

/-- The reading that `decode` starts with. -/
def read : Except (Stop Failure) Object × Reader :=
  if bytes.length > MessagesDb.maxDecode then (.error (.error .oversized), {})
  else if !header.isPrefixOf bytes then (.error (.error .unsupported), {})
  else groupedObject bytes 0 { pos := header.length }

end Objects

end Zimbr.Relay.BodyParts
