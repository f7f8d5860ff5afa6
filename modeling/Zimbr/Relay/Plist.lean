import Zimbr.Library.Checked
import Zimbr.Protocol.Utf16
import Zimbr.Relay.MessagesDb

set_option autoImplicit false

/-!
# Binary property lists

Objects are found through a table of offsets, and refer to each other by index.
Offsets may alias, so the work is charged to a budget.
-/
namespace Zimbr.Relay.Plist
open Library

inductive Node where
  | none
  | boolean (b : Bool)
  | integer (n : Nat)
  | string (bytes : Bytes)
  | data (bytes : Bytes)
  | uid (n : Nat)
  | array (items : List Node)
  | dict (entries : List (Bytes × Node))

def Node.get : Node → Bytes → Option Node
  | .dict entries, key => (entries.find? fun entry => entry.1 = key).map Prod.snd
  | _, _ => Option.none

def Node.text : Node → Option Bytes
  | .string bytes => some bytes
  | _ => Option.none

inductive Failure where
  | malformed | unsupported | oversized
  deriving DecidableEq, Repr

def maxBytes : Nat := MessagesDb.maxDecode

def maxObjects : Nat := 8192

def maxDepth : Nat := 32

/-- `@sizeOf(Node)`. -/
def nodeSize : Nat := 24

/-- `@sizeOf(Entry)`. -/
def entrySize : Nat := 40

def bigEndian (bytes : Bytes) : Nat := bytes.foldl (fun n b => n * 256 + b.toNat) 0

def unsigned {σ : Type} (bytes : Bytes) : Checked Failure σ Nat := do
  Checked.require (bytes.length ≠ 0 && bytes.length ≤ 8) .malformed
  return bigEndian bytes

/-- An object is unseen, being read, or read. -/
inductive Mark where
  | unseen | visiting
  | decoded (value : Node)

structure Binary where
  bytes : Bytes
  offsets : List Nat
  refWidth : Nat
  table : Nat

/-- What reading has used. The visits are counted here only. -/
structure Walk where
  marks : List Mark := []
  allocated : Nat := 0
  work : Nat := 0
  visits : Nat := 0

abbrev Walking (α : Type) : Type := Checked Failure Walk α

def charge (bytes : Nat) : Walking Unit := do
  let work ← Checked.get Walk.work
  let left ← Checked.sub (maxBytes * 8) work
  Checked.require (bytes ≤ left) .oversized
  let work ← Checked.add work bytes
  Checked.modify fun s => { s with work := work }

/-- What is allocated for decoded values is charged as well. -/
def allocate (bytes : Nat) : Walking Unit := do
  let allocated ← Checked.get Walk.allocated
  let allocated ← Checked.add allocated bytes
  Checked.modify fun s => { s with allocated := allocated }
  Checked.require (allocated ≤ maxBytes * 2) .oversized

section Objects

variable (b : Binary)

def take (position length : Nat) : Walking (Bytes × Nat) := do
  Checked.require (position ≤ b.table) .malformed
  let left ← Checked.sub b.table position
  Checked.require (length ≤ left) .malformed
  charge length
  let bytes ← Checked.slice b.bytes position length
  let next ← Checked.add position length
  return (bytes, next)

/-- A length, in the low nibble of the tag or in an integer after it. -/
def size (position small : Nat) : Walking (Nat × Nat) :=
  if small ≠ 15 then return (small, position)
  else do
    let (bytes, position) ← take b position 1
    let tag ← Checked.index bytes 0
    Checked.require (tag.toNat / 16 = 1 && tag.toNat % 16 ≤ 3) .malformed
    let (bytes, position) ← take b position (2 ^ (tag.toNat % 16))
    let n ← unsigned bytes
    Checked.require (n ≤ maxBytes) .oversized
    return (n, position)

def simpleValue (small : Nat) : Walking Node :=
  if small = 0 then return .none
  else if small = 8 then return .boolean false
  else if small = 9 then return .boolean true
  else Checked.fail .unsupported

def integerValue (position small : Nat) : Walking Node := do
  Checked.require (small ≤ 3) .unsupported
  let (bytes, _) ← take b position (2 ^ small)
  let n ← unsigned bytes
  return .integer n

/-- Reals and dates are passed over. -/
def ignoredValue (position small : Nat) : Walking Node := do
  Checked.require (small ≤ 3) .unsupported
  let _ ← take b position (2 ^ small)
  return .none

def textValue (kind position small : Nat) : Walking Node := do
  let (length, position) ← size b position small
  let width ← Checked.mul length (if kind = 6 then 2 else 1)
  let (bytes, _) ← take b position width
  if kind = 4 then return .data bytes
  else if kind = 5 then do
    Checked.require (utf8ValidateSlice bytes) .malformed
    return .string bytes
  else do
    let expanded ← Checked.mul length 3
    allocate expanded
    let units ← Checked.each (fun i => do
      let unit ← Checked.slice bytes (i * 2) 2
      return bigEndian unit) (List.range length)
    let text ← Checked.orFail .malformed (utf16ToUtf8 units)
    return .string text

def uidValue (position small : Nat) : Walking Node := do
  let (bytes, _) ← take b position (small + 1)
  let n ← unsigned bytes
  Checked.require (n ≤ maxObjects) .malformed
  return .uid n

variable (object : Nat → Walking Node)

def reference (bytes : Bytes) : Walking Node := do
  let index ← unsigned bytes
  Checked.require (index < b.offsets.length) .malformed
  object index

def referenceAt (refs : Bytes) (i : Nat) : Walking Node := do
  let bytes ← Checked.slice refs (i * b.refWidth) b.refWidth
  reference b object bytes

/-- The entries of a dictionary: its keys are first among the references. -/
def entries (refs : Bytes) (length : Nat) :
    List Nat → List (Bytes × Node) → Walking (List (Bytes × Node))
  | [], done => return done
  | i :: rest, done => do
    let key ← referenceAt b object refs i
    let key ← Checked.orFail .malformed key.text
    charge key.length
    Checked.require (!done.any fun entry => entry.1 = key) .malformed
    let value ← referenceAt b object refs (i + length)
    entries refs length rest (done ++ [(key, value)])

def containerValue (kind position small : Nat) : Walking Node := do
  let (length, position) ← size b position small
  Checked.require (length ≤ maxObjects) .oversized
  let storage ← Checked.mul length entrySize
  allocate storage
  let width ← Checked.mul length b.refWidth
  let width ← Checked.mul width (if kind = 13 then 2 else 1)
  let (refs, _) ← take b position width
  if kind = 13 then do
    let entries ← entries b object refs length (List.range length) []
    return .dict entries
  else do
    let items ← Checked.each (referenceAt b object refs) (List.range length)
    return .array items

/-- The high nibble of the tag is the kind of the object. -/
def valueAt (position : Nat) : Walking Node := do
  let (bytes, position) ← take b position 1
  let tag ← Checked.index bytes 0
  let kind := tag.toNat / 16
  let small := tag.toNat % 16
  if kind = 0 then simpleValue small
  else if kind = 1 then integerValue b position small
  else if kind = 2 || kind = 3 then ignoredValue b position small
  else if kind = 4 || kind = 5 || kind = 6 then textValue b kind position small
  else if kind = 8 then uidValue b position small
  else if kind = 10 || kind = 13 then containerValue b object kind position small
  else Checked.fail .unsupported

/-- An object that is being read is not read again, and one that was read is returned
whatever its own depth is. -/
def objectBody (index : Nat) : Walking Node := do
  let marks ← Checked.get Walk.marks
  let mark ← Checked.index marks index
  match mark with
  | .visiting => Checked.fail .malformed
  | .decoded value => return value
  | .unseen => do
    Checked.modify fun s => { s with marks := s.marks.set index .visiting }
    let position ← Checked.index b.offsets index
    let value ← valueAt b object position
    Checked.modify fun s => { s with marks := s.marks.set index (.decoded value) }
    return value

end Objects

def count : Walking Unit := Checked.modify fun s => { s with visits := s.visits + 1 }

/-- `object`, with the levels left of the 32 that it may nest. -/
def objectAt (b : Binary) : Nat → Nat → Walking Node
  | 0, _ => do
    count
    Checked.fail .oversized
  | levels + 1, index => do
    count
    objectBody b (objectAt b levels) index

def object (b : Binary) (depth index : Nat) : Walking Node := objectAt b (maxDepth - depth) index

def open' (bytes : Bytes) : Walking (Binary × Nat) := do
  Checked.require (40 ≤ bytes.length) .malformed
  let trailing ← Checked.sub bytes.length 32
  let trailer ← Checked.slice bytes trailing 32
  let field ← Checked.slice trailer 8 8
  let count ← unsigned field
  let field ← Checked.slice trailer 16 8
  let root ← unsigned field
  let field ← Checked.slice trailer 24 8
  let table ← unsigned field
  let width ← Checked.index trailer 6
  let refs ← Checked.index trailer 7
  Checked.require (count ≠ 0 && count ≤ maxObjects) .oversized
  Checked.require (root < count && width ≠ 0 && width ≤ 8 && refs ≠ 0 && refs ≤ 8 && 8 ≤ table &&
    table ≤ trailing) .malformed
  let room ← Checked.sub trailing table
  let needed ← Checked.mul count width.toNat
  Checked.require (needed ≤ room) .malformed
  let offsets ← Checked.each (fun i => do
    let field ← Checked.slice bytes (table + i * width.toNat) width.toNat
    let value ← unsigned field
    Checked.require (8 ≤ value && value < table) .malformed
    return value) (List.range count)
  Checked.modify fun s => { s with marks := List.replicate count .unseen }
  return ({ bytes := bytes, offsets := offsets, refWidth := refs.toNat, table := table }, root)

/-- `Binary.parse`. -/
def parseBinary (bytes : Bytes) : Walking Node := do
  let (b, root) ← open' bytes
  object b 0 root

end Zimbr.Relay.Plist
