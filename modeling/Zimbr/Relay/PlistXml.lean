import Zimbr.Relay.Plist

set_option autoImplicit false

/-!
# XML property lists
-/
namespace Zimbr.Relay.Plist
open Library

/-- `std.ascii.isWhitespace`. -/
def isWhitespace (b : UInt8) : Bool := b = 32 || (9 ≤ b && b ≤ 13)

/-- `std.mem.indexOf`. -/
def indexOf (needle : Bytes) : Bytes → Option Nat
  | [] => if needle.isEmpty then some 0 else none
  | b :: rest =>
    if needle.isPrefixOf (b :: rest) then some 0 else (indexOf needle rest).map (· + 1)

/-- `std.mem.trim`. -/
def trim (p : UInt8 → Bool) (bytes : Bytes) : Bytes :=
  ((bytes.dropWhile p).reverse.dropWhile p).reverse

/-- `std.fmt.charToDigit`. -/
def charToDigit (base : Nat) (b : UInt8) : Option Nat :=
  let digit :=
    if 48 ≤ b && b ≤ 57 then b.toNat - 48
    else if 65 ≤ b && b ≤ 90 then b.toNat - 55
    else if 97 ≤ b && b ≤ 122 then b.toNat - 87
    else 36
  if digit < base then some digit else none

/-- `std.fmt.parseInt` of an unsigned number: a base of 0 is found in the digits, and
underscores may stand between them. -/
def parseUnsigned (limit base : Nat) (bytes : Bytes) : Option Nat :=
  let negative := bytes.head? = some 45
  let bytes := if bytes.head? = some 43 || negative then bytes.drop 1 else bytes
  let second := (bytes.drop 1).head?
  let named := base = 0 && 2 < bytes.length && bytes.head? = some 48
  let (base, digits) :=
    if named && (second = some 98 || second = some 66) then (2, bytes.drop 2)
    else if named && (second = some 111 || second = some 79) then (8, bytes.drop 2)
    else if named && (second = some 120 || second = some 88) then (16, bytes.drop 2)
    else (if base = 0 then 10 else base, bytes)
  if digits.isEmpty || digits.head? = some 95 || digits.getLast? = some 95 then none
  else do
    let values ← (digits.filter (· != 95)).mapM (charToDigit base)
    let n := values.foldl (fun n digit => n * base + digit) 0
    if n < limit && (!negative || n = 0) then some n else none

def sextet (b : UInt8) : Option Nat :=
  if 65 ≤ b && b ≤ 90 then some (b.toNat - 65)
  else if 97 ≤ b && b ≤ 122 then some (b.toNat - 71)
  else if 48 ≤ b && b ≤ 57 then some (b.toNat + 4)
  else if b = 43 then some 62
  else if b = 47 then some 63
  else none

/-- `std.base64.standard.Decoder`: groups of four, the last of them padded. -/
def base64Decode : Bytes → Option Bytes
  | [] => some []
  | [b0, b1, 61, 61] => do
    let n0 ← sextet b0
    let n1 ← sextet b1
    if n1 % 16 = 0 then some [byte (n0 * 4 + n1 / 16)] else none
  | [b0, b1, b2, 61] => do
    let n0 ← sextet b0
    let n1 ← sextet b1
    let n2 ← sextet b2
    if n2 % 4 = 0 then some [byte (n0 * 4 + n1 / 16), byte (n1 % 16 * 16 + n2 / 4)] else none
  | b0 :: b1 :: b2 :: b3 :: rest => do
    let n0 ← sextet b0
    let n1 ← sextet b1
    let n2 ← sextet b2
    let n3 ← sextet b3
    let decoded ← base64Decode rest
    some (byte (n0 * 4 + n1 / 16) :: byte (n1 % 16 * 16 + n2 / 4) :: byte (n2 % 4 * 64 + n3) ::
      decoded)
  | _ => none

structure Xml where
  pos : Nat := 0
  objects : Nat := 0

abbrev Scanning (α : Type) : Type := Checked Failure Xml α

section Scan

variable (bytes : Bytes)

/-- `self.bytes[self.pos..]`. -/
def rest : Scanning Bytes := do
  let pos ← Checked.get Xml.pos
  Checked.slice bytes pos (bytes.length - pos)

def skip (length : Nat) : Scanning Unit := do
  let pos ← Checked.get Xml.pos
  let pos ← Checked.add pos length
  Checked.modify fun s => { s with pos := pos }

def consume (mark : Bytes) : Scanning Bool := do
  let rest ← rest bytes
  if mark.isPrefixOf rest then do
    skip mark.length
    return true
  else return false

def whitespace : Nat → Scanning Unit
  | 0 => Checked.trap
  | rounds + 1 => do
    let pos ← Checked.get Xml.pos
    if pos < bytes.length then do
      let b ← Checked.index bytes pos
      if isWhitespace b then do
        skip 1
        whitespace rounds
      else do
        let comment ← consume bytes (text "<!--")
        if comment then do
          let rest ← rest bytes
          let stop ← Checked.orFail .malformed (indexOf (text "-->") rest)
          let length ← Checked.add stop 3
          skip length
          whitespace rounds
        else return ()
    else return ()

/-- There are at most as many as there are bytes. -/
def spaces : Scanning Unit := whitespace bytes (bytes.length + 1)

def character (entity : Bytes) : Except Failure Nat :=
  if entity = text "amp" then .ok 38
  else if entity = text "lt" then .ok 60
  else if entity = text "gt" then .ok 62
  else if entity = text "quot" then .ok 34
  else if entity = text "apos" then .ok 39
  else if (text "#x").isPrefixOf entity then
    match parseUnsigned (2 ^ 21) 16 (entity.drop 2) with
    | some cp => .ok cp
    | none => .error .malformed
  else if (text "#").isPrefixOf entity then
    match parseUnsigned (2 ^ 21) 10 (entity.drop 1) with
    | some cp => .ok cp
    | none => .error .malformed
  else .error .unsupported

def unescape : Nat → Bytes → Scanning Bytes
  | 0, _ => Checked.trap
  | _ + 1, [] => return []
  | rounds + 1, b :: raw =>
    if b ≠ 38 then do
      let decoded ← unescape rounds raw
      return b :: decoded
    else do
      let semi ← Checked.orFail .malformed ((b :: raw).idxOf? 59)
      let length ← Checked.sub semi 1
      let entity ← Checked.slice (b :: raw) 1 length
      let cp ← Checked.ofExcept (character entity)
      Checked.require (!(cp = 0 || (cp < 32 && cp ≠ 9 && cp ≠ 10 && cp ≠ 13))) .malformed
      let encoded ← Checked.orFail .malformed (utf8Encode cp)
      let decoded ← unescape rounds ((b :: raw).drop (semi + 1))
      return encoded ++ decoded

def content (closing : Bytes) : Scanning Bytes := do
  let rest ← rest bytes
  let stop ← Checked.orFail .malformed (indexOf closing rest)
  let raw ← Checked.slice rest 0 stop
  Checked.require (!raw.contains 60) .malformed
  let length ← Checked.add stop closing.length
  skip length
  let decoded ← unescape (raw.length + 1) raw
  Checked.require (utf8ValidateSlice decoded) .malformed
  return decoded

def integerContent : Scanning Node := do
  let raw ← content bytes (text "</integer>")
  let n ← Checked.orFail .malformed (parseUnsigned (2 ^ 64) 0
    (trim (fun b => b = 32 || b = 9 || b = 13 || b = 10) raw))
  return .integer n

def dataContent : Scanning Node := do
  let raw ← content bytes (text "</data>")
  let decoded ← Checked.orFail .malformed (base64Decode (raw.filter fun b => !isWhitespace b))
  return .data decoded

variable (inner : Scanning Node)

def arrayItems : Nat → List Node → Scanning Node
  | 0, _ => Checked.trap
  | rounds + 1, done => do
    spaces bytes
    let closed ← consume bytes (text "</array>")
    if closed then return .array done
    else do
      let item ← inner
      arrayItems rounds (done ++ [item])

/-- A dictionary of one integer under that key is a reference. -/
def dictNode : List (Bytes × Node) → Scanning Node
  | [(key, .integer uid)] =>
    if key = text "CF$UID" then do
      Checked.require (uid ≤ maxObjects) .malformed
      return .uid uid
    else return .dict [(key, .integer uid)]
  | entries => return .dict entries

def dictEntries : Nat → List (Bytes × Node) → Scanning Node
  | 0, _ => Checked.trap
  | rounds + 1, done => do
    spaces bytes
    let closed ← consume bytes (text "</dict>")
    if closed then dictNode done
    else do
      let opened ← consume bytes (text "<key>")
      Checked.require opened .malformed
      let key ← content bytes (text "</key>")
      Checked.require (!done.any fun entry => entry.1 = key) .malformed
      let item ← inner
      dictEntries rounds (done ++ [(key, item)])

/-- A value by its tag: the tags are tried in turn. -/
def tagged : Scanning Node := do
  let found ← consume bytes (text "<true/>")
  if found then return .boolean true else
  let found ← consume bytes (text "<false/>")
  if found then return .boolean false else
  let found ← consume bytes (text "<string/>")
  if found then return .string [] else
  let found ← consume bytes (text "<string>")
  if found then do
    let decoded ← content bytes (text "</string>")
    return .string decoded
  else
  let found ← consume bytes (text "<integer>")
  if found then integerContent bytes else
  let found ← consume bytes (text "<real>")
  if found then do
    let _ ← content bytes (text "</real>")
    return .none
  else
  let found ← consume bytes (text "<date>")
  if found then do
    let _ ← content bytes (text "</date>")
    return .none
  else
  let found ← consume bytes (text "<data/>")
  if found then return .data [] else
  let found ← consume bytes (text "<data>")
  if found then dataContent bytes else
  let found ← consume bytes (text "<array/>")
  if found then return .array [] else
  let found ← consume bytes (text "<array>")
  if found then arrayItems bytes inner (maxObjects + 1) [] else
  let found ← consume bytes (text "<dict/>")
  if found then return .dict [] else
  let found ← consume bytes (text "<dict>")
  if found then dictEntries bytes inner (maxObjects + 1) [] else
  Checked.fail .unsupported

/-- Count an object, which the depth may already refuse. -/
def visit (deep : Bool) : Scanning Unit := do
  let objects ← Checked.get Xml.objects
  let objects ← Checked.add objects 1
  Checked.modify fun s => { s with objects := objects }
  Checked.require (!deep && objects ≤ maxObjects) .oversized

/-- `value`, with the levels left of the 32 that it may nest. -/
def valueLevels : Nat → Scanning Node
  | 0 => do
    visit true
    Checked.fail .oversized
  | levels + 1 => do
    visit false
    spaces bytes
    tagged bytes (valueLevels levels)

def value (depth : Nat) : Scanning Node := valueLevels bytes (maxDepth - depth)

def declaration : Scanning Unit := do
  let found ← consume bytes (text "<?xml ")
  if found then do
    let rest ← rest bytes
    let stop ← Checked.orFail .malformed (indexOf (text "?>") rest)
    let length ← Checked.add stop 2
    skip length
    spaces bytes
  else return ()

/-- A document type without declarations of its own. -/
def doctype : Scanning Unit := do
  let found ← consume bytes (text "<!DOCTYPE plist ")
  if found then do
    let rest ← rest bytes
    let stop ← Checked.orFail .malformed (rest.idxOf? 62)
    let inner ← Checked.slice rest 0 stop
    Checked.require (!inner.contains 91) .unsupported
    let length ← Checked.add stop 1
    skip length
    spaces bytes
  else return ()

/-- `Xml.parse`. -/
def parseXml : Scanning Node := do
  spaces bytes
  declaration bytes
  doctype bytes
  let opened ← consume bytes (text "<plist version=\"1.0\">")
  Checked.require opened .unsupported
  let root ← value bytes 0
  spaces bytes
  let closed ← consume bytes (text "</plist>")
  Checked.require closed .malformed
  spaces bytes
  let pos ← Checked.get Xml.pos
  Checked.require (pos = bytes.length) .malformed
  return root

end Scan

def isBinary (bytes : Bytes) : Bool := (text "bplist00").isPrefixOf bytes

def parse (bytes : Bytes) : Except (Stop Failure) Node :=
  if bytes.length > maxBytes then .error (.error .oversized)
  else if isBinary bytes then (parseBinary bytes {}).1
  else (parseXml bytes {}).1

end Zimbr.Relay.Plist
