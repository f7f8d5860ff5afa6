import Zimbr.Protocol.Types
import Zimbr.Relay.PlistXml

set_option autoImplicit false

/-!
# Link previews

The payload of a link is a property list, or a keyed archive: a property list of
objects that refer to each other by index.
-/
namespace Zimbr.Relay.LinkPreview
open Library Plist

structure Artwork where
  previewId : Bytes
  icon : Bool := false
  data : Option Bytes := none
  attachmentGuid : Option Bytes := none
  attachmentIndex : Option Nat := none

structure Result where
  previews : List LinkPreview := []
  artwork : List Artwork := []
  state : EnrichmentStatus

/-- What resolving has used. An object is active while it is resolved. -/
structure Archive where
  active : List Bool := []
  visits : Nat := 0
  expandedBytes : Nat := 0

abbrev Resolving (α : Type) : Type := Checked Failure Archive α

def maxExpanded : Nat := 4 * MessagesDb.maxDecode

def visit (deep : Bool) : Resolving Unit := do
  let visits ← Checked.get Archive.visits
  let visits ← Checked.add visits 1
  Checked.modify fun s => { s with visits := visits }
  Checked.require (!deep && visits ≤ maxObjects) .oversized

def charge (bytes : Nat) : Resolving Unit := do
  let expanded ← Checked.get Archive.expandedBytes
  let left ← Checked.sub maxExpanded expanded
  Checked.require (bytes ≤ left) .oversized
  let expanded ← Checked.add expanded bytes
  Checked.modify fun s => { s with expandedBytes := expanded }

/-- The bytes that a value borrows or that its container takes. -/
def cost : Node → Nat
  | .string bytes => bytes.length
  | .data bytes => bytes.length
  | .array items => items.length * nodeSize
  | .dict entries => entries.length * entrySize
  | _ => 0

def knownKeys : List Bytes := [
  text "richLinkMetadata", text "metadata", text "title", text "summary", text "siteName",
  text "URL", text "originalURL", text "richLinkIsPlaceholder", text "image", text "icon",
  text "data", text "attachmentGUID", text "richLinkImageAttachmentSubstituteIndex",
  text "images", text "icons", text "musicMetadata", text "collaborationMetadata",
  text "appStoreMetadata", text "mapMetadata", text "specialization"]

def knownKey (key : Bytes) : Bool := knownKeys.contains key

def knownClasses : List Bytes := [
  text "NSDictionary", text "NSMutableDictionary", text "NSArray", text "NSMutableArray",
  text "NSString", text "NSMutableString", text "NSURL", text "NSData", text "NSMutableData",
  text "LPLinkMetadata", text "LPImage", text "LPImageMetadata", text "LPIconMetadata",
  text "RichLink", text "LPSharingMetadataWrapper", text "RichLinkImageAttachmentSubstitute"]

/-- How a dictionary stands for a value: for another value, which a base may come
before, for keys and their values, or for its own entries. -/
inductive Shape where
  | relative (url : Node) (base : Option Node)
  | wrapped (value : Node)
  | keyed (keys : Node) (values : Option Node)
  | plain

def shapeOf (value : Node) : Shape :=
  match value.get (text "NS.relative") with
  | some url => .relative url (value.get (text "NS.base"))
  | none => match value.get (text "NS.string") with
    | some string => .wrapped string
    | none => match value.get (text "NS.data") with
      | some data => .wrapped data
      | none => match value.get (text "NS.keys") with
        | some keys => .keyed keys (value.get (text "NS.objects"))
        | none => match value.get (text "NS.objects") with
          | some items => .wrapped items
          | none => .plain

section Resolve

variable (objects : List Node)

def isNull (uid : Nat) (target : Node) : Bool :=
  uid = 0 && target.text = some (text "$null")

def enter (uid : Nat) : Resolving Unit := do
  let active ← Checked.get Archive.active
  let busy ← Checked.index active uid
  Checked.require (!busy) .malformed

def setActive (uid : Nat) (busy : Bool) (s : Archive) : Archive :=
  { s with active := s.active.set uid busy }

def checkClass (value : Node) : Resolving Unit :=
  match value.get (text "$class") with
  | none => return ()
  | some (.uid uid) => do
    Checked.require (uid < objects.length) .malformed
    let target ← Checked.index objects uid
    let name ← Checked.orFail .malformed (target.get (text "$classname"))
    let name ← Checked.orFail .malformed name.text
    Checked.require (knownClasses.contains name) .unsupported
  | some _ => Checked.fail .malformed

variable (resolve : Node → Resolving Node)

def resolveUid (uid : Nat) : Resolving Node := do
  Checked.require (uid < objects.length) .malformed
  enter uid
  let target ← Checked.index objects uid
  if isNull uid target then return .none
  else do
    Checked.modify (setActive uid true)
    Checked.after (resolve target) (setActive uid false)

def checkBase : Option Node → Resolving Unit
  | none => return ()
  | some base => do
    let base ← resolve base
    match base with
    | .none => return ()
    | _ => Checked.fail .unsupported

def keyedEntries : List (Node × Node) → List (Bytes × Node) → Resolving (List (Bytes × Node))
  | [], done => return done
  | (key, item) :: rest, done => do
    let name ← Checked.orFail .malformed key.text
    if !knownKey name then keyedEntries rest done
    else do
      Checked.require (!done.any fun entry => entry.1 = name) .malformed
      let value ← resolve item
      keyedEntries rest (done ++ [(name, value)])

def plainEntries : List (Bytes × Node) → List (Bytes × Node) → Resolving (List (Bytes × Node))
  | [], done => return done
  | (key, item) :: rest, done =>
    if knownKey key then do
      let value ← resolve item
      plainEntries rest (done ++ [(key, value)])
    else plainEntries rest done

def resolveKeyed (keys : Node) (values : Option Node) : Resolving Node := do
  let keys ← resolve keys
  let values ← Checked.orFail .malformed values
  match keys, values with
  | .array keys, .array values => do
    Checked.require (keys.length = values.length) .malformed
    let entries ← keyedEntries resolve (keys.zip values) []
    return .dict entries
  | _, _ => Checked.fail .malformed

def resolveDict (entries : List (Bytes × Node)) : Resolving Node := do
  checkClass objects (.dict entries)
  match shapeOf (.dict entries) with
  | .relative url base => do
    checkBase resolve base
    resolve url
  | .wrapped value => resolve value
  | .keyed keys values => resolveKeyed resolve keys values
  | .plain => do
    let entries ← plainEntries resolve entries []
    return .dict entries

def resolveBody (value : Node) : Resolving Node := do
  charge (cost value)
  match value with
  | .uid uid => resolveUid objects resolve uid
  | .array items => do
    let items ← Checked.each resolve items
    return .array items
  | .dict entries => resolveDict objects resolve entries
  | value => return value

end Resolve

/-- `resolve`, with the levels left of the 32 that it may nest. -/
def resolveAt (objects : List Node) : Nat → Node → Resolving Node
  | 0, _ => do
    visit true
    Checked.fail .oversized
  | levels + 1, value => do
    visit false
    resolveBody objects (resolveAt objects levels) value

def resolve (objects : List Node) (value : Node) (depth : Nat) : Resolving Node :=
  resolveAt objects (maxDepth - depth) value

/-- The objects of a keyed archive and its root, or a plain property list. -/
def openArchive (value : Node) : Except Failure (List Node × Node) :=
  match value.get (text "$objects") with
  | none => .ok ([], value)
  | some (.array items) =>
    if items.isEmpty || items.length > maxObjects then .error .malformed
    else match (value.get (text "$archiver")).bind Node.text with
      | none => .error .malformed
      | some archiver =>
        if archiver ≠ text "NSKeyedArchiver" then .error .unsupported
        else match (value.get (text "$top")).bind fun top => top.get (text "root") with
          | none => .error .malformed
          | some root => .ok (items, root)
  | some _ => .error .malformed

section Walk

def field (value : Node) (key : Bytes) (maximum : Nat) : Except Failure (Option Bytes) :=
  match value.get key with
  | none => .ok none
  | some .none => .ok none
  | some (.string bytes) =>
    if bytes.length > maximum then .error .oversized
    else if !utf8ValidateSlice bytes || bytes.contains 0 then .error .malformed
    else .ok (if bytes.isEmpty then none else some bytes)
  | some _ => .error .malformed

variable (safe : Bytes → Bool)

def urlText : Node → Except Failure (Option Bytes)
  | .none => .ok none
  | .string url =>
    if url.length > 4096 then .error .oversized else .ok (if safe url then some url else none)
  | _ => .error .malformed

def urlField (value : Node) (key : Bytes) : Except Failure (Option Bytes) :=
  match value.get key with
  | none => .ok none
  | some (.dict entries) =>
    match ((Node.dict entries).get key).or ((Node.dict entries).get (text "URL")) with
    | none => .error .malformed
    | some item => urlText safe item
  | some item => urlText safe item

def artworkOf (previewId : Bytes) (icon : Bool) : Option Node → Except Failure (List Artwork)
  | none => .ok []
  | some .none => .ok []
  | some (.data data) =>
    .ok (if data.isEmpty then [] else [{ previewId := previewId, icon := icon, data := some data }])
  | some (.dict entries) =>
    match (Node.dict entries).get (text "data") with
    | some (.data data) => .ok (if data.isEmpty then [] else
        [{ previewId := previewId, icon := icon, data := some data }])
    | some _ => .error .malformed
    | none => do
      let guid ← field (.dict entries) (text "attachmentGUID") 1024
      match guid with
      | some guid => .ok [{ previewId := previewId, icon := icon, attachmentGuid := some guid }]
      | none =>
        match (Node.dict entries).get (text "richLinkImageAttachmentSubstituteIndex") with
        | none => .ok []
        | some (.integer index) =>
          if index > 2 ^ 32 - 1 then .error .malformed
          else .ok [{ previewId := previewId, icon := icon, attachmentIndex := some index }]
        | some _ => .error .malformed
  | some _ => .error .malformed

/-- Objects with these fields have layouts of their own. -/
def otherLayouts : List Bytes := [
  text "musicMetadata", text "collaborationMetadata", text "appStoreMetadata",
  text "mapMetadata", text "specialization"]

variable (json : LinkPreview → Bytes)

/-- The preview and the artwork of one root, which is the `i`th. -/
def previewOf (i : Nat) (item : Node) : Except Failure (LinkPreview × List Artwork) := do
  match (item.get (text "richLinkMetadata")).or (item.get (text "metadata")) with
  | none => .error .unsupported
  | some (.dict entries) =>
    let metadata := Node.dict entries
    if otherLayouts.any fun key => (metadata.get key).isSome then .error .unsupported
    else do
      let id := text "link:" ++ decimal i
      let original ← urlField safe metadata (text "originalURL")
      let final ← urlField safe metadata (text "URL")
      if original.isNone && final.isNone then .error .malformed
      else do
        let placeholder := (item.get (text "richLinkIsPlaceholder")).or
          (metadata.get (text "richLinkIsPlaceholder"))
        let title ← field metadata (text "title") 2048
        let summary ← field metadata (text "summary") 4096
        let siteName ← field metadata (text "siteName") 512
        let pending := match placeholder with
          | some (.boolean true) => true
          | _ => false
        let preview : LinkPreview := {
          id := id
          partId := id
          originalUrl := original
          metadataUrl := final
          title := title
          summary := summary
          siteName := siteName
          state := if pending then .pending else .complete }
        if (json preview).length > 24 * 1024 then .error .oversized
        else do
          let image ← artworkOf id false (metadata.get (text "image"))
          let icon ← artworkOf id true (metadata.get (text "icon"))
          return (preview, image ++ icon)
  | some _ => .error .malformed

/-- The roots from the `i`th on. -/
def previewsFrom : Nat → List Node → Except Failure (List (LinkPreview × List Artwork))
  | _, [] => .ok []
  | i, item :: rest => do
    let first ← previewOf safe json i item
    let others ← previewsFrom (i + 1) rest
    return first :: others

def walk (value : Node) : Resolving Result := do
  let (objects, root) ← Checked.ofExcept (openArchive value)
  Checked.modify fun s => { s with active := List.replicate objects.length false }
  let root ← resolve objects root 0
  let roots := match root with
    | .array items => items
    | root => [root]
  let found ← Checked.ofExcept (previewsFrom safe json 0 roots)
  return {
    previews := found.map Prod.fst
    artwork := found.flatMap Prod.snd
    state := .complete }

/-- `parse`. -/
def parse (bytes : Bytes) : Except (Stop Failure) Result :=
  match Plist.parse bytes with
  | .error e => .error e
  | .ok value => (walk safe json value {}).1

def decode (bytes : Bytes) : Except (Stop Failure) Result :=
  if bytes.isEmpty then .ok { state := .pending }
  else match parse safe json bytes with
    | .ok result => .ok result
    | .error (.error .oversized) => .ok { state := .oversized }
    | .error (.error .unsupported) => .ok { state := .unsupported }
    | .error (.error .malformed) => .ok { state := .malformed }
    | .error .trap => .error .trap

end Walk

end Zimbr.Relay.LinkPreview
