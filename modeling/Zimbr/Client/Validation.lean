import Zimbr.Client.Schema

set_option autoImplicit false

/-!
# Bounds on received records

Defense in depth for a faulty or compromised relay, applied before a received
record is stored.
-/
namespace Zimbr.Client.Validation

def maxRecordBytes : Nat := 512 * 1024
def maxSectionItems : Nat := 4096
def maxBody : Nat := 64 * 1024

/-- The ordered parts of a request: its caption, then its files. -/
def partsMatch (value : SendRequest) : Bool :=
  let caption := if value.text.length != 0 then 1 else 0
  value.parts.length = caption + value.attachments.length &&
    value.parts.zipIdx.all fun (part, i) =>
      (if i < caption then part.kind = .text && part.attachmentId = none
        else part.kind = .attachment &&
          part.attachmentId = (value.attachments[i - caption]?).map (·.id)) &&
      (value.state != .delivered || part.state = .delivered)

def request (value : SendRequest) : Except Error Unit :=
  if value.attachments.length = 0 then
    if value.parts.length != 0 then .error .invalidRecord else .ok ()
  else match Attachments.validateSet value.attachments with
  | .error _ => .error .invalidRecord
  | .ok () => if partsMatch value then .ok () else .error .invalidRecord

def validText (text : Bytes) : Bool :=
  text.length ≤ maxBody && utf8ValidateSlice text && !text.contains 0

def message (value : Message) : Except Error Unit :=
  if !value.text.all validText then .error .invalidRecord
  else if value.id.length = 0 || value.id.length > 1024 ||
      value.conversationId.length = 0 || value.conversationId.length > 1024 then
    .error .invalidRecord
  else if value.attachments.length > maxSectionItems ||
      (value.parts.getD []).length > maxSectionItems ||
      (value.linkPreviews.getD []).length > maxSectionItems ||
      (value.reactions.getD []).length > maxSectionItems then
    .error .invalidRecord
  else .ok ()

end Zimbr.Client.Validation
