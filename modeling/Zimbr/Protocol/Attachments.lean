import Mathlib.Data.List.Nodup
import Zimbr.Protocol.Common

set_option autoImplicit false

/-!
# Outgoing file metadata

Shared by upload reservations, drafts and sends.
-/
namespace Zimbr

/-- A UUID in unpadded Base64url. -/
def idLength : Nat := 22

def sextet (b : UInt8) : Option Nat :=
  if 65 ≤ b && b ≤ 90 then some (b.toNat - 65)
  else if 97 ≤ b && b ≤ 122 then some (b.toNat - 97 + 26)
  else if isDigit b then some (b.toNat - 48 + 52)
  else if b = 45 then some 62
  else if b = 95 then some 63
  else none

/-- Accept only canonical Base64url encodings of 16-byte IDs: 22 characters of
the alphabet, and 22 · 6 − 16 · 8 = 4 zero pad bits. -/
def validId (s : Bytes) : Bool :=
  s.length = idLength && s.all (fun b => (sextet b).isSome) &&
    (s.getLast?.bind sextet).any fun n => n % 16 = 0

structure Upload where
  id : Bytes
  name : Bytes
  mimeType : Bytes
  bytes : Bytes
  sha256 : Bytes
  deriving DecidableEq, Repr

namespace Attachments

inductive ValidateError where
  | invalidRequest | attachmentTooLarge | tooManyAttachments
  deriving DecidableEq, Repr

def maxFiles : Nat := 16
def maxFileBytes : Nat := 100 * 1024 * 1024
def maxSendBytes : Nat := 200 * 1024 * 1024

/-- Hidden line breaks and direction overrides that can disguise a basename. -/
def disguises (cp : Nat) : Bool :=
  (0x80 ≤ cp && cp ≤ 0x9f) || cp = 0x061c || cp = 0x200e || cp = 0x200f ||
    (0x2028 ≤ cp && cp ≤ 0x202e) || (0x2066 ≤ cp && cp ≤ 0x2069)

def validName (name : Bytes) : Bool :=
  name.length != 0 && name.length ≤ 255 && name != text "." && name != text ".." &&
    utf8ValidateSlice name &&
    name.all (fun ch => !(ch < 32 || ch = 127 || ch = 47 || ch = 92)) &&
    ((codepoints name).getD []).all fun cp => !disguises cp

def validMime (mime : Bytes) : Bool :=
  3 ≤ mime.length && mime.length ≤ 127 &&
    match mime.findIdx? (fun ch => decide (ch = 47)) with
    | none => false
    | some slash =>
      slash != 0 && slash != mime.length - 1 &&
        mime.zipIdx.all fun (ch, i) =>
          i = slash || isAlphanumeric ch || (text "!#$&^_.+-").contains ch

/-- Validate metadata and return its byte count. Empty regular files are legal. -/
def validate (file : Upload) : Except ValidateError Nat :=
  if !validId file.id then .error .invalidRequest
  else if !validName file.name then .error .invalidRequest
  else if !validMime file.mimeType || file.sha256.length != 64 then .error .invalidRequest
  else if !file.sha256.all (fun ch => isDigit ch || (97 ≤ ch && ch ≤ 102)) then
    .error .invalidRequest
  else if file.bytes.length = 0 || (file.bytes.length > 1 && file.bytes.head? = some 48) then
    .error .invalidRequest
  else if !file.bytes.all isDigit then .error .invalidRequest
  else if spelled file.bytes > maxFileBytes then .error .attachmentTooLarge
  else .ok (spelled file.bytes)

/-- Validate the files after `previous`, whose sizes sum to `total`. -/
def validateFrom (previous : List Upload) (total : Nat) : List Upload → Except ValidateError Unit
  | [] => .ok ()
  | file :: rest =>
    match validate file with
    | .error e => .error e
    | .ok bytes =>
      if total + bytes > maxSendBytes then .error .attachmentTooLarge
      else if previous.any fun p => file.id = p.id then .error .invalidRequest
      else validateFrom (previous ++ [file]) (total + bytes) rest

/-- Validate the ordered set, rejecting duplicate upload IDs and combined overflow. -/
def validateSet (files : List Upload) : Except ValidateError Unit :=
  if files.length > maxFiles then .error .tooManyAttachments else validateFrom [] 0 files

theorem validateFrom_ids {previous files : List Upload} {total : Nat}
    (h : validateFrom previous total files = .ok ()) (hp : (previous.map Upload.id).Nodup) :
    ((previous ++ files).map Upload.id).Nodup := by
  induction files generalizing previous total with
  | nil => simpa using hp
  | cons file rest ih =>
    simp only [validateFrom] at h
    split at h
    · simp at h
    · split at h
      · simp at h
      · split at h
        · simp at h
        · next hfresh =>
          have hnew : file.id ∉ previous.map Upload.id := by
            rw [List.mem_map]
            rintro ⟨p, hmem, hid⟩
            exact hfresh (List.any_eq_true.mpr ⟨p, hmem, by simpa using hid.symm⟩)
          have hnext : ((previous ++ [file]).map Upload.id).Nodup := by
            rw [List.map_append, List.map_singleton]
            refine hp.append (List.nodup_singleton _) ?_
            intro x hx hf
            rw [List.mem_singleton.mp hf] at hx
            exact hnew hx
          simpa using ih h hnext

theorem validateSet_ids {files : List Upload} (h : validateSet files = .ok ()) :
    (files.map Upload.id).Nodup := by
  unfold validateSet at h
  split at h
  · simp at h
  · simpa using validateFrom_ids h List.nodup_nil

end Attachments

end Zimbr
