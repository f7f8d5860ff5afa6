import Zimbr.Library.Disk
import Zimbr.Relay.Uploads

set_option autoImplicit false

/-!
# Private files of uploads

File work runs outside the journal's mutex, one system call at a time.
-/
namespace Zimbr.Relay.Files
open Library

/-- The uploads directory: a directory for each id, with the file under its name. -/
abbrev Storage := Disk Bytes UInt8

/-- How a system call ended; `lost` failed after its effect. -/
inductive Call where
  | ok | refused | lost
  deriving DecidableEq, Repr

def hexDigit (b : UInt8) : Option UInt8 :=
  if isDigit b then some (b - 48)
  else if 97 ≤ b && b ≤ 102 then some (b - 97 + 10)
  else if 65 ≤ b && b ≤ 70 then some (b - 65 + 10)
  else none

/-- `std.fmt.hexToBytes`. -/
def hexToBytes : Bytes → Option Bytes
  | [] => some []
  | [_] => none
  | high :: low :: rest =>
    match hexDigit high, hexDigit low, hexToBytes rest with
    | some h, some l, some bytes => some ((h * 16 + l) :: bytes)
    | _, _, _ => none

/-- `remove` under way: its directory once opened, and the entries it unlinked. -/
structure Removal where
  id : Bytes
  directory : Option Nat := none
  count : Nat := 0
  deriving DecidableEq, Repr

inductive Sweep where
  | open (call : Call)
  | unlink (name : Bytes) (call : Call)
  | finish (call : Call)
  deriving DecidableEq, Repr

inductive Progress where
  | going (r : Removal) | done | failed
  deriving DecidableEq, Repr

/-- `zr_upload_remove`: a reservation contains only a few files. -/
def Removal.step (r : Removal) (disk : Storage) : Sweep → Progress × Storage
  | .open call =>
    if call = .ok then
      match disk.handle? r.id with
      | none => (.done, disk)
      | some directory => (.going { r with directory := some directory }, disk)
    else (.failed, disk)
  | .unlink name call =>
    match r.directory with
    | none => (.going r, disk)
    | some directory =>
      if r.count + 1 > 16 || call = .refused then (.failed, disk)
      else (if call = .ok then .going { r with count := r.count + 1 } else .failed,
        disk.unlink directory name)
  | .finish call =>
    match r.directory with
    | none => (.going r, disk)
    | some _ =>
      if call = .refused then (.failed, disk)
      else match disk.rmdir r.id with
      | none => (.failed, disk)
      | some disk => (if call = .ok then .done else .failed, disk)

/-- What `beginTransfer` fixes before it touches the disk. -/
structure Plan where
  name : Bytes
  temporary : Bytes
  expected : Nat
  digest : Bytes
  deriving DecidableEq, Repr

def temporaryName (lease : Uploads.Lease) : Bytes :=
  let temporary := text ".tmp-" ++ lease.token
  if lease.file.name = temporary then temporary ++ text "-partial" else temporary

def plan (lease : Uploads.Lease) : Option Plan :=
  match Attachments.validate lease.file with
  | .error _ => none
  | .ok expected =>
    if !validId lease.token then none
    else (hexToBytes lease.file.sha256).map fun digest => {
      name := lease.file.name
      temporary := temporaryName lease
      expected := expected
      digest := digest }

/-- An open temporary file; `hashed` are the bytes the hash was fed. -/
structure Transfer extends Plan where
  directory : Nat
  file : Nat
  received : Nat := 0
  hashed : Bytes := []
  deriving DecidableEq, Repr

namespace Transfer

/-- Write a bounded chunk; `stored` is how much of it a failed write stored. -/
def write (t : Transfer) (disk : Storage) (bytes : Bytes) (stored : Option Nat) :
    Option Transfer × Storage :=
  if bytes.length > t.expected - t.received then (none, disk)
  else match stored with
  | none => (some { t with received := t.received + bytes.length, hashed := t.hashed ++ bytes },
      disk.append t.directory t.file bytes)
  | some n => (none, disk.append t.directory t.file (bytes.take n))

/-- `zr_upload_install`. -/
def install (t : Transfer) (disk : Storage) (call : Call) : Bool × Storage :=
  if t.temporary = t.name || disk.size? t.directory t.file != some t.expected ||
      call = .refused then
    (false, disk)
  else match disk.install t.directory t.temporary t.name with
  | none => (false, disk)
  | some disk => (call = .ok, disk)

/-- Verify the original bytes, then publish their name durably. -/
def sealFile (sha256 : Bytes → Bytes) (t : Transfer) (disk : Storage) (call : Call) :
    Bool × Storage :=
  if t.received != t.expected then (false, disk)
  else if sha256 t.hashed != t.digest then (false, disk)
  else t.install disk call

/-- `deinit` removes an unpublished file; its failures are ignored. -/
def unlink (t : Transfer) (disk : Storage) (name : Bytes) (call : Call) : Storage :=
  if call = .refused then disk else disk.unlink t.directory name

end Transfer

end Zimbr.Relay.Files
