import Zimbr.Client.ImageCache
import Zimbr.Library.Cells

set_option autoImplicit false

/-!
# Delivery of notifications

A notification waits a bounded time for the avatar of its sender. The media
worker and the capabilities of the backend are inputs of every operation.
-/
namespace Zimbr
open Library

structure Notice where
  chat : Bytes
  summary : Bytes
  body : Bytes
  avatar : Option AssetRef := none
  deriving DecidableEq, Repr

/-- What the queue sees of the media worker. A request may fail, also where another one for the
same avatar does not: the answers are told apart by the chats, of which no two that wait agree. -/
structure MediaView where
  avatars : Bool
  epoch : Bytes
  generation : Nat
  key : AssetRef → ImageCache.Key
  request : Bytes → AssetRef → Bool

structure MediaResult extends ImageCache.Result where
  generation : Nat

structure PendingNotice where
  notice : Notice
  key : ImageCache.Key
  generation : Nat
  deadline : Int
  deriving DecidableEq, Repr

inductive Delivery where
  /-- The backend got the notice, and the queue freed it. -/
  | shown (notice : Notice) (pixels : Option ImageCache.Pixels)
  /-- The queue freed the notice. -/
  | destroyed (notice : Notice)
  /-- The backend withdraws what it shows of the chat. -/
  | withdrawn (chat : Bytes)
  deriving DecidableEq, Repr

namespace NotificationQueue

def maxPending : Nat := 64

def waitMs : Int := 750

abbrev Queue := Cells PendingNotice maxPending

def release (p : PendingNotice) (pixels : Option ImageCache.Pixels) :
    Option PendingNotice × List Delivery :=
  (none, [.shown p.notice pixels])

def dismissEntry (chat : Bytes) (p : PendingNotice) : Option PendingNotice × List Delivery :=
  if p.notice.chat = chat then (none, [.destroyed p.notice]) else (some p, [])

def dismiss (chat : Bytes) (q : Queue) : Queue × List Delivery :=
  let (q, out) := q.sweep (dismissEntry chat)
  (q, out ++ [.withdrawn chat])

/-- The avatar that is worth waiting for. -/
def awaited (notice : Notice) (media : Option MediaView) (images : Int) :
    Option (MediaView × AssetRef) := do
  let m ← media
  let asset ← notice.avatar
  if !m.avatars || m.epoch.length = 0 || images = 0 then none
  else match asset.availability with
    | .ready | .pending => if m.request notice.chat asset then some (m, asset) else none
    | .notLocal | .unavailable | .unsupported | .oversized | .retired => none

/-- `best`: the cell that waits least among those before cell `i`. -/
def freeSlot : List (Option PendingNotice) → Nat → Option (Nat × Int) → Nat
  | [], _, best => (best.map Prod.fst).getD 0
  | none :: _, i, _ => i
  | some p :: rest, i, best =>
    if best.all fun b => p.deadline < b.2 then freeSlot rest (i + 1) (some (i, p.deadline))
    else freeSlot rest (i + 1) best

def submit (notice : Notice) (media : Option MediaView) (images now : Int) (q : Queue) :
    Queue × List Delivery :=
  let (q, out) := dismiss notice.chat q
  match awaited notice media images with
  | none => (q, out ++ [.shown notice none])
  | some (m, asset) =>
    let slot := freeSlot q.cells 0 none
    (q.put slot {
        notice := notice
        key := m.key asset
        generation := m.generation
        deadline := now + waitMs },
      out ++ (q.entry slot).elim [] fun p => [.shown p.notice none])

def pollEntry (media : Option MediaView) (images now : Int) (p : PendingNotice) :
    Option PendingNotice × List Delivery :=
  match media with
  | none => release p none
  | some m =>
    if now ≥ p.deadline || p.generation ≠ m.generation || !m.avatars || images = 0 then
      release p none
    else if p.notice.avatar.all (m.request p.notice.chat) then (some p, [])
    else release p none

def poll (media : Option MediaView) (images now : Int) (q : Queue) : Queue × List Delivery :=
  q.sweep (pollEntry media images now)

def acceptEntry (result : MediaResult) (p : PendingNotice) :
    Option PendingNotice × List Delivery :=
  if p.generation ≠ result.generation || p.key ≠ result.key then (some p, [])
  else release p (if result.state = .ready then some result.pixels else none)

def accept (media : MediaView) (result : MediaResult) (q : Queue) : Queue × List Delivery :=
  if result.generation ≠ media.generation || !media.avatars then (q, [])
  else q.sweep (acceptEntry result)

def deinit (q : Queue) : List Delivery :=
  (q.sweep fun p => ((none : Option PendingNotice), [.destroyed p.notice])).2

inductive Action where
  | submit (notice : Notice) (media : Option MediaView) (images now : Int)
  | poll (media : Option MediaView) (images now : Int)
  | accept (media : MediaView) (result : MediaResult)
  | dismiss (chat : Bytes)

def apply (q : Queue) : Action → Queue × List Delivery
  | .submit notice media images now => submit notice media images now q
  | .poll media images now => poll media images now q
  | .accept media result => accept media result q
  | .dismiss chat => dismiss chat q

def delivery : Machine Queue Action Delivery where
  step q a := (apply q a).1
  out q a := (apply q a).2

end NotificationQueue
end Zimbr
