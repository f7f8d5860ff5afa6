import Zimbr.Client.Events
import Zimbr.Library.Machine

set_option autoImplicit false

/-!
# The client's worker

Deliveries of the event stream, responses and commands reach the store one at a
time, so a run is an interleaving of them.
-/
namespace Zimbr.Client
open Library

structure Notification where
  message : Message
  deriving DecidableEq, Repr

def maxNotifications : Nat := 64

/-- Keep the newest notifications during delivery stalls. -/
def pushNotification (queue : List Notification) (n : Notification) : List Notification :=
  (if queue.length = maxNotifications then queue.tail else queue) ++ [n]

/-- The cursor of the next page of history: absent at the end, empty before the first. -/
def nextPage (chat : Bytes) (s : Store) : Option Bytes :=
  match s.pages.get? chat with
  | none => some []
  | some none => none
  | some (some cursor) => if cursor = [] then none else some cursor

/-- A chat without a page is requested again; only the reads matter here. -/
def checkHistory (selected : Bytes) (frame : Frame) : Tx Unit :=
  if frame.event = text "conversation.upsert" && selected.length != 0 then do
    let thread ← Sql.query (·.threadKey selected)
    let _ ← Sql.query (nextPage thread)
  else return ()

def event (dec : Decoder) (selected : Bytes) (viewed : Bool) (frame : Frame) : Tx (List Message) := do
  let message ← eventNotification dec false frame (if viewed then selected else [])
  checkHistory selected frame
  return message.toList

/-- Commit the complete frames of one network delivery together. -/
def receiveBatch (dec : Decoder) (selected : Bytes) (viewed : Bool) (sse : Sse) (bytes : Bytes) :
    Tx (List Message × Sse) :=
  Sql.transaction (sse.feed (event dec selected viewed) bytes)

/-- `thread_cte`: the unread counts of the thread's chats are deleted. -/
def read (chat : Bytes) : Tx Unit := Sql.execute fun s => { s with
  unread := s.unread.deleteWhere fun id _ => s.isMember chat id }

def page (chat : Bytes) (next : Option Bytes) : Tx Unit := Sql.execute fun s => { s with
  pages := s.pages.upsert chat next fun _ => next }

inductive Response where
  | chats (conversations : List (Decoded Conversation)) (previews : Option (List ConversationPreview))
  | identities (identities : List (Decoded Identity)) (last : Bool)
  | history (chat : Bytes) (messages : List (Decoded Message)) (next : Option Bytes)
  | preview (chat : Bytes) (messages : List (Decoded Message))
  | hydrate (id : Bytes) (message : Decoded Message)
  | request (value : Decoded SendRequest)

def store (record : Incoming) : Tx Unit := do
  let _ ← upsertDecoded false record

def handleResponse : Response → Tx Unit
  | .chats conversations previews => do
    Sql.require (conversations.length ≤ maxPage && (previews.getD []).length ≤ maxPage) .invalidRecord
    Sql.transaction do
      Sql.each (fun v => store (.conversation v)) conversations
      match previews with
      | none => return ()
      | some items => do
        Sql.each writePreview items
        -- A chat without messages was also covered by this page.
        Sql.each (fun v : Decoded Conversation => coverPreview v.value.id) conversations
  | .identities identities last => do
    Sql.require (identities.length ≤ maxPage) .invalidRecord
    Sql.transaction do
      Sql.each (fun v => store (.identity v)) identities
      if last then Sql.execute fun s => { s with identityBootstrapped := true }
  | .history chat messages next => do
    Sql.require (messages.length ≤ maxPage) .invalidRecord
    Sql.transaction do
      Sql.each (fun v => store (.message v)) messages
      page chat next
  | .preview chat messages => do
    Sql.require (messages.length ≤ maxPage) .invalidRecord
    Sql.transaction do
      Sql.each (fun v => store (.message v)) messages
      coverPreview chat
  | .hydrate id message => do
    Sql.require (message.value.id = id && !message.value.metadataDeferred) .invalidRecord
    Sql.transaction (store (.message message))
  | .request value => do
    let _ ← upsertDecoded true (.request value)

/-- What a step finds: which statements fail, and which notifications cannot be
created. -/
structure Env where
  faults : List Bool := []
  creates : Message → Bool := fun _ => true

structure Worker where
  store : Store := {}
  /-- The parser of the attached stream; a rejected delivery ends its transport. -/
  sse : Option Sse := none
  verified : Bool := false
  selected : Bytes := []
  viewed : Bool := false
  notifications : List Notification := []

inductive Action where
  | restart
  | clear
  | attach
  /-- The relay's answer to the extensions that were asked for. -/
  | verify (env : Env) (wanted accepted : Bytes)
  | deliver (env : Env) (bytes : Bytes)
  | detach
  | sync (env : Env) (epoch cursor : Bytes)
  | respond (env : Env) (response : Response)
  | finishBootstrap (env : Env)
  | view (env : Env) (selected : Bytes) (viewed : Bool)
  | notify
  /-- Drafts, sends, files and metadata pages live in tables of their own. -/
  | elsewhere (change : Store → Store)

namespace Worker

def shown (w : Worker) : Bytes := if w.viewed then w.selected else []

def conn (w : Worker) (env : Env) : Conn Store Bytes := { db := w.store, faults := env.faults }

/-- Run a critical section; what it leaves of the store stays whatever it returns. -/
def writing {α : Type} (w : Worker) (env : Env) (m : Tx α) : Worker :=
  { w with store := (m.run (w.conn env)).2.db }

/-- The notifications of a committed batch: the newest of them, after those
that still wait. -/
def notified (env : Env) (messages : List Message) (waiting : List Notification) :
    List Notification :=
  let created := (messages.filter env.creates).map Notification.mk
  (created.foldl pushNotification []).foldl pushNotification waiting

/-- Nothing of a rejected batch is published. -/
def deliver (dec : Decoder) (w : Worker) (env : Env) (bytes : Bytes) : Worker :=
  match w.sse with
  | none => w
  | some sse =>
    if !w.verified then w
    else match (receiveBatch dec w.selected w.viewed sse bytes).run (w.conn env) with
    | (.ok (messages, sse), c) => { w with
      store := c.db
      sse := some sse
      notifications := notified env messages w.notifications }
    | (.error _, c) => { w with store := c.db, sse := none }

def verify (w : Worker) (env : Env) (wanted accepted : Bytes) : Worker :=
  if w.sse.isNone || accepted ≠ wanted then w
  else match (Sql.execute fun s : Store => { s with acceptedExtensions := accepted }).run
      (w.conn env) with
  | ((.ok () : Except Error Unit), c) => { w with store := c.db, verified := true }
  | (.error _, c) => { w with store := c.db }

def finishBootstrap : Tx Unit := Sql.execute fun s => { s with bootstrapped := true }

/-- Tables that neither events nor their reading use. -/
def besides (s change : Store) : Store := { s with
  drafts := change.drafts
  outbox := change.outbox
  outgoingFiles := change.outgoingFiles
  enrichmentCache := change.enrichmentCache
  enrichmentPages := change.enrichmentPages
  pages := change.pages }

def step (dec : Decoder) (w : Worker) : Action → Worker
  | .restart => { store := w.store, selected := w.selected }
  | .clear => {}
  | .attach => if w.sse.isNone then { w with sse := some {}, verified := false } else w
  | .verify env wanted accepted => w.verify env wanted accepted
  | .deliver env bytes => w.deliver dec env bytes
  | .detach => { w with sse := none }
  | .sync env epoch cursor => w.writing env (beginSync epoch cursor)
  | .respond env response => w.writing env (handleResponse response)
  | .finishBootstrap env => w.writing env finishBootstrap
  | .view env selected viewed =>
    let w := { w with selected := selected, viewed := viewed }
    if viewed then w.writing env (read selected) else w
  | .notify => { w with notifications := w.notifications.tail }
  | .elsewhere change => { w with store := besides w.store (change w.store) }

end Worker

def client (dec : Decoder) : Machine Worker Action Notification where
  step := Worker.step dec
  out w
    | .notify => w.notifications.head?.toList
    | _ => []

end Zimbr.Client
