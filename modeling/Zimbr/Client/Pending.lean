import Zimbr.Client.History
import Zimbr.Library.Pairing

set_option autoImplicit false

/-!
# Pending sends without their echoes

A message can arrive before its request update, or remain unlinked. Visible echoes
are paired with pending sends for display only. `timestampMs` reads a timestamp;
the result is missing if it is none.
-/
namespace Zimbr.Client
open Library

structure Pending where
  input : SendInput
  state : OutboxState
  detail : String := ""
  record : Option SendRequest := none
  sentAt : Bytes
  deriving DecidableEq, Repr

def unknownGraceMs : Int := 30000

def Store.linkedIds (s : Store) (selected : Bytes) : List Bytes :=
  (s.sendEchoes.filter fun echo => s.isMember selected echo.2).map fun echo => echo.1

section Sends

variable (timestampMs : Bytes → Option Int) (epoch : Bytes) (messages : List Message)

def multipartDelivered (p : Pending) : Bool :=
  if p.input.attachments.length = 0 || p.state != .delivered || p.input.serverEpoch != epoch then false
  else match p.record with
  | none => false
  | some record => record.parts.length != 0 && record.parts.all fun part =>
      part.state = .delivered && part.messageId.any fun id => messages.any fun m => m.id = id

def unlinked (p : Pending) : Bool :=
  !(p.input.attachments.length != 0 || p.input.serverEpoch != epoch || p.state = .failed) &&
    !p.record.any fun record => record.messageId.isSome || record.candidateMessageId.isSome

/-- Allow the relay's small timestamp tolerance and the local send grace period. -/
def echoes (sent : Int) (text : Bytes) (m : Message) : Bool :=
  m.direction = .outgoing && m.service = Zimbr.text "imessage" && m.kind = .text &&
    m.text.getD [] = text && (timestampMs m.timestamp).any fun sentMs =>
      !(sentMs < sent - 2000 || sentMs > sent + unknownGraceMs)

def mayEcho (p : Pending) (m : Message) : Bool :=
  unlinked epoch p && (timestampMs p.sentAt).any fun sent => echoes timestampMs sent p.input.text m

/-- The message that the loop of `pendingEcho` stops at. -/
def findEcho (used : List Bytes) (p : Pending) : Option Message :=
  if !unlinked epoch p then none
  else (timestampMs p.sentAt).bind fun sent =>
    messages.find? fun m => !used.contains m.id && echoes timestampMs sent p.input.text m

def pendingEcho (used : List Bytes) (p : Pending) : Option Bytes :=
  (findEcho timestampMs epoch messages used p).map (·.id)

def keepPending (used : List Bytes) : List Pending → List Pending
  | [] => []
  | p :: rest =>
    if multipartDelivered epoch messages p then keepPending used rest
    else match pendingEcho timestampMs epoch messages used p with
    | some id => keepPending (id :: used) rest
    | none => p :: keepPending used rest

def pendingWithoutEchoes (s : Store) (selected : Bytes) (pending : List Pending) : List Pending :=
  if pending.length = 0 || messages.length = 0 then pending
  else keepPending timestampMs epoch messages (s.linkedIds selected) pending

end Sends

/-- What happens to a pending send: it is listed, all its parts were delivered, or a
message stands for it. -/
inductive Fate where
  | listed
  | complete
  | echoed (m : Message)
  deriving DecidableEq, Repr

def Fate.echo? : Fate → Option Message
  | .echoed m => some m
  | _ => none

/-- A message that may stand for an unlinked text send. -/
structure Echo (timestampMs : Bytes → Option Int) (epoch : Bytes) (p : Pending) (m : Message) : Prop where
  plain : p.input.attachments = []
  current : p.input.serverEpoch = epoch
  unfailed : p.state ≠ .failed
  unlinked : ∀ record, p.record = some record →
    record.messageId = none ∧ record.candidateMessageId = none
  direction : m.direction = .outgoing
  service : m.service = text "imessage"
  kind : m.kind = .text
  text : m.text.getD [] = p.input.text
  time : ∃ sent sentMs, timestampMs p.sentAt = some sent ∧ timestampMs m.timestamp = some sentMs ∧
    sent - 2000 ≤ sentMs ∧ sentMs ≤ sent + unknownGraceMs

/-- A send is hidden for a reason. -/
def Justified (timestampMs : Bytes → Option Int) (epoch : Bytes) (messages : List Message)
    (linked : List Bytes) (p : Pending) : Fate → Prop
  | .listed => True
  | .complete => p.input.attachments ≠ [] ∧ ∃ record, p.record = some record ∧ record.parts ≠ [] ∧
      ∀ part ∈ record.parts, part.state = .delivered ∧ ∃ m ∈ messages, part.messageId = some m.id
  | .echoed m => m ∈ messages ∧ m.id ∉ linked ∧ Echo timestampMs epoch p m

def InOrder (timestampMs : Bytes → Option Int) (times : List Bytes) : Prop :=
  times.Pairwise fun a b => ∀ t u, timestampMs a = some t → timestampMs b = some u → t ≤ u

section Reasons

variable {timestampMs : Bytes → Option Int} {epoch : Bytes} {messages : List Message} {p : Pending}
  {used : List Bytes} {m : Message}

theorem multipartDelivered_ok (h : multipartDelivered epoch messages p = true) :
    p.input.attachments ≠ [] ∧ ∃ record, p.record = some record ∧ record.parts ≠ [] ∧
      ∀ part ∈ record.parts, part.state = .delivered ∧ ∃ m ∈ messages, part.messageId = some m.id := by
  unfold multipartDelivered at h
  split_ifs at h with hskip
  simp only [Bool.or_eq_true, decide_eq_true_eq, not_or] at hskip
  refine ⟨fun hnil => hskip.1.1 (by rw [hnil]; rfl), ?_⟩
  cases hrecord : p.record with
  | none =>
    rw [hrecord] at h
    exact nomatch h
  | some record =>
    rw [hrecord, Bool.and_eq_true, List.all_eq_true] at h
    refine ⟨record, rfl, fun hnil => by simp [hnil] at h, fun part hpart => ?_⟩
    have hdelivered := h.2 part hpart
    simp only [Bool.and_eq_true, decide_eq_true_eq, Option.any_eq_true, List.any_eq_true] at hdelivered
    obtain ⟨hstate, id, hid, m, hm, rfl⟩ := hdelivered
    exact ⟨hstate, m, hm, hid⟩

theorem unlinked_iff : unlinked epoch p = true ↔ p.input.attachments = [] ∧
    p.input.serverEpoch = epoch ∧ p.state ≠ .failed ∧ ∀ record, p.record = some record →
      record.messageId = none ∧ record.candidateMessageId = none := by
  cases hrecord : p.record with
  | none => simp [unlinked, hrecord, and_assoc]
  | some record => simp [unlinked, hrecord, and_assoc]

theorem mayEcho_iff : mayEcho timestampMs epoch p m = true ↔ Echo timestampMs epoch p m := by
  rw [mayEcho, Bool.and_eq_true, unlinked_iff, Option.any_eq_true]
  refine Iff.symm ?_
  constructor
  · intro h
    obtain ⟨sent, sentMs, hsent, hat, hlow, hhigh⟩ := h.time
    refine ⟨⟨h.plain, h.current, h.unfailed, h.unlinked⟩, sent, hsent, ?_⟩
    simp [echoes, h.direction, h.service, h.kind, h.text, hat]
    omega
  · rintro ⟨⟨hplain, hcurrent, hunfailed, hunlinked⟩, sent, hsent, hechoes⟩
    simp only [echoes, Bool.and_eq_true, decide_eq_true_eq, Option.any_eq_true, Bool.not_eq_true',
      Bool.or_eq_false_iff, decide_eq_false_iff_not] at hechoes
    obtain ⟨⟨⟨⟨hdirection, hservice⟩, hkind⟩, htext⟩, sentMs, hat, hlow, hhigh⟩ := hechoes
    exact ⟨hplain, hcurrent, hunfailed, hunlinked, hdirection, hservice, hkind, htext,
      sent, sentMs, hsent, hat, by omega, by omega⟩

theorem findEcho_ok (h : findEcho timestampMs epoch messages used p = some m) :
    m ∈ messages ∧ m.id ∉ used ∧ Echo timestampMs epoch p m := by
  unfold findEcho at h
  split_ifs at h with hskip
  obtain ⟨sent, hsent, hfind⟩ := Option.bind_eq_some_iff.mp h
  have hfits := List.find?_some hfind
  rw [Bool.and_eq_true] at hfits
  refine ⟨List.mem_of_find?_eq_some hfind, ?_, mayEcho_iff.mp ?_⟩
  · simpa using hfits.1
  · simp only [mayEcho, Bool.and_eq_true, Option.any_eq_true]
    exact ⟨by simpa using hskip, sent, hsent, hfits.2⟩

end Reasons

section Fates

variable (timestampMs : Bytes → Option Int) (epoch : Bytes) (messages : List Message)

/-- What the loop does with each send. -/
def fates (used : List Bytes) : List Pending → List Fate
  | [] => []
  | p :: rest =>
    if multipartDelivered epoch messages p then .complete :: fates used rest
    else match findEcho timestampMs epoch messages used p with
    | some m => .echoed m :: fates (m.id :: used) rest
    | none => .listed :: fates used rest

def taken (fates : List Fate) : List Message := fates.filterMap Fate.echo?

@[simp] theorem taken_complete (rest : List Fate) : taken (.complete :: rest) = taken rest := rfl

@[simp] theorem taken_listed (rest : List Fate) : taken (.listed :: rest) = taken rest := rfl

@[simp] theorem taken_echoed (m : Message) (rest : List Fate) :
    taken (.echoed m :: rest) = m :: taken rest := rfl

variable {timestampMs epoch messages} {used : List Bytes} {pending : List Pending}

theorem keepPending_fates : keepPending timestampMs epoch messages used pending =
    ((pending.zip (fates timestampMs epoch messages used pending)).filter
      fun row => decide (row.2 = .listed)).map fun row => row.1 := by
  induction pending generalizing used with
  | nil => rfl
  | cons p rest ih =>
    rw [keepPending, fates]
    split_ifs
    · rw [ih]
      rfl
    · rw [pendingEcho]
      cases findEcho timestampMs epoch messages used p with
      | none =>
        rw [Option.map_none, ih]
        rfl
      | some m =>
        have hrest := @ih (m.id :: used)
        rw [Option.map_some]
        exact hrest

theorem fates_justified {linked : List Bytes} (hused : ∀ id ∈ linked, id ∈ used) :
    List.Forall₂ (Justified timestampMs epoch messages linked) pending
      (fates timestampMs epoch messages used pending) := by
  induction pending generalizing used with
  | nil => exact .nil
  | cons p rest ih =>
    rw [fates]
    split_ifs with hcomplete
    · exact .cons (multipartDelivered_ok hcomplete) (ih hused)
    · cases hecho : findEcho timestampMs epoch messages used p with
      | none => exact .cons trivial (ih hused)
      | some m =>
        obtain ⟨hmem, hfree, hm⟩ := findEcho_ok hecho
        refine .cons ⟨hmem, fun hlinked => hfree (hused m.id hlinked), hm⟩ ?_
        exact ih fun id hid => List.mem_cons_of_mem _ (hused id hid)

/-- A message that stands for one send stands for no other. -/
theorem fates_distinct : ((taken (fates timestampMs epoch messages used pending)).map (·.id)).Nodup ∧
    ∀ m ∈ taken (fates timestampMs epoch messages used pending), m.id ∉ used := by
  induction pending generalizing used with
  | nil => simp [fates, taken]
  | cons p rest ih =>
    rw [fates]
    split_ifs
    · exact ih
    · cases hecho : findEcho timestampMs epoch messages used p with
      | none => exact ih
      | some m =>
        obtain ⟨hnodup, hfree⟩ := @ih (m.id :: used)
        dsimp only
        rw [taken_echoed, List.map_cons, List.nodup_cons]
        refine ⟨⟨fun hmem => ?_, hnodup⟩, fun m' hm' => ?_⟩
        · obtain ⟨m', hm', hid⟩ := List.mem_map.mp hmem
          exact hfree m' hm' (List.mem_cons.mpr (Or.inl hid))
        · rcases List.mem_cons.mp hm' with rfl | hm'
          · exact (findEcho_ok hecho).2.1
          · exact fun hmem => hfree m' hm' (List.mem_cons_of_mem _ hmem)

theorem keepPending_nil : keepPending timestampMs epoch [] used pending = pending := by
  induction pending generalizing used with
  | nil => rfl
  | cons p rest ih =>
    have hincomplete : multipartDelivered epoch [] p = false := by
      unfold multipartDelivered
      split_ifs
      · rfl
      · cases p.record with
        | none => rfl
        | some record =>
          cases hparts : record.parts <;> simp [hparts]
    have hnone : findEcho timestampMs epoch [] used p = none := by
      cases h : findEcho timestampMs epoch [] used p with
      | none => rfl
      | some m => exact absurd (findEcho_ok h).1 List.not_mem_nil
    rw [keepPending, hincomplete, if_neg Bool.false_ne_true, pendingEcho, hnone]
    exact congrArg (p :: ·) ih

/-- The loop finds the first free message that may stand for the send. -/
theorem findEcho_eq (p : Pending) : findEcho timestampMs epoch messages used p =
    (messages.filter fun m => !used.contains m.id).find? (mayEcho timestampMs epoch p) := by
  rw [List.find?_filter]
  unfold findEcho mayEcho
  cases unlinked epoch p with
  | false =>
    refine Eq.symm (List.find?_eq_none.mpr fun m _ => ?_)
    simp
  | true =>
    cases timestampMs p.sentAt with
    | none =>
      refine Eq.symm (List.find?_eq_none.mpr fun m _ => ?_)
      simp
    | some sent => simp

/-- Where no two messages share an id, the loop pairs sends with free messages in
order. -/
theorem fates_pair (hids : (messages.map (·.id)).Nodup) :
    (fates timestampMs epoch messages used pending).map Fate.echo? =
      pair (mayEcho timestampMs epoch) pending (messages.filter fun m => !used.contains m.id) := by
  induction pending generalizing used with
  | nil => rfl
  | cons p rest ih =>
    rw [fates, pair, ← findEcho_eq]
    split_ifs with hcomplete
    · have hnone : findEcho timestampMs epoch messages used p = none := by
        cases hecho : findEcho timestampMs epoch messages used p with
        | none => rfl
        | some m => exact absurd (findEcho_ok hecho).2.2.plain (multipartDelivered_ok hcomplete).1
      rw [hnone, List.map_cons, ih]
      rfl
    · cases hecho : findEcho timestampMs epoch messages used p with
      | none =>
        dsimp only
        rw [List.map_cons, ih]
        rfl
      | some m =>
        have hmem := (findEcho_ok hecho).1
        have hfree : (messages.filter fun m => !used.contains m.id).erase m =
            messages.filter fun m' => !(m.id :: used).contains m'.id := by
          rw [(hids.of_map.filter _).erase_eq_filter, List.filter_filter]
          refine List.filter_congr fun m' hm' => ?_
          have hsame : m' = m ↔ m'.id = m.id :=
            ⟨congrArg _, fun hid => List.inj_on_of_nodup_map hids hm' hmem hid⟩
          by_cases hid : m'.id = m.id
          · simp [hsame.mpr hid]
          · simp [hid, mt hsame.mp hid]
        dsimp only
        rw [List.map_cons, ih, hfree]
        rfl

theorem pendingWithoutEchoes_eq (s : Store) (selected : Bytes) :
    pendingWithoutEchoes timestampMs epoch messages s selected pending =
      keepPending timestampMs epoch messages (s.linkedIds selected) pending := by
  unfold pendingWithoutEchoes
  split_ifs with hempty
  · simp only [Bool.or_eq_true, decide_eq_true_eq, List.length_eq_zero_iff] at hempty
    rcases hempty with rfl | rfl
    · rfl
    · exact keepPending_nil.symm
  · rfl

end Fates

section Optimum

variable {timestampMs : Bytes → Option Int} {epoch : Bytes} {messages : List Message}
  {pending : List Pending}

/-- In time order a later send can have what an earlier one gives up: all windows
are equally long. -/
theorem echo_exchange {p p' : Pending} {m m' : Message}
    (hsent : ∀ t u, timestampMs p.sentAt = some t → timestampMs p'.sentAt = some u → t ≤ u)
    (hmessages : ∀ t u, timestampMs m.timestamp = some t → timestampMs m'.timestamp = some u → t ≤ u)
    (h : Echo timestampMs epoch p m) (hp : Echo timestampMs epoch p m')
    (hm : Echo timestampMs epoch p' m) : Echo timestampMs epoch p' m' where
  plain := hm.plain
  current := hm.current
  unfailed := hm.unfailed
  unlinked := hm.unlinked
  direction := hp.direction
  service := hp.service
  kind := hp.kind
  text := hp.text.trans (h.text.symm.trans hm.text)
  time := by
    obtain ⟨t, u', ht, hu', -, hhigh⟩ := hp.time
    obtain ⟨t', u, ht', hu, hlow, -⟩ := hm.time
    have hsend := hsent t t' ht ht'
    have hmessage := hmessages u u' hu hu'
    exact ⟨t', u', ht', hu', by omega, by omega⟩

theorem exchanges_inOrder (hpending : InOrder timestampMs (pending.map (·.sentAt)))
    (hmessages : InOrder timestampMs (messages.map (·.timestamp))) :
    Exchanges (mayEcho timestampMs epoch) pending messages := by
  refine (List.pairwise_map.mp hpending).imp fun {p p'} hsent => ?_
  refine (List.pairwise_map.mp hmessages).imp fun {m m'} hmessage h hp hm => ?_
  rw [mayEcho_iff] at h hp hm ⊢
  exact echo_exchange hsent hmessage h hp hm

/-- In time order no pairing of sends with free messages is larger. -/
theorem fates_max {linked : List Bytes} (hids : (messages.map (·.id)).Nodup)
    (hpending : InOrder timestampMs (pending.map (·.sentAt)))
    (hmessages : InOrder timestampMs (messages.map (·.timestamp))) {others : List (Option Message)}
    (hfits : List.Forall₂ (fun p o => ∀ m, o = some m →
      m ∈ messages ∧ m.id ∉ linked ∧ Echo timestampMs epoch p m) pending others)
    (hdistinct : (others.reduceOption.map (·.id)).Nodup) :
    others.reduceOption.length ≤ (taken (fates timestampMs epoch messages linked pending)).length := by
  let free := messages.filter fun m => !linked.contains m.id
  have hfree : List.Sublist free messages := List.filter_sublist
  have hothers : Matching (mayEcho timestampMs epoch) pending free others := by
    refine .of_forall₂ (hfits.imp fun p o ho m hm => ?_) hdistinct.of_map
    obtain ⟨hmem, hlinked, hecho⟩ := ho m hm
    exact ⟨List.mem_filter.mpr ⟨hmem, by simpa using hlinked⟩, mayEcho_iff.mpr hecho⟩
  have hmax := pair_max (hids.of_map.sublist hfree)
    ((exchanges_inOrder hpending hmessages).imp fun hpair => hpair.sublist hfree) hothers
  rw [← fates_pair hids, List.reduceOption, List.filterMap_map] at hmax
  exact hmax

end Optimum

/-- What the visible messages account for are requests of the thread. -/
def Store.AccountsWithin (s : Store) (selected : Bytes) (messages : List Message) : Prop :=
  ∀ m ∈ messages, ∀ echo ∈ s.sendEchoes, echo.1 = m.id → s.isMember selected echo.2 = true

section Accounts

variable {s : Store} {selected : Bytes} {messages : List Message} {m : Message}

theorem Store.AccountsWithin.linked_iff (h : s.AccountsWithin selected messages) (hm : m ∈ messages) :
    m.id ∈ s.linkedIds selected ↔ m.id ∈ s.sendEchoes.map Prod.fst := by
  simp only [Store.linkedIds, List.mem_map, List.mem_filter]
  constructor
  · rintro ⟨echo, ⟨hecho, -⟩, hid⟩
    exact ⟨echo, hecho, hid⟩
  · rintro ⟨echo, hecho, hid⟩
    exact ⟨echo, ⟨hecho, h m hm echo hecho hid⟩, hid⟩

theorem justified_free {timestampMs : Bytes → Option Int} {epoch : Bytes} {linked : List Bytes}
    {pending : List Pending} {fates : List Fate}
    (h : List.Forall₂ (Justified timestampMs epoch messages linked) pending fates)
    (hm : m ∈ taken fates) : m ∈ messages ∧ m.id ∉ linked := by
  induction h with
  | nil => exact absurd hm List.not_mem_nil
  | @cons _ fate _ _ hfate _ ih =>
    cases fate with
    | listed => exact ih hm
    | complete => exact ih hm
    | echoed m' =>
      rw [taken_echoed] at hm
      rcases List.mem_cons.mp hm with rfl | hm
      · exact ⟨hfate.1, hfate.2.1⟩
      · exact ih hm

end Accounts

/-- Each hidden send is hidden for a reason and by a message of its own, and every other
one is listed in its place. Where no visible message accounts for a request of another
thread, the messages account for no request at all, and in time order as many text
sends are hidden as any one-to-one pairing with such messages could hide. -/
theorem pending_echoes (timestampMs : Bytes → Option Int) (s : Store) (selected epoch : Bytes)
    (messages : List Message) (pending : List Pending) :
    ∃ fates : List Fate,
      List.Forall₂ (Justified timestampMs epoch messages (s.linkedIds selected)) pending fates ∧
      ((taken fates).map (·.id)).Nodup ∧
      pendingWithoutEchoes timestampMs epoch messages s selected pending =
        ((pending.zip fates).filter fun row => decide (row.2 = .listed)).map (fun row => row.1) ∧
      (s.AccountsWithin selected messages →
        (∀ m ∈ taken fates, m.id ∉ s.sendEchoes.map Prod.fst) ∧
        ((messages.map (·.id)).Nodup → InOrder timestampMs (pending.map (·.sentAt)) →
          InOrder timestampMs (messages.map (·.timestamp)) →
          ∀ others : List (Option Message),
            List.Forall₂ (fun p o => ∀ m, o = some m → m ∈ messages ∧
              m.id ∉ s.sendEchoes.map Prod.fst ∧ Echo timestampMs epoch p m) pending others →
            (others.reduceOption.map (·.id)).Nodup →
            others.reduceOption.length ≤ (taken fates).length)) := by
  have hjustified : List.Forall₂ (Justified timestampMs epoch messages (s.linkedIds selected)) pending
      (fates timestampMs epoch messages (s.linkedIds selected) pending) :=
    fates_justified fun _ hid => hid
  refine ⟨_, hjustified, fates_distinct.1, ?_, fun hwithin => ⟨fun m hm => ?_, ?_⟩⟩
  · rw [pendingWithoutEchoes_eq, keepPending_fates]
  · obtain ⟨hmem, hfree⟩ := justified_free hjustified hm
    rwa [← hwithin.linked_iff hmem]
  · intro hids hpending hmessages others hfits hdistinct
    refine fates_max hids hpending hmessages (hfits.imp fun p o ho m hm => ?_) hdistinct
    obtain ⟨hmem, hfree, hecho⟩ := ho m hm
    exact ⟨hmem, mt (hwithin.linked_iff hmem).mp hfree, hecho⟩

namespace Sample

def clock (time : Bytes) : Option Int :=
  if time = text "2026-01-01T00:00:00Z" then some 1767225600000
  else if time = text "2026-01-01T00:00:01Z" then some 1767225601000 else none

def hello : Message where
  id := text "m"
  sender := []
  direction := .outgoing
  service := text "imessage"
  timestamp := text "2026-01-01T00:00:01Z"
  kind := .text
  text := some (text "Hello")
  decoding := .plain
  observedStatus := .sent

def helloSend (state : OutboxState) : Pending where
  input := { requestId := text "r", serverEpoch := text "e", target := {}, text := text "Hello" }
  state := state
  sentAt := text "2026-01-01T00:00:00Z"

/-- The message accounts for a request that was saved under another key. -/
def elsewhere : Store where
  outbox := .single (text "q") {
    epoch := text "e", draftKey := text "new:peer", state := .delivered, sentAt := 1767225600000
    payload := { requestId := text "q", serverEpoch := text "e", target := {}, text := text "Hello" }
    record := some {
      value := {
        requestId := text "q", serverEpoch := text "e", target := {}, text := text "Hello"
        state := .delivered, messageId := some (text "m") }
      raw := [] } }

end Sample

/-- A failed send stays although a message matches it, and a message that accounts
for a request of another key hides a send. -/
theorem pending_echoes_others :
    pendingWithoutEchoes Sample.clock (text "e") [Sample.hello] {} (text "c") [Sample.helloSend .failed] =
        [Sample.helloSend .failed] ∧
      (Sample.helloSend .failed).record = none ∧ (Sample.helloSend .failed).input.attachments = [] ∧
      (Sample.clock (Sample.helloSend .failed).sentAt).any (fun sent =>
        echoes Sample.clock sent (Sample.helloSend .failed).input.text Sample.hello) = true ∧
      ({} : Store).sendEchoes = [] ∧
      pendingWithoutEchoes Sample.clock (text "e") [Sample.hello] Sample.elsewhere (text "c")
        [Sample.helloSend .sending] = [] ∧
      Sample.elsewhere.sendEchoes = [(Sample.hello.id, text "new:peer")] := by
  decide +kernel

theorem pending_echoes_hello :
    pendingWithoutEchoes Sample.clock (text "e") [Sample.hello] {} (text "c") [Sample.helloSend .sending] =
      [] := by
  obtain ⟨fates, hjustified, -, hlisted, hwithin⟩ :=
    pending_echoes Sample.clock {} (text "c") (text "e") [Sample.hello] [Sample.helloSend .sending]
  obtain ⟨-, hmax⟩ := hwithin fun _ _ _ hecho => absurd hecho List.not_mem_nil
  have hecho : Echo Sample.clock (text "e") (Sample.helloSend .sending) Sample.hello :=
    mayEcho_iff.mp (by decide +kernel)
  have hpair : List.Forall₂ (fun p o => ∀ m, o = some m → m ∈ [Sample.hello] ∧
      m.id ∉ ({} : Store).sendEchoes.map Prod.fst ∧ Echo Sample.clock (text "e") p m)
      [Sample.helloSend .sending] [some Sample.hello] := by
    refine .cons (fun m hm => ?_) .nil
    obtain rfl := Option.some.inj hm
    exact ⟨List.mem_singleton_self _, List.not_mem_nil, hecho⟩
  have hle := hmax (List.nodup_singleton _) (List.pairwise_singleton _ _) (List.pairwise_singleton _ _)
    [some Sample.hello] hpair (List.nodup_singleton _)
  rw [hlisted]
  cases hjustified with
  | @cons _ fate _ _ _ hrest =>
    cases hrest
    cases fate with
    | echoed m => rfl
    | complete => rfl
    | listed => exact absurd hle (by decide)

end Zimbr.Client
