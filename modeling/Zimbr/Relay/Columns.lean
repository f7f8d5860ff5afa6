import Zimbr.Library.Zoom
import Zimbr.Relay.System

set_option autoImplicit false

/-!
# What the columns of the journal hold

Identifiers are generated and dates fit their column, in every state of a run.
-/
namespace Zimbr.Relay
open Library

/-- What the columns of a journal hold: generated identifiers, and dates that
SQLite stores as signed 64-bit numbers. -/
structure Stored (j : Journal) : Prop where
  messages : ∀ id r, j.messages.get? id = some r →
    validId id = true ∧ -(2 ^ 63) ≤ r.dateNs ∧ r.dateNs < 2 ^ 63
  conversations : ∀ id r, j.conversations.get? id = some r → validId id = true
  identities : ∀ id r, j.identities.get? id = some r → validId id = true

section Writers

theorem Stored.of_tables {j j' : Journal} (h : Stored j) (hmessages : j'.messages = j.messages)
    (hconversations : j'.conversations = j.conversations)
    (hidentities : j'.identities = j.identities) : Stored j' where
  messages := hmessages ▸ h.messages
  conversations := hconversations ▸ h.conversations
  identities := hidentities ▸ h.identities

/-- The write keeps the columns well-formed when it draws generated identifiers. -/
abbrev StoredBy {α : Type} (m : Tx α) : Prop := Sql.Safe Stored (fun id => validId id = true) m

theorem next_stored : StoredBy next := by
  refine .bind (.execute? fun j j' hj hnext => ?_) fun _ => .query
  split_ifs at hnext
  rw [← Option.some.inj hnext]
  exact hj.of_tables rfl rfl rfl

theorem event_stored {seq : Nat} {record : Record} {origin : Origin} {now : Int} :
    StoredBy (event seq record origin now) := by
  refine .execute? fun j j' hj hinsert => ?_
  obtain ⟨events, -, rfl⟩ := Option.map_eq_some_iff.mp hinsert
  exact hj.of_tables rfl rfl rfl

theorem idOf_stored {α : Type} {found : Option (Bytes × α)} : StoredBy (idOf found) := by
  cases found with
  | some r => exact .pure
  | none => exact .draw

theorem idOf_valid {α : Type} {found : Option (Bytes × α)} {c c' : Conn Journal Bytes} {id : Bytes}
    (hfound : ∀ r, found = some r → validId r.1 = true) (hfresh : ∀ i ∈ c.fresh, validId i = true)
    (h : (idOf found).run c = (.ok id, c')) : validId id = true := by
  cases found with
  | some r =>
    rw [(Sql.pure_ok h).1]
    exact hfound r rfl
  | none => exact hfresh id (Sql.draw_mem h)

theorem observeIdentity_stored {now : Int} {service address : Bytes} :
    StoredBy (observeIdentity now service address) := by
  unfold observeIdentity
  split_ifs
  · exact .pure
  · refine .bind .query fun found => ?_
    split
    · exact .pure
    · refine .bind_of (R := fun id => validId id = true) .draw
        (fun c id c' _ hfresh h => hfresh id (Sql.draw_mem h)) fun id hid => ?_
      refine .bind next_stored fun seq => .bind (.execute? fun j j' hj hinsert => ?_) fun _ =>
        .bind event_stored fun _ => .pure
      unfold insertIdentity at hinsert
      split_ifs at hinsert
      obtain ⟨identities, hidentities, rfl⟩ := Option.map_eq_some_iff.mp hinsert
      exact { hj with identities := Table.all_insert hj.identities hidentities hid }

theorem observeAll_stored {now : Int} {service : Bytes} {addresses : List Bytes} :
    StoredBy (Sql.each (fun address => do let _ ← observeIdentity now service address) addresses) :=
  .each fun _ _ => .bind observeIdentity_stored fun _ => .pure

theorem updateIdentity_stored {now : Int} {value : Identity} :
    StoredBy (updateIdentity now value) := by
  refine .bind .query fun found => ?_
  split
  · exact .throw
  · refine .bind .require fun _ => ?_
    dsimp only
    split_ifs
    · exact .pure
    · refine .bind next_stored fun seq => .bind (.execute fun j hj => ?_) fun _ => event_stored
      exact { hj with identities := Table.all_modify hj.identities fun _ hid => hid }

theorem upsertConversation_stored {id : Bytes} {row : ConversationRow} {j j' : Journal}
    (hj : Stored j) (hid : validId id = true) (h : upsertConversation id row j = some j') :
    Stored j' := by
  unfold upsertConversation at h
  split at h
  · rw [← Option.some.inj h]
    exact { hj with conversations := Table.all_modify hj.conversations fun _ h => h }
  · obtain ⟨conversations, hinsert, rfl⟩ := Option.map_eq_some_iff.mp h
    exact { hj with conversations := Table.all_insert hj.conversations hinsert hid }

theorem conversation_stored {now : Int} {source : Bytes} {row : Int} {route : Bytes}
    {value : Conversation} {origin : Origin} :
    StoredBy (conversation now source row route value origin) := by
  refine .bind observeAll_stored fun _ => ?_
  refine .bind_of (R := fun found => ∀ r, found = some r → validId r.1 = true) .query
    (fun c found c' hc _ h r hr => ?_) fun found hfound => ?_
  · rw [(Sql.query_ok h).1] at hr
    have hmem := List.mem_of_find?_eq_some hr
    exact hc.conversations r.1 r.2 ((Table.get?_eq_some_iff _ _ _).mpr hmem)
  refine .bind_of (R := fun id => validId id = true) idOf_stored
    (fun c id c' _ hfresh h => idOf_valid hfound hfresh h) fun id hid => ?_
  dsimp only
  split
  · split_ifs
    · refine .bind (.execute fun j hj => ?_) fun _ => .pure
      exact { hj with conversations := Table.all_modify hj.conversations fun _ h => h }
    · exact .pure
  · refine .bind next_stored fun seq => .bind ?_ fun _ => .bind ?_ fun _ => .bind ?_ fun _ =>
      .bind event_stored fun _ => .pure
    · exact .execute? fun j j' hj h => upsertConversation_stored hj hid h
    · exact .execute fun j hj => hj.of_tables rfl rfl rfl
    · exact .each fun _ _ => .execute fun j hj => hj.of_tables rfl rfl rfl

theorem observeActors_stored {now : Int} {v : Message} : StoredBy (observeActors now v) := by
  have hactor : StoredBy (observeReactor now v) := by
    unfold observeReactor
    split
    · split
      · exact .bind observeIdentity_stored fun _ => .pure
      · exact .pure
    · exact .pure
  rw [observeActors_eq]
  split_ifs
  · exact .bind observeIdentity_stored fun _ => hactor
  · exact hactor

theorem upsertMessage_stored {id : Bytes} {row : MessageRow} {j j' : Journal} (hj : Stored j)
    (hid : validId id = true) (hdate : -(2 ^ 63) ≤ row.dateNs ∧ row.dateNs < 2 ^ 63)
    (hkey : ∀ r, findMessage row.source j = some r → validId r.1 = true)
    (h : upsertMessage id row j = some j') : Stored j' := by
  unfold upsertMessage at h
  split_ifs at h
  split at h
  · next existing _ hfound =>
    rw [← Option.some.inj h]
    have hrow := hkey _ hfound
    exact { hj with messages := Table.all_modify hj.messages fun _ _ => ⟨hrow, hdate⟩ }
  · obtain ⟨messages, hinsert, rfl⟩ := Option.map_eq_some_iff.mp h
    exact { hj with messages := Table.all_insert hj.messages hinsert ⟨hid, hdate⟩ }

theorem Stored.found {j : Journal} (hj : Stored j) {source : Bytes} {r : Bytes × MessageRow}
    (h : findMessage source j = some r) : validId r.1 = true := by
  have hmem := List.mem_of_find?_eq_some h
  exact (hj.messages r.1 r.2 ((Table.get?_eq_some_iff _ _ _).mpr hmem)).1

theorem message_stored {enc : Encoding} {now : Int} {source : Bytes} {row date : Int}
    {value : Message} {origin : Origin} (hdate : -(2 ^ 63) ≤ date ∧ date < 2 ^ 63) :
    StoredBy (message enc now source row date value origin) := by
  refine .bind (.execute fun j hj => hj.of_tables rfl rfl rfl) fun _ =>
    .bind observeActors_stored fun _ => ?_
  refine .bind_of (R := fun found => ∀ r, found = some r → validId r.1 = true) .query
    (fun c found c' hc _ h r hr => ?_) fun found hfound => ?_
  · rw [(Sql.query_ok h).1] at hr
    exact hc.found hr
  refine .bind_of (R := fun id => validId id = true) idOf_stored
    (fun c id c' _ hfresh h => idOf_valid hfound hfresh h) fun id hid => ?_
  refine .bind .query fun result => .bind .lift fun prepared => ?_
  dsimp only
  split
  · split_ifs
    · refine .execute fun j hj => ?_
      exact { hj with messages := Table.all_modify hj.messages fun _ h => h }
    · exact .pure
  · refine .bind next_stored fun seq => .bind ?_ fun _ => .bind ?_ fun _ => event_stored
    · exact .execute? fun j j' hj h =>
        upsertMessage_stored hj hid hdate (fun r hr => hj.found hr) h
    · exact .execute fun j hj => hj.of_tables rfl rfl rfl

def dated : IngestOp → Prop
  | .sourceMessage _ _ date _ _ | .message _ _ date _ _ => -(2 ^ 63) ≤ date ∧ date < 2 ^ 63
  | _ => True

theorem perform_stored {enc : Encoding} {now : Int} {op : IngestOp} (hop : dated op) :
    StoredBy (perform enc now op) := by
  cases op with
  | conversation source row route value origin => exact .bind conversation_stored fun _ => .pure
  | sourceMessage source row date value origin =>
    refine .bind .query fun cached => ?_
    split_ifs
    · exact .pure
    · exact .bind (message_stored hop) fun _ =>
        .execute fun j hj => hj.of_tables rfl rfl rfl
  | message source row date value origin => exact message_stored hop
  | observeIdentity service address => exact .bind observeIdentity_stored fun _ => .pure
  | updateIdentity value => exact updateIdentity_stored
  | setProgress key value =>
    unfold perform setProgress
    exact .execute fun j hj => hj.of_tables rfl rfl rfl
  | deleteProgress key =>
    unfold perform deleteProgress
    exact .execute fun j hj => hj.of_tables rfl rfl rfl

theorem performAll_stored {enc : Encoding} {now : Int} {ops : List IngestOp}
    (hops : ∀ op ∈ ops, dated op) : StoredBy (Sql.each (perform enc now) ops) :=
  .each fun op hop => perform_stored (hops op hop)

end Writers

section Sends

variable {now : Int}

theorem releasePart_stored {requestId uploadId : Bytes} :
    StoredBy (Uploads.releasePart requestId uploadId) :=
  .execute fun _ hj => hj.of_tables rfl rfl rfl

theorem updatePart_stored {id : Bytes} {part : SendPart × Nat} : StoredBy (updatePart id part) := by
  refine .bind (.execute? fun j j' hj h => ?_) fun _ => ?_
  · unfold setPart at h
    split_ifs at h
    rw [← Option.some.inj h]
    exact hj.of_tables rfl rfl rfl
  · split_ifs
    · exact .bind .orThrow fun _ => releasePart_stored
    · exact .pure

theorem updateRequest_stored {v : SendRequest} : StoredBy (updateRequest now v) := by
  refine .bind next_stored fun seq => .bind (.execute? fun j j' hj h => ?_) fun _ =>
    .bind (.each fun _ _ => updatePart_stored) fun _ => .bind event_stored fun _ => .pure
  unfold setRequest at h
  split_ifs at h
  rw [← Option.some.inj h]
  exact hj.of_tables rfl rfl rfl

theorem updating_stored {v : SendRequest} : StoredBy (Sql.transaction do
    let _ ← updateRequest now v) :=
  .transaction (.bind updateRequest_stored fun _ => .pure)

theorem lookup_stored {owner epoch id : Bytes} : StoredBy (Uploads.lookup owner epoch id) := by
  refine .bind .require fun _ => .bind (.bind .require fun _ => .bind .query fun _ => .require)
    fun _ => .bind .query fun row => ?_
  split
  · exact .throw
  · exact .bind .require fun _ => .pure

theorem pin_stored {owner epoch requestId : Bytes} {files : List Upload} :
    StoredBy (Uploads.pin owner epoch files requestId) := by
  refine .bind .lift fun _ => .bind (.each fun file _ => .bind lookup_stored fun found => ?_)
    fun _ => .each fun file _ => .execute fun _ hj => hj.of_tables rfl rfl rfl
  split
  · exact .throw
  · exact .throw
  · exact .throw
  · exact .throw
  · exact .require

theorem getRoute_stored {target : Target} : StoredBy (getRoute target) := by
  unfold getRoute
  split
  · exact .pure
  · exact .bind .orThrow fun _ => .bind .query fun _ => .bind .orThrow fun _ => .pure

theorem acceptFresh_stored {input : SendInput} {owner : Option Bytes} :
    StoredBy (acceptFresh now input owner) := by
  refine .bind getRoute_stored fun route => .bind (.execute? fun j j' hj h => ?_) fun _ => ?_
  · obtain ⟨requests, -, rfl⟩ := Option.map_eq_some_iff.mp h
    exact hj.of_tables rfl rfl rfl
  · split_ifs
    · refine .bind .orThrow fun _ => .bind pin_stored fun _ =>
        .bind (.execute? fun j j' hj h => ?_) fun _ => .bind updateRequest_stored fun _ => .pure
      obtain ⟨owners, -, rfl⟩ := Option.map_eq_some_iff.mp h
      exact hj.of_tables rfl rfl rfl
    · exact .bind updateRequest_stored fun _ => .pure

theorem acceptExisting_stored {input : SendInput} {owner : Option Bytes} {row : SendRequestRow} :
    StoredBy (acceptExisting input owner row) := by
  unfold acceptExisting
  split_ifs
  · exact .bind .query fun _ => .bind .orThrow fun _ => .bind .orThrow fun _ =>
      .bind .require fun _ => .bind .require fun _ => .pure
  · exact .bind .require fun _ => .pure

theorem acceptImpl_stored {input : SendInput} {ready : Bool} {owner : Option Bytes} :
    StoredBy (acceptImpl now input ready owner) := by
  refine .bind .lift fun _ => .transaction (.bind .query fun _ => .bind .require fun _ =>
    .bind .query fun existing => ?_)
  split
  · exact acceptExisting_stored
  · exact .bind .require fun _ => acceptFresh_stored

theorem accepting_stored {input : SendInput} {ready : Bool} {owner : Bytes} :
    StoredBy (Section.accepting now input ready owner) := by
  unfold Section.accepting
  split_ifs
  · exact .bind .require fun _ => acceptImpl_stored
  · exact acceptImpl_stored

theorem recover_stored : StoredBy (recover now) :=
  .transaction (.bind .query fun _ => .each fun _ _ =>
    .bind .orThrow fun _ => .bind updateRequest_stored fun _ => .pure)

theorem clearSource_stored {epoch : Bytes} {j : Journal} : Stored (clearSource epoch j) where
  messages _ _ h := nomatch h
  conversations _ _ h := nomatch h
  identities _ _ h := nomatch h

theorem holdRequest_stored {row : Bytes × SendRequestRow} : StoredBy (holdRequest now row) := by
  refine .bind .orThrow fun v => ?_
  split_ifs
  · exact .bind updateRequest_stored fun _ => .pure
  · exact .execute fun _ hj => hj.of_tables rfl rfl rfl

theorem reset_stored : StoredBy (reset now) := by
  refine .bind (.execute fun _ hj => hj.of_tables rfl rfl rfl) fun _ => .bind .query fun _ =>
    .bind .draw fun epoch => .bind (.execute fun _ _ => clearSource_stored) fun _ =>
    .bind (.each fun row _ => holdRequest_stored) fun _ => .execute fun _ hj => ?_
  exact hj.of_tables rfl rfl rfl

theorem updateIfSome_stored {change : Option SendRequest} :
    StoredBy (updateIfSome now change) := by
  cases change with
  | none => exact .pure
  | some v => exact .bind updateRequest_stored fun _ => .pure

theorem reconcileRequest_stored {enc : Encoding} {imports : Bytes → List IngestOp}
    {item : Bytes × SendRequestRow} (himports : ∀ id, ∀ op ∈ imports id, dated op) :
    StoredBy (reconcileRequest enc now imports item) := by
  refine .bind (.execute? fun j j' hj h => ?_) fun _ => ?_
  · unfold recordObservation at h
    split_ifs at h
    rw [← Option.some.inj h]
    exact hj.of_tables rfl rfl rfl
  · split
    · next mid _ =>
      refine .bind .query fun known => .bind (performAll_stored fun op hop => ?_) fun _ =>
        .bind .query fun _ => updateIfSome_stored
      split_ifs at hop
      · exact himports mid op hop
      · exact absurd hop List.not_mem_nil
    · exact .bind .query fun _ => updateIfSome_stored

theorem ingest_stored {enc : Encoding} {resets : Bool} {first parts last : List IngestOp}
    {imports : Bytes → List IngestOp} (hfirst : ∀ op ∈ first, dated op)
    (hparts : ∀ op ∈ parts, dated op) (himports : ∀ id, ∀ op ∈ imports id, dated op)
    (hlast : ∀ op ∈ last, dated op) : StoredBy (ingest enc now resets first parts imports last) := by
  have hrest : StoredBy (do
      Sql.each (perform enc now) first
      reconcile enc now parts imports
      Sql.each (perform enc now) last) :=
    .bind (performAll_stored hfirst) fun _ => .bind (.bind (performAll_stored hparts) fun _ =>
      .bind .query fun _ => .each fun _ _ => reconcileRequest_stored himports) fun _ =>
      performAll_stored hlast
  refine .transaction ?_
  split_ifs
  · exact .bind reset_stored fun _ => hrest
  · exact hrest

theorem prepareSend_stored {gate : Bool} {source : Option Source} :
    StoredBy (prepareSend now gate source) := by
  have hreject {v : SendRequest} {code : String} : StoredBy (do
      rejectQueued now v code
      return (none : Option Work)) :=
    .bind (.bind .orThrow fun _ => updating_stored) fun _ => .pure
  unfold prepareSend
  split_ifs
  · exact .pure
  refine .bind .query fun head => ?_
  split
  · exact .pure
  refine .bind .query fun epoch => .bind .require fun _ => .bind .query fun route =>
    .bind .orThrow fun route => ?_
  split
  · exact hreject
  refine .bind .orThrow fun source => .bind ?_ fun _ => ?_
  · refine .bind .query fun _ => .bind .require fun _ => .bind (.bind .query fun value => ?_)
      fun _ => .bind .query fun _ => .require
    split
    · exact .pure
    · exact .orThrow
  · split
    · exact hreject
    · exact .throw
    · refine .bind (.transaction (.bind .orThrow fun work => .bind updateRequest_stored fun _ =>
        .bind (.execute fun j hj => ?_) fun _ => .pure)) fun _ => .pure
      unfold setBoundary
      split
      · exact hj.of_tables rfl rfl rfl
      · exact hj.of_tables rfl rfl rfl

theorem commitResult_stored {work : Work} {outcome : Sends.Outcome} {result : Automation} :
    StoredBy (commitResult now work outcome result) := by
  refine .bind .query fun epoch => ?_
  split_ifs
  · exact .pure
  · split
    · exact .bind .query fun _ => .bind .orThrow fun _ => .bind .orThrow fun _ => updating_stored
    · exact updating_stored

theorem observing_stored {gate : Bool} : StoredBy (Observation.prepare now gate) := by
  unfold Observation.prepare
  split_ifs
  · exact .pure
  refine .bind .query fun item => ?_
  split
  · exact .pure
  refine .bind .query fun identity => ?_
  split
  · exact .pure
  exact .bind .query fun _ => .bind .orThrow fun _ => .bind .orThrow fun _ =>
    .bind (.execute fun _ hj => hj.of_tables rfl rfl rfl) fun _ => .pure

theorem publish_stored {readReady : Bool} {work : Observation.Work}
    {candidate : Option Observation.Candidate} :
    StoredBy (Observation.publish now readReady work candidate) := by
  refine .bind .query fun epoch => .bind .query fun identity => ?_
  split_ifs
  · exact .pure
  refine .bind .query fun _ => .bind .orThrow fun _ => .bind .orThrow fun _ =>
    .bind .query fun _ => .bind .orThrow fun change => ?_
  split
  · exact .pure
  refine .transaction (.bind updateRequest_stored fun _ => .bind .orThrow fun _ => ?_)
  split_ifs
  · exact .bind .orThrow fun _ => releasePart_stored
  · exact .pure

end Sends

def Section.dated : Section → Prop
  | .ingest _ first parts imports last =>
    (∀ op ∈ first, Relay.dated op) ∧ (∀ op ∈ parts, Relay.dated op) ∧
      (∀ id, ∀ op ∈ imports id, Relay.dated op) ∧ ∀ op ∈ last, Relay.dated op
  | .write ops => ∀ op ∈ ops, Relay.dated op
  | _ => True

theorem section_stored {enc : Encoding} {now : Int} {s : Section} (hs : s.dated) :
    StoredBy (s.tx enc now) := by
  cases s with
  | post input ready owner => exact .bind accepting_stored fun _ => .pure
  | ingest resets first parts imports last =>
    exact .bind (ingest_stored hs.1 hs.2.1 hs.2.2.1 hs.2.2.2) fun _ => .pure
  | write ops => exact .bind (.transaction (performAll_stored hs)) fun _ => .pure
  | prune countLimit =>
    exact .bind (.transaction (.bind .query fun _ =>
      .bind (.execute fun _ hj => hj.of_tables rfl rfl rfl) fun _ =>
      .execute fun _ hj => hj.of_tables rfl rfl rfl)) fun _ => .pure
  | reserve owner epoch file =>
    refine .bind (.bind .lift fun size => .transaction (.bind ?_ fun _ => .bind .query fun existing =>
      ?_)) fun _ => .pure
    · exact .bind .require fun _ => .bind .query fun _ => .require
    · split
      · exact .bind .require fun _ => .bind .require fun _ => .bind .require fun _ => lookup_stored
      · refine .bind .query fun _ => .bind .query fun _ => .bind .require fun _ =>
          .bind (.execute? fun j j' hj h => ?_) fun _ => lookup_stored
        obtain ⟨uploads, -, rfl⟩ := Option.map_eq_some_iff.mp h
        exact hj.of_tables rfl rfl rfl
  | claim owner epoch id =>
    refine .bind (.transaction (.bind lookup_stored fun found => ?_)) fun _ => .pure
    split
    · exact .pure
    · exact .pure
    · exact .throw
    · exact .throw
    · exact .bind .draw fun _ => .bind (.execute fun _ hj => hj.of_tables rfl rfl rfl) fun _ => .pure
  | complete lease =>
    refine .bind (.bind .query fun _ => .bind .require fun _ => .bind (.statement ?_) fun _ =>
      .require) fun _ => .pure
    intro j a j' hj h
    rw [Option.some.injEq, Prod.mk.injEq] at h
    rw [← h.2]
    exact hj.of_tables rfl rfl rfl
  | abandon lease => exact .bind (.execute fun _ hj => hj.of_tables rfl rfl rfl) fun _ => .pure
  | cancel owner epoch id =>
    refine .bind (.transaction (.bind lookup_stored fun found => ?_)) fun _ => .pure
    split
    · exact .throw
    · exact .throw
    · exact .throw
    · exact .execute fun _ hj => hj.of_tables rfl rfl rfl
    · exact .execute fun _ hj => hj.of_tables rfl rfl rfl
  | expire => exact .bind (.execute fun _ hj => hj.of_tables rfl rfl rfl) fun _ => .pure
  | purge id => exact .bind (.execute fun _ hj => hj.of_tables rfl rfl rfl) fun _ => .pure

def Action.dated : Action → Prop
  | .critical _ s => s.dated
  | _ => True

namespace Process

variable {enc : Encoding} {p : Process} {env : Env}

theorem locked_stored {α : Type} {m : Tx α} (hm : StoredBy m) (hp : Stored p.journal)
    (hunused : p.Unused env) : Stored (p.locked env m).2.journal :=
  (hm (p.conn env) hp fun id hid => (hunused id hid).1).1

theorem opened_stored (hp : Stored p.journal) (hunused : p.Unused env) :
    Stored (p.opened env).journal := by
  have hrecover : StoredBy Uploads.recover := .execute fun _ hj => hj.of_tables rfl rfl rfl
  have hstartup : StoredBy (startup env.now) := by
    refine .bind .query fun epoch => ?_
    split_ifs
    · exact .bind recover_stored fun _ => .pure
    · exact .pure
  have hfirst := hrecover (p.conn env) hp fun id hid => (hunused id hid).1
  have hjournal := (hstartup _ hfirst.1 hfirst.2).1
  unfold opened
  dsimp only
  split
  · exact hjournal
  · exact hjournal

theorem apply_stored {a : Action} (ha : a.dated) (henabled : p.enabled a) (hp : Stored p.journal) :
    Stored (p.apply enc a).journal := by
  cases a with
  | launch env => exact opened_stored hp henabled.2
  | crash => exact hp.of_tables rfl rfl rfl
  | critical env s => exact locked_stored (section_stored ha) hp henabled.2
  | prepareSend env gate source =>
    have hjournal : Stored (p.locked env (Relay.prepareSend env.now gate source)).2.journal :=
      locked_stored prepareSend_stored hp henabled.2
    unfold apply
    dsimp only
    split
    · unfold prepared
      split <;> simp_all
    · exact hp
  | invoke invocation =>
    unfold apply
    dsimp only
    split
    · cases invocation <;> exact hp
    · exact hp
  | commitResult env =>
    unfold apply
    dsimp only
    split
    · next work outcome result _ =>
      have hjournal : Stored
          (p.locked env (Relay.commitResult env.now work outcome result)).2.journal :=
        locked_stored commitResult_stored hp henabled.2
      unfold committed
      split <;> simp_all
    · exact hp
  | recover env =>
    have hjournal : Stored (p.locked env (Relay.recover env.now)).2.journal :=
      locked_stored recover_stored hp henabled.2
    unfold apply
    dsimp only
    split
    · unfold recovered
      split <;> simp_all
    · exact hp
  | prepareObservation env gate =>
    have hjournal : Stored
        (p.locked env (Observation.prepare env.now (gate && !p.resetRequired))).2.journal :=
      locked_stored observing_stored hp henabled.2
    unfold apply
    dsimp only
    split
    · unfold observed
      split <;> simp_all
    · exact hp
  | publish env readReady candidate =>
    unfold apply
    dsimp only
    split
    · exact locked_stored publish_stored hp henabled.2
    · exact hp
  | reset env expected =>
    have hpost : StoredBy (postReset env.now expected) := by
      refine .bind .require fun _ => .bind .query fun current => ?_
      split_ifs
      · exact .transaction (.bind reset_stored fun _ => .bind .query fun _ => .bind .query fun _ =>
          .pure)
      · exact .bind .require fun _ => .bind .query fun _ => .pure
    have hjournal : Stored (p.locked env (postReset env.now expected)).2.journal :=
      locked_stored hpost hp henabled.2
    unfold apply resetBy
    dsimp only
    split <;> simp_all

end Process

theorem run_stored {enc : Encoding} {p : Process} (hp : Stored p.journal) {actions : List Action}
    (hactions : ∀ a ∈ actions, a.dated) : Stored ((relay enc).run p actions).journal := by
  refine (relay enc).run_invariant_when (I := fun q => Stored q.journal) (C := fun _ a => a.dated)
    (fun q a hq ha => ?_) p actions hp fun before a after h => hactions a (by simp [h])
  change Stored (q.step enc a).journal
  unfold Process.step
  split_ifs with henabled
  · exact Process.apply_stored ha henabled hq
  · exact hq

theorem stored_new (epoch : Bytes) : Stored { epoch := epoch } where
  messages _ _ h := nomatch h
  conversations _ _ h := nomatch h
  identities _ _ h := nomatch h

end Zimbr.Relay
