import Zimbr.Relay.Settled
import Zimbr.Relay.System

set_option autoImplicit false

/-!
# The source shortcut

A remembered fingerprint means that observing the message again changes
nothing, whatever was written, rolled back, reset or evicted since.
-/
namespace Zimbr.Relay
open Library

def IngestOp.observes : IngestOp → Bool
  | .sourceMessage _ _ _ _ _ | .message _ _ _ _ _ => true
  | _ => false

/-- A change that touches no message; identities are only added. -/
structure Meets (j j' : Journal) : Prop where
  messages : j'.messages = j.messages
  enrichment : j'.enrichment = j.enrichment
  cache : j'.sourceMessageCache = j.sourceMessageCache
  known : ∀ service address, Known j service address → Known j' service address

theorem Meets.refl (j : Journal) : Meets j j := ⟨rfl, rfl, rfl, fun _ _ h => h⟩

theorem Meets.trans {j₁ j₂ j₃ : Journal} (h : Meets j₁ j₂) (h' : Meets j₂ j₃) : Meets j₁ j₃ :=
  ⟨h'.messages.trans h.messages, h'.enrichment.trans h.enrichment, h'.cache.trans h.cache,
    fun service address hknown => h'.known service address (h.known service address hknown)⟩

section Meets

variable {c c' : Conn Journal Bytes} {now : Int} {origin : Origin} {u : Unit}

theorem meets_of_eq {j j' : Journal} (h : j' = j) : Meets j j' := by
  rw [h]
  exact Meets.refl j

theorem meets_of_identities {j j' : Journal} (hmessages : j'.messages = j.messages)
    (henrichment : j'.enrichment = j.enrichment)
    (hcache : j'.sourceMessageCache = j.sourceMessageCache) (hidentities : j'.identities = j.identities) :
    Meets j j' := by
  refine ⟨hmessages, henrichment, hcache, fun service address hknown => ?_⟩
  unfold Known findIdentity
  rw [hidentities]
  exact hknown

theorem next_meets {seq : Nat} (h : next.run c = (.ok seq, c')) : Meets c.db c'.db := by
  rw [(next_ok h).2.2]
  exact meets_of_identities rfl rfl rfl rfl

theorem event_meets {seq : Nat} {record : Record}
    (h : (event seq record origin now).run c = (.ok u, c')) : Meets c.db c'.db := by
  obtain ⟨events, -, hdb⟩ := event_ok h
  rw [hdb]
  exact meets_of_identities rfl rfl rfl rfl

theorem insertIdentity_meets {id : Bytes} {row : IdentityRow} {j j' : Journal}
    (h : insertIdentity id row j = some j') :
    Meets j j' ∧ Known j' row.service row.address := by
  simp only [insertIdentity, Option.ite_none_left_eq_some, Option.map_eq_some_iff] at h
  obtain ⟨-, identities, hinsert, rfl⟩ := h
  have hrows := Table.rows_insert hinsert
  refine ⟨⟨rfl, rfl, rfl, fun service address hknown => hknown.imp_right fun hsome => ?_⟩,
    Or.inr ?_⟩
  · unfold findIdentity at hsome ⊢
    rw [List.find?_isSome] at hsome ⊢
    obtain ⟨r, hr, hmatch⟩ := hsome
    exact ⟨r, by rw [hrows]; exact List.mem_append_left _ hr, hmatch⟩
  · unfold findIdentity
    rw [List.find?_isSome]
    refine ⟨(id, row), ?_, by simp⟩
    rw [hrows]
    exact List.mem_append_right _ (List.mem_singleton_self _)

theorem observeIdentity_meets {service address : Bytes} {id : Option Bytes}
    (h : (observeIdentity now service address).run c = (.ok id, c')) :
    Meets c.db c'.db ∧ Known c'.db service address := by
  unfold observeIdentity at h
  split_ifs at h with haddress
  · rw [(Sql.pure_ok h).2]
    exact ⟨Meets.refl _, Or.inl haddress⟩
  · obtain ⟨found, c₁, hfound, h⟩ := Sql.bind_ok h
    obtain ⟨hfound, hdb₁⟩ := Sql.query_ok hfound
    rw [← hdb₁] at hfound ⊢
    cases found with
    | some r =>
      rw [(Sql.pure_ok h).2]
      exact ⟨Meets.refl _, Or.inr (by rw [← hfound]; rfl)⟩
    | none =>
      obtain ⟨id', c₂, hdraw, h⟩ := Sql.bind_ok h
      obtain ⟨seq, c₃, hnext, h⟩ := Sql.bind_ok h
      obtain ⟨_, c₄, hinsert, h⟩ := Sql.bind_ok h
      obtain ⟨_, c₅, hevent, h⟩ := Sql.bind_ok h
      obtain ⟨hmeets, hknown⟩ := insertIdentity_meets (Sql.execute?_ok hinsert)
      have hevent := event_meets hevent
      rw [(Sql.pure_ok h).2]
      refine ⟨((meets_of_eq (Sql.draw_ok hdraw).2).trans (next_meets hnext)).trans
        (hmeets.trans hevent), hevent.known _ _ hknown⟩

theorem observeActors_meets {v : Message} (h : (observeActors now v).run c = (.ok u, c')) :
    Meets c.db c'.db ∧ ActorsKnown c'.db v := by
  have hactor {d : Conn Journal Bytes} (h : (observeReactor now v).run d = (.ok u, c')) :
      Meets d.db c'.db ∧ ∀ ev address, v.reactionEvent = some ev → ev.actor.isSelf = false →
        ev.actor.address = some address → Known c'.db ev.actor.service address := by
    unfold observeReactor at h
    split at h
    · next ev hev =>
      obtain ⟨hev, -⟩ := Option.filter_eq_some_iff.mp hev
      split at h
      · next address haddress =>
        obtain ⟨_, d₁, hobserve, h⟩ := Sql.bind_ok h
        rw [(Sql.pure_ok h).2]
        obtain ⟨hmeets, hknown⟩ := observeIdentity_meets hobserve
        refine ⟨hmeets, fun ev' address' hev' _ haddress' => ?_⟩
        rw [hev, Option.some.injEq] at hev'
        rw [← hev', haddress, Option.some.injEq] at haddress'
        rw [← hev', ← haddress']
        exact hknown
      · next haddress =>
        rw [(Sql.pure_ok h).2]
        refine ⟨Meets.refl _, fun ev' address' hev' _ haddress' => ?_⟩
        rw [hev, Option.some.injEq] at hev'
        rw [← hev', haddress] at haddress'
        cases haddress'
    · next hnone =>
      rw [(Sql.pure_ok h).2]
      refine ⟨Meets.refl _, fun ev' address' hev' hself' _ => ?_⟩
      rw [hev'] at hnone
      simp [hself'] at hnone
  rw [observeActors_eq] at h
  split_ifs at h with hdirection
  · obtain ⟨_, c₁, hobserve, h⟩ := Sql.bind_ok h
    obtain ⟨hmeets, hknown⟩ := observeIdentity_meets hobserve
    obtain ⟨hmeets', hreaction⟩ := hactor h
    exact ⟨hmeets.trans hmeets', fun _ => hmeets'.known _ _ hknown, hreaction⟩
  · obtain ⟨hmeets, hreaction⟩ := hactor h
    exact ⟨hmeets, fun hincoming => absurd hincoming hdirection, hreaction⟩

theorem updateIdentity_meets {value : Identity}
    (h : (updateIdentity now value).run c = (.ok u, c')) : Meets c.db c'.db := by
  obtain ⟨found, c₁, hfound, h⟩ := Sql.bind_ok h
  rw [← (Sql.query_ok hfound).2]
  cases found with
  | none => exact (Sql.throw_ok h).elim
  | some row =>
    obtain ⟨_, c₂, hrequire, h⟩ := Sql.bind_ok h
    rw [(Sql.require_ok hrequire).2] at h
    dsimp only at h
    split_ifs at h
    · exact meets_of_eq (congrArg Conn.db (Sql.pure_ok h).2)
    · obtain ⟨seq, c₃, hnext, h⟩ := Sql.bind_ok h
      obtain ⟨_, c₄, hset, hevent⟩ := Sql.bind_ok h
      refine (next_meets hnext).trans (Meets.trans ?_ (event_meets hevent))
      rw [Sql.execute_ok hset]
      refine ⟨rfl, rfl, rfl, fun service address hknown => hknown.imp_right fun hsome => ?_⟩
      unfold findIdentity at hsome ⊢
      rw [List.find?_isSome] at hsome ⊢
      obtain ⟨r, hr, hmatch⟩ := hsome
      refine ⟨_, List.mem_map_of_mem hr, ?_⟩
      split_ifs <;> exact hmatch

theorem upsertConversation_meets {id : Bytes} {row : ConversationRow} {j j' : Journal}
    (h : upsertConversation id row j = some j') : Meets j j' := by
  unfold upsertConversation at h
  cases hfound : findConversation row.source j with
  | some r =>
    simp only [hfound, Option.some.injEq] at h
    rw [← h]
    exact meets_of_identities rfl rfl rfl rfl
  | none =>
    simp only [hfound, Option.map_eq_some_iff] at h
    obtain ⟨conversations, -, rfl⟩ := h
    exact meets_of_identities rfl rfl rfl rfl

theorem execute_meets {f : Journal → Journal} (h : (Sql.execute f : Tx Unit).run c = (.ok u, c'))
    (hf : ∀ j, (f j).messages = j.messages ∧ (f j).enrichment = j.enrichment ∧
      (f j).sourceMessageCache = j.sourceMessageCache ∧ (f j).identities = j.identities) :
    Meets c.db c'.db := by
  rw [Sql.execute_ok h]
  obtain ⟨hmessages, henrichment, hcache, hidentities⟩ := hf c.db
  exact meets_of_identities hmessages henrichment hcache hidentities

theorem conversation_meets {source : Bytes} {row : Int} {route : Bytes} {value : Conversation}
    {id : Bytes} (h : (conversation now source row route value origin).run c = (.ok id, c')) :
    Meets c.db c'.db := by
  obtain ⟨_, c₁, hobserve, h⟩ := Sql.bind_ok h
  have hobserved : Meets c.db c₁.db := by
    refine Sql.each_ok (I := fun c' => Meets c.db c'.db) ?_ hobserve (Meets.refl _)
    intro address _ d d' _ hI h
    obtain ⟨_, d₁, hobserve, h⟩ := Sql.bind_ok h
    rw [(Sql.pure_ok h).2]
    exact hI.trans (observeIdentity_meets hobserve).1
  refine hobserved.trans ?_
  obtain ⟨found, c₂, hfound, h⟩ := Sql.bind_ok h
  rw [← (Sql.query_ok hfound).2]
  obtain ⟨id', c₃, hid, h⟩ := Sql.bind_ok h
  rw [← (idOf_ok hid).1]
  dsimp only at h
  split at h
  · split_ifs at h
    · obtain ⟨_, c₄, hset, h⟩ := Sql.bind_ok h
      rw [(Sql.pure_ok h).2]
      exact execute_meets hset fun _ => ⟨rfl, rfl, rfl, rfl⟩
    · exact meets_of_eq (congrArg Conn.db (Sql.pure_ok h).2)
  · obtain ⟨seq, c₄, hnext, h⟩ := Sql.bind_ok h
    obtain ⟨_, c₅, hset, h⟩ := Sql.bind_ok h
    obtain ⟨_, c₆, hdelete, h⟩ := Sql.bind_ok h
    obtain ⟨_, c₇, hadd, h⟩ := Sql.bind_ok h
    obtain ⟨_, c₈, hevent, h⟩ := Sql.bind_ok h
    have hadded : Meets c₆.db c₇.db := by
      refine Sql.each_ok (I := fun c' => Meets c₆.db c'.db) ?_ hadd (Meets.refl _)
      intro address _ d d' _ hI h
      exact hI.trans (execute_meets h fun _ => ⟨rfl, rfl, rfl, rfl⟩)
    rw [(Sql.pure_ok h).2]
    exact ((next_meets hnext).trans (upsertConversation_meets (Sql.execute?_ok hset))).trans
      (((execute_meets hdelete fun _ => ⟨rfl, rfl, rfl, rfl⟩).trans hadded).trans
        (event_meets hevent))

end Meets

def Distinct (j : Journal) : Prop :=
  ∀ id id' r r', j.messages.get? id = some r → j.messages.get? id' = some r' →
    r.source = r'.source → id = id'

/-- Messages, their sections and the remembered fingerprints belong together. -/
structure Sourced (enc : Encoding) (j : Journal) : Prop where
  named : ∀ id r, j.messages.get? id = some r → r.record.id = id
  distinct : Distinct j
  attached : ∀ id, j.messages.get? id = none → Enrichment.stored j id = {}
  digested : ∀ id, Enrichment.SectionsDigested enc (Enrichment.stored j id)
  uniform : ∀ id r, j.messages.get? id = some r →
    Uniform (Enrichment.full j r.record).attachments
  remembered : ∀ slot entry, j.sourceMessageCache.get? slot = some entry → ∃ row date value,
    entry.fingerprint = enc.fingerprint row date value ∧ Settled enc j entry.source row value

theorem sourced_of_empty (enc : Encoding) {j : Journal} (hmessages : j.messages = .empty)
    (henrichment : j.enrichment = .empty) (hcache : j.sourceMessageCache = .empty) :
    Sourced enc j := by
  have hstored (id : Bytes) : Enrichment.stored j id = {} := by
    unfold Enrichment.stored
    rw [henrichment]
    rfl
  refine ⟨fun id r hr => ?_, fun id id' r r' hr => ?_, fun id _ => hstored id, fun id => ?_,
    fun id r hr => ?_, fun slot entry hentry => ?_⟩
  · rw [hmessages] at hr
    exact nomatch hr
  · rw [hmessages] at hr
    exact nomatch hr
  · rw [hstored]
    exact ⟨nofun, nofun, nofun, nofun⟩
  · rw [hmessages] at hr
    exact nomatch hr
  · rw [hcache] at hentry
    exact nomatch hentry

structure Observes (j j' : Journal) (source id : Bytes) (row : MessageRow) (sections : Sections) :
    Prop where
  messages : ∀ id', j'.messages.get? id' = if id' = id then some row else j.messages.get? id'
  stored : ∀ id', Enrichment.stored j' id' =
    if id' = id then sections else Enrichment.stored j id'
  cache : ∀ slot entry, j'.sourceMessageCache.get? slot = some entry →
    j.sourceMessageCache.get? slot = some entry ∧ entry.source ≠ source
  known : ∀ service address, Known j service address → Known j' service address
  sourced : row.source = source
  named : row.record.id = id
  /-- The row of the identifier is the one of the source. -/
  same : ∀ id' r, j.messages.get? id' = some r → (id' = id ↔ r.source = source)

section Sourced

variable {enc : Encoding} {j j' : Journal} {source id : Bytes} {row : MessageRow}
  {sections : Sections}

theorem findMessage_some (hd : Distinct j) {r : MessageRow} :
    findMessage source j = some (id, r) ↔ j.messages.get? id = some r ∧ r.source = source := by
  unfold findMessage
  constructor
  · intro hfound
    have hmem := List.mem_of_find?_eq_some hfound
    exact ⟨(Table.get?_eq_some_iff _ _ _).mpr hmem, by simpa using List.find?_some hfound⟩
  · rintro ⟨hr, hsource⟩
    have hmem := (Table.get?_eq_some_iff _ _ _).mp hr
    cases hfound : j.messages.rows.find? fun r => decide (r.2.source = source) with
    | none =>
      rw [List.find?_eq_none] at hfound
      exact absurd (decide_eq_true hsource) (hfound _ hmem)
    | some found =>
      have hget := (Table.get?_eq_some_iff _ found.1 found.2).mpr (List.mem_of_find?_eq_some hfound)
      have hsame : found.2.source = source := by simpa using List.find?_some hfound
      have hid := hd found.1 id found.2 r hget hr (hsame.trans hsource.symm)
      rw [hid, hr, Option.some.injEq] at hget
      rw [← hid, hget]

theorem Sourced.meets (hs : Sourced enc j) (h : Meets j j') : Sourced enc j' := by
  have hstored (id : Bytes) : Enrichment.stored j' id = Enrichment.stored j id := by
    unfold Enrichment.stored
    rw [h.enrichment]
  have hfull (v : Message) : Enrichment.full j' v = Enrichment.full j v := by
    unfold Enrichment.full
    rw [hstored]
  refine ⟨?_, ?_, ?_, fun id => ?_, ?_, fun slot entry hentry => ?_⟩
  · rw [h.messages]
    exact hs.named
  · unfold Distinct
    rw [h.messages]
    exact hs.distinct
  · rw [h.messages]
    exact fun id hnone => (hstored id).trans (hs.attached id hnone)
  · rw [hstored]
    exact hs.digested id
  · rw [h.messages]
    intro id r hr
    rw [hfull]
    exact hs.uniform id r hr
  · rw [h.cache] at hentry
    obtain ⟨row, date, value, hfingerprint, hsettled⟩ := hs.remembered slot entry hentry
    refine ⟨row, date, value, hfingerprint, hsettled.frame ?_ (fun id _ _ => hstored id) h.known⟩
    unfold findMessage
    rw [h.messages]

theorem Observes.distinct (hd : Distinct j) (h : Observes j j' source id row sections) :
    Distinct j' := by
  intro a b ra rb ha hb hsame
  rw [h.messages] at ha hb
  split_ifs at ha hb with ha' hb' hb'
  · exact ha'.trans hb'.symm
  · rw [← Option.some.inj ha, h.sourced] at hsame
    exact absurd ((h.same b rb hb).mpr hsame.symm) hb'
  · rw [← Option.some.inj hb, h.sourced] at hsame
    exact absurd ((h.same a ra ha).mpr hsame) ha'
  · exact hd a b ra rb ha hb hsame

theorem Observes.settled (hd : Distinct j) (h : Observes j j' source id row sections)
    {source' : Bytes} (hne : source' ≠ source) {n : Int} {value : Message}
    (hsettled : Settled enc j source' n value) : Settled enc j' source' n value := by
  have hother {id' : Bytes} {r : MessageRow} (hfound : findMessage source' j = some (id', r)) :
      id' ≠ id := by
    obtain ⟨hr, hsource⟩ := (findMessage_some hd).mp hfound
    exact fun hid => hne (hsource.symm.trans ((h.same id' r hr).mp hid))
  obtain ⟨id', r, -, hfound, -⟩ := hsettled.stored
  refine hsettled.frame ?_ (fun id'' r' hfound' => ?_) h.known
  · obtain ⟨hr, hsource⟩ := (findMessage_some hd).mp hfound
    rw [hfound, findMessage_some (h.distinct hd), h.messages, if_neg (hother hfound)]
    exact ⟨hr, hsource⟩
  · rw [h.stored, if_neg (hother hfound')]

theorem Sourced.observes (hs : Sourced enc j) (h : Observes j j' source id row sections)
    (hdigested : Enrichment.SectionsDigested enc sections)
    (huniform : Uniform (Enrichment.full j' row.record).attachments) : Sourced enc j' := by
  refine ⟨fun id' r hr => ?_, h.distinct hs.distinct, fun id' hnone => ?_, fun id' => ?_,
    fun id' r hr => ?_, fun slot entry hentry => ?_⟩
  · rw [h.messages] at hr
    split_ifs at hr with hid
    · rw [← Option.some.inj hr, h.named, hid]
    · exact hs.named id' r hr
  · rw [h.messages] at hnone
    split_ifs at hnone with hid
    rw [h.stored, if_neg hid]
    exact hs.attached id' hnone
  · rw [h.stored]
    split_ifs
    · exact hdigested
    · exact hs.digested id'
  · rw [h.messages] at hr
    split_ifs at hr with hid
    · rw [← Option.some.inj hr]
      exact huniform
    · have hfull : Enrichment.full j' r.record = Enrichment.full j r.record := by
        unfold Enrichment.full
        rw [h.stored, hs.named id' r hr, if_neg hid]
      rw [hfull]
      exact hs.uniform id' r hr
  · obtain ⟨hentry, hother⟩ := h.cache slot entry hentry
    obtain ⟨n, date, value, hfingerprint, hsettled⟩ := hs.remembered slot entry hentry
    exact ⟨n, date, value, hfingerprint, h.settled hs.distinct hother hsettled⟩

theorem Sourced.forget (hs : Sourced enc j) {p : Nat → CachedSource → Bool} :
    Sourced enc { j with sourceMessageCache := j.sourceMessageCache.deleteWhere p } := by
  refine ⟨hs.named, hs.distinct, hs.attached, hs.digested, hs.uniform, fun slot entry hentry => ?_⟩
  rw [Table.get?_deleteWhere, Option.filter_eq_some_iff] at hentry
  obtain ⟨n, date, value, hfingerprint, hsettled⟩ := hs.remembered slot entry hentry.1
  exact ⟨n, date, value, hfingerprint, hsettled.frame rfl (fun _ _ _ => rfl) fun _ _ h => h⟩

end Sourced

section Message

variable {enc : Encoding} {c c' : Conn Journal Bytes} {source : Bytes} {row date now : Int}
  {value : Message} {origin : Origin} {u : Unit}

theorem upsertMessage_get? {id : Bytes} {row : MessageRow} {j j' : Journal} (hd : Distinct j)
    (h : upsertMessage id row j = some j')
    (hfound : ∀ r, findMessage row.source j = some r → r.1 = id) :
    (∀ id', j'.messages.get? id' = if id' = id then some row else j.messages.get? id') ∧
      (findMessage row.source j = none → j.messages.get? id = none) ∧
      j'.enrichment = j.enrichment ∧ j'.sourceMessageCache = j.sourceMessageCache ∧
      j'.identities = j.identities := by
  simp only [upsertMessage, Option.ite_none_left_eq_some] at h
  obtain ⟨-, h⟩ := h
  cases hf : findMessage row.source j with
  | some r =>
    simp only [hf, Option.some.injEq] at h
    obtain ⟨id₀, r⟩ := r
    obtain rfl : id₀ = id := hfound _ hf
    have hr := ((findMessage_some hd).mp hf).1
    rw [← h]
    refine ⟨fun id' => ?_, fun habsurd => (by cases habsurd), rfl, rfl, rfl⟩
    rw [Table.get?_modify]
    split_ifs with hid
    · rw [hid, hr]
      rfl
    · rfl
  | none =>
    simp only [hf, Option.map_eq_some_iff] at h
    obtain ⟨messages, hinsert, rfl⟩ := h
    exact ⟨Table.get?_insert hinsert, fun _ => Table.get?_of_insert hinsert, rfl, rfl, rfl⟩

structure Stores (enc : Encoding) (j j' : Journal) (source : Bytes) (row : Int) (value : Message)
    (id : Bytes) (prepared : Enrichment.Prepared) (row' : MessageRow) : Prop where
  prepares : Enrichment.prepare enc j { value with id := id, revision := 0 }
    ((findMessage source j).map fun r => r.2.record) = .ok prepared
  key : ∀ r, findMessage source j = some r → r.1 = id
  messages : ∀ id', j'.messages.get? id' = if id' = id then some row' else j.messages.get? id'
  cache : j'.sourceMessageCache = j.sourceMessageCache
  identities : j'.identities = j.identities
  sourced : row'.source = source
  sourceRow : row'.sourceRow = row
  content : row'.content = prepared.value
  record :
    /- The record stays, -/
    (prepared.changed = false ∧ j'.enrichment = j.enrichment ∧
      ∃ old, findMessage source j = some (id, old) ∧ row'.record = old.record) ∨
    /- or a new revision replaces it. -/
    (findMessage source j = none → j.messages.get? id = none) ∧
      (∀ id', Enrichment.stored j' id' =
        if id' = id then Enrichment.persisted prepared (Enrichment.stored j id)
        else Enrichment.stored j id') ∧
      ∃ seq, row'.record = { prepared.value with revision := seq }

/-- What a message does: forget the fingerprint, meet the identities, store. -/
theorem message_stores (hs : Sourced enc c.db)
    (h : (message enc now source row date value origin).run c = (.ok u, c')) :
    ∃ j id prepared row', Meets (forgetSource source c.db) j ∧ ActorsKnown j value ∧
      Stores enc j c'.db source row value id prepared row' := by
  obtain ⟨_, c₁, hforget, h⟩ := Sql.bind_ok h
  obtain ⟨_, c₂, hobserve, h⟩ := Sql.bind_ok h
  obtain ⟨hmeets, hactors⟩ := observeActors_meets hobserve
  rw [Sql.execute_ok hforget] at hmeets
  have hd : Distinct c₂.db := (hs.forget.meets hmeets).distinct
  obtain ⟨found, c₃, hfound, h⟩ := Sql.bind_ok h
  obtain ⟨rfl, hdb₃⟩ := Sql.query_ok hfound
  obtain ⟨id, c₄, hid, h⟩ := Sql.bind_ok h
  obtain ⟨hdb₄, hkey⟩ := idOf_ok hid
  obtain ⟨result, c₅, hresult, h⟩ := Sql.bind_ok h
  obtain ⟨hresult, hdb₅⟩ := Sql.query_ok hresult
  obtain ⟨prepared, c₆, hprepared, h⟩ := Sql.bind_ok h
  obtain ⟨hprepared, hc₆⟩ := Sql.lift_ok hprepared
  have hdb : c₅.db = c₂.db := hdb₅.trans (hdb₄.trans hdb₃)
  rw [hresult, hdb₄, hdb₃] at hprepared
  rw [hc₆] at h
  refine ⟨c₂.db, id, prepared, ?_⟩
  dsimp only at h
  split at h
  · next id' old hunchanged =>
    obtain ⟨hfound, hcontent⟩ := Option.filter_eq_some_iff.mp hunchanged
    obtain rfl : id' = id := hkey _ hfound
    obtain ⟨hget, hsource⟩ := (findMessage_some hd).mp hfound
    simp only [Bool.and_eq_true, Bool.not_eq_true', decide_eq_true_eq] at hcontent
    obtain ⟨hchanged, hcontent⟩ := hcontent
    refine ⟨{ old with sourceRow := row }, hmeets, hactors, ?_⟩
    split_ifs at h with hrow
    · have heffect := Sql.execute_ok h
      rw [hdb] at heffect
      rw [heffect]
      refine ⟨hprepared, hkey, fun id'' => ?_, rfl, rfl, hsource, rfl, hcontent,
        Or.inl ⟨hchanged, rfl, old, hfound, rfl⟩⟩
      rw [Table.get?_modify]
      split_ifs with hid
      · rw [hid, hget]
        rfl
      · rfl
    · have heffect : c'.db = c₂.db := (congrArg Conn.db (Sql.pure_ok h).2).trans hdb
      have hrow : old.sourceRow = row := by simpa using hrow
      rw [heffect]
      refine ⟨hprepared, hkey, fun id'' => ?_, rfl, rfl, hsource, rfl, hcontent,
        Or.inl ⟨hchanged, rfl, old, hfound, rfl⟩⟩
      split_ifs with hid
      · rw [hid, hget, ← hrow]
      · rfl
  · obtain ⟨seq, c₇, hnext, h⟩ := Sql.bind_ok h
    obtain ⟨_, c₈, hset, h⟩ := Sql.bind_ok h
    obtain ⟨_, c₉, hpersist, hevent⟩ := Sql.bind_ok h
    obtain ⟨events, -, hdb'⟩ := event_ok hevent
    have hnext := (next_ok hnext).2.2
    rw [hdb] at hnext
    have hd₇ : Distinct c₇.db := by
      rw [hnext]
      exact hd
    have hfound₇ : findMessage source c₇.db = findMessage source c₂.db := by
      rw [hnext]
      rfl
    obtain ⟨hmessages, hnew, henrichment, hcache, hidentities⟩ :=
      upsertMessage_get? hd₇ (Sql.execute?_ok hset) fun r hr => hkey r (hfound₇ ▸ hr)
    have hpersist := Sql.execute_ok hpersist
    have hstored (id' : Bytes) : Enrichment.stored c₈.db id' = Enrichment.stored c₂.db id' := by
      unfold Enrichment.stored
      rw [henrichment, hnext]
    refine ⟨{
      source := source, sourceRow := row, conversationId := prepared.value.conversationId
      dateNs := date, direction := prepared.value.direction, text := prepared.value.text.getD []
      status := prepared.value.observedStatus, content := prepared.value
      record := { prepared.value with revision := seq } }, hmeets, hactors, hprepared, hkey,
      fun id' => ?_, ?_, ?_, rfl, rfl, rfl, Or.inr ⟨fun hnone => ?_, fun id' => ?_, seq, rfl⟩⟩
    · rw [hdb', hpersist]
      refine (hmessages id').trans ?_
      rw [hnext]
    · rw [hdb', hpersist]
      exact hcache.trans (by rw [hnext])
    · rw [hdb', hpersist]
      exact hidentities.trans (by rw [hnext])
    · have habsent := hnew (hfound₇.trans hnone)
      rw [hnext] at habsent
      exact habsent
    · rw [hdb', hpersist, ← hstored id, ← hstored id']
      change ((c₈.db.enrichment.upsert id _ _).get? id').getD {} = _
      rw [Table.get?_upsert]
      split_ifs with hid
      · cases c₈.db.enrichment.get? id <;> rfl
      · rfl

theorem message_settled (hfree : enc.CollisionFree) (hs : Sourced enc c.db)
    (huniform : Uniform value.attachments)
    (h : (message enc now source row date value origin).run c = (.ok u, c')) :
    Sourced enc c'.db ∧ Settled enc c'.db source row value := by
  obtain ⟨j, id, prepared, row', hmeets, hactors, hstores⟩ := message_stores hs h
  have hsj : Sourced enc j := hs.forget.meets hmeets
  have hcache (slot : Nat) (entry : CachedSource)
      (hentry : c'.db.sourceMessageCache.get? slot = some entry) :
      j.sourceMessageCache.get? slot = some entry ∧ entry.source ≠ source := by
    rw [hstores.cache] at hentry
    refine ⟨hentry, ?_⟩
    rw [hmeets.cache, forgetSource, Table.get?_deleteWhere, Option.filter_eq_some_iff] at hentry
    simpa using hentry.2
  have hknown (service address : Bytes) (h : Known j service address) :
      Known c'.db service address := by
    unfold Known findIdentity
    rw [hstores.identities]
    exact h
  have hactors' : ActorsKnown c'.db value :=
    ⟨fun hincoming => hknown _ _ (hactors.sender hincoming),
      fun ev address hev hself haddress => hknown _ _ (hactors.reaction ev address hev hself haddress)⟩
  have hnamed : ∀ old, (findMessage source j).map (fun r => r.2.record) = some old →
      old.id = id := by
    intro old hold
    obtain ⟨⟨id', r⟩, hr, rfl⟩ := Option.map_eq_some_iff.mp hold
    rw [hsj.named id' r ((findMessage_some hsj.distinct).mp hr).1]
    exact hstores.key _ hr
  have hsame (hnew : findMessage source j = none → j.messages.get? id = none) (id' : Bytes)
      (r : MessageRow) (hr : j.messages.get? id' = some r) : id' = id ↔ r.source = source := by
    cases hfound : findMessage source j with
    | none =>
      refine ⟨fun hid' => ?_, fun hsource => ?_⟩
      · rw [hid', hnew hfound] at hr
        exact nomatch hr
      · exact nomatch hfound.symm.trans ((findMessage_some hsj.distinct).mpr ⟨hr, hsource⟩)
    | some found =>
      obtain ⟨id₀, r₀⟩ := found
      obtain ⟨hget, hsource⟩ := (findMessage_some hsj.distinct).mp hfound
      obtain rfl : id₀ = id := hstores.key _ hfound
      refine ⟨fun hid' => ?_, fun hsource' => ?_⟩
      · rw [hid', hget, Option.some.injEq] at hr
        rw [← hr]
        exact hsource
      · exact hsj.distinct id' id₀ r r₀ hr hget (hsource'.trans hsource.symm)
  have hfound' (hd : Distinct c'.db) : findMessage source c'.db = some (id, row') :=
    (findMessage_some hd).mpr ⟨by rw [hstores.messages, if_pos rfl], hstores.sourced⟩
  rcases hstores.record with ⟨hunchanged, henrichment, old, hold, hrecord⟩ | ⟨hnew, hstored, seq, hrecord⟩
  · have hget := ((findMessage_some hsj.distinct).mp hold).1
    have hstored (id' : Bytes) : Enrichment.stored c'.db id' = Enrichment.stored j id' := by
      unfold Enrichment.stored
      rw [henrichment]
    have hobserves : Observes j c'.db source id row' (Enrichment.stored j id) := by
      refine ⟨hstores.messages, fun id' => ?_, hcache, hknown, hstores.sourced, ?_,
        hsame fun hnone => nomatch hnone.symm.trans hold⟩
      · rw [hstored]
        split_ifs with hid
        · rw [hid]
        · rfl
      · rw [hrecord]
        exact hsj.named id old hget
    have hfull : Enrichment.full c'.db row'.record = Enrichment.full j old.record := by
      unfold Enrichment.full
      rw [hrecord, hstored]
    refine ⟨hsj.observes hobserves (hsj.digested id) ?_, hactors', id, row', prepared,
      hfound' (hobserves.distinct hsj.distinct), hstores.sourceRow, hobserves.named,
      hstores.content, hunchanged, ?_⟩
    · rw [hfull]
      exact hsj.uniform id old hget
    · have hprepares := hstores.prepares
      rw [hold] at hprepares
      rw [← hprepares, hrecord]
      refine Enrichment.prepare_congr (hstored id) fun old' hold' => ?_
      rw [← Option.some.inj hold']
      exact hsj.named id old hget
  · have hobserves : Observes j c'.db source id row'
        (Enrichment.persisted prepared (Enrichment.stored j id)) := by
      refine ⟨hstores.messages, hstored, hcache, hknown, hstores.sourced, ?_, hsame hnew⟩
      rw [hrecord]
      exact Enrichment.prepare_id hstores.prepares
    have hid : prepared.value.id = id := Enrichment.prepare_id hstores.prepares
    have hdigested := Enrichment.persisted_digested (hsj.digested id) hstores.prepares
    refine ⟨hsj.observes hobserves hdigested ?_, hactors', ?_⟩
    · have hattachments : (Enrichment.full c'.db row'.record).attachments = (Enrichment.merged j
          { value with id := id, revision := 0 }
          ((findMessage source j).map fun r => r.2.record)).attachments := by
        unfold Enrichment.full
        rw [hrecord]
        change ((Enrichment.stored c'.db prepared.value.id).attachments.map Prod.snd).getD _ = _
        rw [hid, hstored, if_pos rfl,
          Enrichment.persisted_attachments hfree hstores.prepares (hsj.digested id)]
        rfl
      rw [hattachments]
      exact Enrichment.merged_uniform huniform
    · have hfresh : (findMessage source j).map (fun r => r.2.record) = none →
          Enrichment.stored j id = {} := fun hnone =>
        hsj.attached id (hnew (Option.map_eq_none_iff.mp hnone))
      obtain ⟨again, hagain, hunchanged, hvalue⟩ := Enrichment.prepare_again hfree
        hstores.prepares (hsj.digested id) hnamed hfresh huniform
        ((hstored id).trans (if_pos rfl)) seq
      refine ⟨id, row', again, hfound' (hobserves.distinct hsj.distinct), hstores.sourceRow,
        hobserves.named, hstores.content.trans hvalue.symm, hunchanged, ?_⟩
      rw [hrecord]
      exact hagain

theorem Sourced.remember (hs : Sourced enc c.db) {slot : Nat}
    (hsettled : Settled enc c.db source row value) : Sourced enc (rememberSource slot {
      source := source, fingerprint := enc.fingerprint row date value } c.db) := by
  refine ⟨hs.named, hs.distinct, hs.attached, hs.digested, hs.uniform, fun slot' entry hentry => ?_⟩
  rw [rememberSource, Table.get?_upsert] at hentry
  split_ifs at hentry
  · have hnew : some entry = some (⟨source, enc.fingerprint row date value⟩ : CachedSource) := by
      rw [← hentry]
      cases (forgetSource source c.db).sourceMessageCache.get? slot <;> rfl
    rw [Option.some.inj hnew]
    exact ⟨row, date, value, rfl, hsettled.frame rfl (fun _ _ _ => rfl) fun _ _ h => h⟩
  · obtain ⟨n, date', value', hfingerprint, hsettled'⟩ := hs.forget.remembered slot' entry hentry
    exact ⟨n, date', value', hfingerprint, hsettled'.frame rfl (fun _ _ _ => rfl) fun _ _ h => h⟩

theorem sourceMessage_sourced (hfree : enc.CollisionFree) (hs : Sourced enc c.db)
    (huniform : Uniform value.attachments)
    (h : (sourceMessage enc now source row date value origin).run c = (.ok u, c')) :
    Sourced enc c'.db := by
  obtain ⟨cached, c₁, hcached, h⟩ := Sql.bind_ok h
  rw [← (Sql.query_ok hcached).2] at hs
  split_ifs at h
  · rw [(Sql.pure_ok h).2]
    exact hs
  · obtain ⟨_, c₂, hmessage, hremember⟩ := Sql.bind_ok h
    obtain ⟨hs₂, hsettled⟩ := message_settled hfree hs huniform hmessage
    rw [Sql.execute_ok hremember]
    exact hs₂.remember hsettled

theorem updatePart_meets {id : Bytes} {part : SendPart × Nat}
    (h : (updatePart id part).run c = (.ok u, c')) : Meets c.db c'.db := by
  obtain ⟨_, c₁, hset, h⟩ := Sql.bind_ok h
  have hset : Meets c.db c₁.db := by
    have hset := Sql.execute?_ok hset
    unfold setPart at hset
    split_ifs at hset
    rw [← Option.some.inj hset]
    exact meets_of_identities rfl rfl rfl rfl
  refine hset.trans ?_
  split_ifs at h
  · obtain ⟨attachment, c₂, hattachment, h⟩ := Sql.bind_ok h
    rw [(Sql.orThrow_ok hattachment).2] at h
    exact execute_meets h fun _ => ⟨rfl, rfl, rfl, rfl⟩
  · exact meets_of_eq (congrArg Conn.db (Sql.pure_ok h).2)

theorem updateRequest_meets {v w : SendRequest} (h : (updateRequest now v).run c = (.ok w, c')) :
    Meets c.db c'.db := by
  obtain ⟨seq, c₁, hnext, h⟩ := Sql.bind_ok h
  obtain ⟨_, c₂, hset, h⟩ := Sql.bind_ok h
  obtain ⟨_, c₃, hparts, h⟩ := Sql.bind_ok h
  obtain ⟨_, c₄, hevent, h⟩ := Sql.bind_ok h
  have hset : Meets c₁.db c₂.db := by
    have hset := Sql.execute?_ok hset
    unfold setRequest at hset
    split_ifs at hset
    rw [← Option.some.inj hset]
    exact meets_of_identities rfl rfl rfl rfl
  have hparts : Meets c₂.db c₃.db := by
    refine Sql.each_ok (I := fun c' => Meets c₂.db c'.db) ?_ hparts (Meets.refl _)
    intro part _ d d' _ hI h
    exact hI.trans (updatePart_meets h)
  rw [(Sql.pure_ok h).2]
  exact ((next_meets hnext).trans hset).trans (hparts.trans (event_meets hevent))

theorem reset_sourced (h : (reset now).run c = (.ok u, c')) : Sourced enc c'.db := by
  obtain ⟨_, c₁, hcache, h⟩ := Sql.bind_ok h
  obtain ⟨items, c₂, hitems, h⟩ := Sql.bind_ok h
  obtain ⟨epoch, c₃, hepoch, h⟩ := Sql.bind_ok h
  obtain ⟨_, c₄, hclear, h⟩ := Sql.bind_ok h
  obtain ⟨_, c₅, hloop, hmark⟩ := Sql.bind_ok h
  have hcleared : Sourced enc c₄.db := by
    rw [Sql.execute_ok hclear, (Sql.draw_ok hepoch).2, (Sql.query_ok hitems).2,
      Sql.execute_ok hcache]
    exact sourced_of_empty enc rfl rfl rfl
  have hheld : Meets c₄.db c₅.db := by
    refine Sql.each_ok (I := fun c' => Meets c₄.db c'.db) ?_ hloop (Meets.refl _)
    intro row _ d d' _ hI h
    obtain ⟨v, d₁, hv, h⟩ := Sql.bind_ok h
    rw [(Sql.orThrow_ok hv).2] at h
    split_ifs at h
    · obtain ⟨w, d₂, hwrite, h⟩ := Sql.bind_ok h
      rw [(Sql.pure_ok h).2]
      exact hI.trans (updateRequest_meets hwrite)
    · exact hI.trans (execute_meets h fun _ => ⟨rfl, rfl, rfl, rfl⟩)
  exact (hcleared.meets hheld).meets (execute_meets hmark fun _ => ⟨rfl, rfl, rfl, rfl⟩)

theorem perform_sourced (hs : Sourced enc c.db) {op : IngestOp} (hother : op.observes = false)
    (h : (perform enc now op).run c = (.ok u, c')) : Sourced enc c'.db := by
  cases op with
  | conversation source row route value origin =>
    obtain ⟨_, c₁, hwrite, h⟩ := Sql.bind_ok h
    rw [(Sql.pure_ok h).2]
    exact hs.meets (conversation_meets hwrite)
  | sourceMessage source row date value origin => exact nomatch hother
  | message source row date value origin => exact nomatch hother
  | observeIdentity service address =>
    obtain ⟨_, c₁, hwrite, h⟩ := Sql.bind_ok h
    rw [(Sql.pure_ok h).2]
    exact hs.meets (observeIdentity_meets hwrite).1
  | updateIdentity value => exact hs.meets (updateIdentity_meets h)
  | setProgress key value =>
    change (setProgress key value).run c = _ at h
    unfold setProgress at h
    exact hs.meets (execute_meets h fun _ => ⟨rfl, rfl, rfl, rfl⟩)
  | deleteProgress key =>
    change (deleteProgress key).run c = _ at h
    unfold deleteProgress at h
    exact hs.meets (execute_meets h fun _ => ⟨rfl, rfl, rfl, rfl⟩)

end Message

end Zimbr.Relay
