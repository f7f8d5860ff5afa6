import Mathlib.Logic.Relation
import Zimbr.Relay.Effects

set_option autoImplicit false

/-!
# What an ingestion write does to the journal

A write of a conversation, a message or an identity publishes its record, or
changes only data no client reads; it never touches a send.
-/
namespace Zimbr.Relay
open Library

theorem SameSends.refl (j : Journal) : SameSends j j := ⟨rfl, rfl, rfl, rfl, rfl, rfl⟩

theorem SameSends.trans {j₁ j₂ j₃ : Journal} (h : SameSends j₁ j₂) (h' : SameSends j₂ j₃) :
    SameSends j₁ j₃ :=
  ⟨h'.epoch.trans h.epoch, h'.sendRequests.trans h.sendRequests, h'.sendParts.trans h.sendParts,
    h'.sendOwners.trans h.sendOwners, h'.held.trans h.held, h'.uploads.trans h.uploads⟩

inductive Ingest (j j' : Journal) : Prop where
  | silent (sends : SameSends j j') (silent : Silent j j')
  | published (r : Record) (kind : r.kind ≠ .request) (sends : SameSends j j')
    (published : Published j r j')

def Ingested : Journal → Journal → Prop := Relation.ReflTransGen Ingest

theorem Ingest.sends {j j' : Journal} (h : Ingest j j') : SameSends j j' := by
  cases h with
  | silent sends _ => exact sends
  | published r _ sends _ => exact sends

theorem Ingested.sends {j j' : Journal} (h : Ingested j j') : SameSends j j' := by
  induction h with
  | refl => exact SameSends.refl j
  | tail _ h ih => exact ih.trans h.sends

theorem Ingest.single {j j' : Journal} (h : Ingest j j') : Ingested j j' :=
  Relation.ReflTransGen.single h

theorem Ingested.silent {j j' : Journal} (h : SameSends j j') (h' : Silent j j') : Ingested j j' :=
  Ingest.single (.silent h h')

/-- A record was written under a number already taken; its event is to follow. -/
structure Written (j : Journal) (r : Record) (j' : Journal) : Prop where
  sends : SameSends j j'
  sequence : j'.sequence = j.sequence
  prunedThrough : j'.prunedThrough = j.prunedThrough
  events : j'.events = j.events
  log : j'.log = j.log
  stored : ∀ k, stored j' k = if k = r.key then some r else stored j k

theorem Written.silent {j j' j'' : Journal} {r : Record} (h : Written j r j')
    (hs : SameSends j' j'') (h' : Silent j' j'') : Written j r j'' :=
  ⟨h.sends.trans hs, h'.sequence.trans h.sequence, h'.prunedThrough.trans h.prunedThrough,
    h'.events.trans h.events, h'.log.trans h.log, fun k => (h'.stored k).trans (h.stored k)⟩

section Writes

variable {c c₁ c₂ c' : Conn Journal Bytes} {now : Int} {origin : Origin} {r : Record} {u : Unit}

theorem Written.ingest {seq : Nat} (hnext : next.run c = (.ok seq, c₁))
    (hw : Written c₁.db r c₂.db) (hr : r.revision = seq) (hk : r.kind ≠ .request)
    (hevent : (event seq r origin now).run c₂ = (.ok u, c')) : Ingest c.db c'.db := by
  obtain ⟨hroom, rfl, hdb₁⟩ := next_ok hnext
  obtain ⟨events, hinsert, hdb'⟩ := event_ok hevent
  have hbefore : SameSends c.db c₁.db := by
    rw [hdb₁]
    exact ⟨rfl, rfl, rfl, rfl, rfl, rfl⟩
  have hafter : SameSends c₂.db c'.db := by
    rw [hdb']
    exact ⟨rfl, rfl, rfl, rfl, rfl, rfl⟩
  refine .published r hk ((hbefore.trans hw.sends).trans hafter) ⟨hr, hroom, ?_, ?_, ?_, ?_, ?_, ?_⟩
  · exact ((hbefore.trans hw.sends).trans hafter).epoch
  · rw [hdb']
    exact hw.sequence.trans (by rw [hdb₁])
  · rw [hdb']
    exact hw.prunedThrough.trans (by rw [hdb₁])
  · exact ((hbefore.trans hw.sends).trans hafter).held
  · have hevents : c₂.db.events = c.db.events := hw.events.trans (by rw [hdb₁])
    have hlog : c₂.db.log = c.db.log := hw.log.trans (by rw [hdb₁])
    rw [hevents] at hinsert
    exact ⟨origin, by rw [hdb', ← hlog], now, by rw [hdb']; exact hinsert⟩
  · intro k
    have hlast : Relay.stored c'.db k = Relay.stored c₂.db k := by
      rw [hdb']
      rcases k with ⟨_ | _ | _ | _, id⟩ <;> rfl
    have hfirst : Relay.stored c₁.db k = Relay.stored c.db k := by
      rw [hdb₁]
      rcases k with ⟨_ | _ | _ | _, id⟩ <;> rfl
    rw [hlast, hw.stored k, hfirst]

theorem insertIdentity_written {id : Bytes} {row : IdentityRow} {j j' : Journal}
    (h : insertIdentity id row j = some j') (hid : row.record.id = id) :
    Written j (.identity row.record) j' := by
  simp only [insertIdentity, Option.ite_none_left_eq_some, Option.map_eq_some_iff] at h
  obtain ⟨-, identities, hinsert, rfl⟩ := h
  refine ⟨⟨rfl, rfl, rfl, rfl, rfl, rfl⟩, rfl, rfl, rfl, rfl, ?_⟩
  rintro ⟨kind, id'⟩
  cases kind with
  | identity =>
    by_cases hk : id' = id
    · simp [Relay.stored, Record.key, Record.kind, Record.id, hid, Table.get?_insert hinsert, hk]
    · simp [Relay.stored, Record.key, Record.kind, Record.id, hid, Table.get?_insert hinsert, hk]
  | conversation => simp [Relay.stored, Record.key, Record.kind]
  | message => simp [Relay.stored, Record.key, Record.kind]
  | request => simp [Relay.stored, Record.key, Record.kind]

theorem observeIdentity_ok {service address : Bytes} {id : Option Bytes}
    (h : (observeIdentity now service address).run c = (.ok id, c')) : Ingested c.db c'.db := by
  unfold observeIdentity at h
  split_ifs at h
  · obtain ⟨-, hc'⟩ := Sql.pure_ok h
    rw [hc']
    exact Relation.ReflTransGen.refl
  · obtain ⟨found, c₁, hfound, h⟩ := Sql.bind_ok h
    obtain ⟨-, hdb₁⟩ := Sql.query_ok hfound
    rw [← hdb₁]
    cases found with
    | some r =>
      obtain ⟨-, hc'⟩ := Sql.pure_ok h
      rw [hc']
      exact Relation.ReflTransGen.refl
    | none =>
      obtain ⟨id', c₂, hdraw, h⟩ := Sql.bind_ok h
      obtain ⟨-, hdb₂⟩ := Sql.draw_ok hdraw
      obtain ⟨seq, c₃, hnext, h⟩ := Sql.bind_ok h
      obtain ⟨_, c₄, hinsert, h⟩ := Sql.bind_ok h
      obtain ⟨_, c₅, hevent, h⟩ := Sql.bind_ok h
      obtain ⟨-, hc'⟩ := Sql.pure_ok h
      rw [hc', ← hdb₂]
      have hw := insertIdentity_written (Sql.execute?_ok hinsert) rfl
      exact (hw.ingest hnext rfl nofun hevent).single

theorem silent_of_eq {j j' : Journal} (h : j' = j) : Ingested j j' := by
  rw [h]
  exact Relation.ReflTransGen.refl

theorem identityContent_id (value : Identity) : (identityContent value).id = value.id := by
  unfold identityContent
  split <;> rfl

theorem updateIdentity_ok {value : Identity}
    (h : (updateIdentity now value).run c = (.ok u, c')) : Ingested c.db c'.db := by
  obtain ⟨found, c₁, hfound, h⟩ := Sql.bind_ok h
  obtain ⟨rfl, hdb₁⟩ := Sql.query_ok hfound
  rw [← hdb₁] at h ⊢
  cases hrow : c₁.db.identities.get? value.id with
  | none =>
    simp only [hrow] at h
    exact (Sql.throw_ok h).elim
  | some row =>
    simp only [hrow] at h
    obtain ⟨_, c₂, hrequire, h⟩ := Sql.bind_ok h
    obtain ⟨-, hc₂⟩ := Sql.require_ok hrequire
    rw [hc₂] at h
    split_ifs at h
    · exact silent_of_eq (congrArg Conn.db (Sql.pure_ok h).2)
    · obtain ⟨seq, c₃, hnext, h⟩ := Sql.bind_ok h
      obtain ⟨_, c₄, hset, hevent⟩ := Sql.bind_ok h
      have hset := Sql.execute_ok hset
      have hrow₃ : c₃.db.identities.get? value.id = some row := by
        rw [(next_ok hnext).2.2]
        exact hrow
      have hid := identityContent_id value
      have hw : Written c₃.db (.identity { identityContent value with revision := seq }) c₄.db := by
        rw [hset]
        refine ⟨⟨rfl, rfl, rfl, rfl, rfl, rfl⟩, rfl, rfl, rfl, rfl, ?_⟩
        rintro ⟨kind, id⟩
        cases kind with
        | identity =>
          by_cases hk : id = value.id
          · simp [Relay.stored, Record.key, Record.kind, Record.id, hid, hk, hrow₃]
          · simp [Relay.stored, Record.key, Record.kind, Record.id, hid, hk]
        | conversation => simp [Relay.stored, Record.key, Record.kind]
        | message => simp [Relay.stored, Record.key, Record.kind]
        | request => simp [Relay.stored, Record.key, Record.kind]
      exact (hw.ingest hnext rfl (fun habsurd => by cases habsurd) hevent).single

theorem upsertConversation_written {id : Bytes} {row : ConversationRow} {j j' : Journal}
    (h : upsertConversation id row j = some j') (hid : row.record.id = id)
    (hfound : ∀ r, findConversation row.source j = some r → r.1 = id) :
    Written j (.conversation row.record) j' := by
  unfold upsertConversation at h
  have hstored (t : Table Bytes ConversationRow)
      (ht : ∀ id', (t.get? id').map (·.record) =
        if id' = id then some row.record else (j.conversations.get? id').map (·.record)) :
      Written j (.conversation row.record) { j with conversations := t } := by
    refine ⟨⟨rfl, rfl, rfl, rfl, rfl, rfl⟩, rfl, rfl, rfl, rfl, ?_⟩
    rintro ⟨kind, id'⟩
    cases kind with
    | conversation =>
      have hmap := congrArg (Option.map Record.conversation) (ht id')
      by_cases hk : id' = id
      · simpa [Relay.stored, Record.key, Record.kind, Record.id, hid, hk, Function.comp_def] using hmap
      · simpa [Relay.stored, Record.key, Record.kind, Record.id, hid, hk, Function.comp_def] using hmap
    | identity => simp [Relay.stored, Record.key, Record.kind]
    | message => simp [Relay.stored, Record.key, Record.kind]
    | request => simp [Relay.stored, Record.key, Record.kind]
  cases hf : findConversation row.source j with
  | some r =>
    simp only [hf, Option.some.injEq] at h
    rw [← h]
    apply hstored
    intro id'
    rw [Table.get?_modify, hfound r hf]
    by_cases hk : id' = id
    · obtain ⟨v, hv⟩ : ∃ v, j.conversations.get? id = some v := by
        refine ⟨r.2, ?_⟩
        rw [← hfound r hf, Table.get?_eq_some_iff]
        exact List.mem_of_find?_eq_some hf
      simp [hk, hv]
    · simp [hk]
  | none =>
    simp only [hf, Option.map_eq_some_iff] at h
    obtain ⟨t, hinsert, rfl⟩ := h
    apply hstored
    intro id'
    rw [Table.get?_insert hinsert]
    by_cases hk : id' = id <;> simp [hk]

theorem execute_silent {f : Journal → Journal} (h : (Sql.execute f : Tx Unit).run c = (.ok u, c'))
    (hsends : SameSends c.db (f c.db)) (hsilent : Silent c.db (f c.db)) : Ingested c.db c'.db := by
  rw [Sql.execute_ok h]
  exact .silent hsends hsilent

theorem observeAll_ok {service : Bytes} {addresses : List Bytes}
    (h : (Sql.each (fun address => do let _ ← observeIdentity now service address) addresses :
      Tx Unit).run c = (.ok u, c')) : Ingested c.db c'.db := by
  refine Sql.each_ok (I := fun c' => Ingested c.db c'.db) ?_ h Relation.ReflTransGen.refl
  intro address _ c₁ c₂ _ hI h
  obtain ⟨_, c₃, hobserve, h⟩ := Sql.bind_ok h
  rw [(Sql.pure_ok h).2]
  exact hI.trans (observeIdentity_ok hobserve)

theorem participants_silent {j : Journal} {participants : Table (Bytes × Bytes) Unit} :
    SameSends j { j with participants := participants } ∧
      Silent j { j with participants := participants } :=
  ⟨⟨rfl, rfl, rfl, rfl, rfl, rfl⟩, rfl, rfl, rfl, rfl, rfl, rfl, fun _ => rfl⟩

theorem Silent.trans {j₁ j₂ j₃ : Journal} (h : Silent j₁ j₂) (h' : Silent j₂ j₃) : Silent j₁ j₃ :=
  ⟨h'.epoch.trans h.epoch, h'.sequence.trans h.sequence, h'.prunedThrough.trans h.prunedThrough,
    h'.events.trans h.events, h'.log.trans h.log, h'.held.trans h.held,
    fun k => (h'.stored k).trans (h.stored k)⟩

theorem addParticipants_ok {id : Bytes} {addresses : List Bytes}
    (h : (Sql.each (fun address => Sql.execute (addParticipant id address)) addresses :
      Tx Unit).run c = (.ok u, c')) : SameSends c.db c'.db ∧ Silent c.db c'.db := by
  refine Sql.each_ok (I := fun c' => SameSends c.db c'.db ∧ Silent c.db c'.db) ?_ h
    ⟨SameSends.refl _, rfl, rfl, rfl, rfl, rfl, rfl, fun _ => rfl⟩
  intro address _ c₁ c₂ _ hI h
  rw [Sql.execute_ok h]
  exact ⟨hI.1.trans participants_silent.1, hI.2.trans participants_silent.2⟩

/-- The identifier drawn for a source is the stored row's, if it has one. -/
theorem idOf_ok {α : Type} {found : Option (Bytes × α)} {id : Bytes}
    (h : (idOf found).run c = (.ok id, c')) : c'.db = c.db ∧ ∀ r, found = some r → r.1 = id := by
  cases found with
  | some r =>
    obtain ⟨hid, hc'⟩ := Sql.pure_ok h
    rw [hc']
    exact ⟨rfl, fun r' hr' => by rw [hid, Option.some.inj hr']⟩
  | none => exact ⟨(Sql.draw_ok h).2, nofun⟩

theorem conversation_ok {source : Bytes} {row : Int} {route : Bytes} {value : Conversation}
    {id : Bytes} (h : (conversation now source row route value origin).run c = (.ok id, c')) :
    Ingested c.db c'.db := by
  obtain ⟨_, c₁, hobserve, h⟩ := Sql.bind_ok h
  refine (observeAll_ok hobserve).trans ?_
  obtain ⟨found, c₂, hfound, h⟩ := Sql.bind_ok h
  obtain ⟨rfl, hdb₂⟩ := Sql.query_ok hfound
  rw [← hdb₂] at h ⊢
  obtain ⟨id', c₃, hid, h⟩ := Sql.bind_ok h
  obtain ⟨hdb₃, hkey⟩ := idOf_ok hid
  rw [← hdb₃] at h hkey ⊢
  dsimp only at h
  split at h
  · split_ifs at h
    · obtain ⟨_, c₄, hset, h⟩ := Sql.bind_ok h
      rw [(Sql.pure_ok h).2]
      refine execute_silent hset ⟨rfl, rfl, rfl, rfl, rfl, rfl⟩ ⟨rfl, rfl, rfl, rfl, rfl, rfl, ?_⟩
      rintro ⟨kind, id''⟩
      cases kind with
      | conversation =>
        by_cases hk : id'' = id'
        · simp [Relay.stored, hk, Function.comp_def]
        · simp [Relay.stored, hk]
      | message => rfl
      | identity => rfl
      | request => rfl
    · exact silent_of_eq (congrArg Conn.db (Sql.pure_ok h).2)
  · obtain ⟨seq, c₄, hnext, h⟩ := Sql.bind_ok h
    obtain ⟨_, c₅, hset, h⟩ := Sql.bind_ok h
    obtain ⟨_, c₆, hdelete, h⟩ := Sql.bind_ok h
    obtain ⟨_, c₇, hadd, h⟩ := Sql.bind_ok h
    obtain ⟨_, c₈, hevent, h⟩ := Sql.bind_ok h
    rw [(Sql.pure_ok h).2]
    have hadd := addParticipants_ok hadd
    rw [Sql.execute_ok hdelete] at hadd
    have hsame : findConversation source c₄.db = findConversation source c₃.db := by
      rw [(next_ok hnext).2.2]
      rfl
    have hw := upsertConversation_written (Sql.execute?_ok hset) rfl fun r hr =>
      hkey r (hsame ▸ hr)
    have hw := (hw.silent participants_silent.1 participants_silent.2).silent hadd.1 hadd.2
    exact (hw.ingest hnext rfl (fun habsurd => by cases habsurd) hevent).single

theorem upsertMessage_written {id : Bytes} {row : MessageRow} {j j' : Journal}
    (h : upsertMessage id row j = some j') (hid : row.record.id = id)
    (hfound : ∀ r, findMessage row.source j = some r → r.1 = id) :
    Written j (.message row.record) j' := by
  simp only [upsertMessage, Option.ite_none_left_eq_some] at h
  obtain ⟨-, h⟩ := h
  have hstored (t : Table Bytes MessageRow)
      (ht : ∀ id', (t.get? id').map (·.record) =
        if id' = id then some row.record else (j.messages.get? id').map (·.record)) :
      Written j (.message row.record) { j with messages := t } := by
    refine ⟨⟨rfl, rfl, rfl, rfl, rfl, rfl⟩, rfl, rfl, rfl, rfl, ?_⟩
    rintro ⟨kind, id'⟩
    cases kind with
    | message =>
      have hmap := congrArg (Option.map Record.message) (ht id')
      by_cases hk : id' = id
      · simpa [Relay.stored, Record.key, Record.kind, Record.id, hid, hk, Function.comp_def] using hmap
      · simpa [Relay.stored, Record.key, Record.kind, Record.id, hid, hk, Function.comp_def] using hmap
    | identity => simp [Relay.stored, Record.key, Record.kind]
    | conversation => simp [Relay.stored, Record.key, Record.kind]
    | request => simp [Relay.stored, Record.key, Record.kind]
  cases hf : findMessage row.source j with
  | some r =>
    simp only [hf, Option.some.injEq] at h
    rw [← h]
    apply hstored
    intro id'
    rw [Table.get?_modify, hfound r hf]
    by_cases hk : id' = id
    · obtain ⟨v, hv⟩ : ∃ v, j.messages.get? id = some v := by
        refine ⟨r.2, ?_⟩
        rw [← hfound r hf, Table.get?_eq_some_iff]
        exact List.mem_of_find?_eq_some hf
      simp [hk, hv]
    · simp [hk]
  | none =>
    simp only [hf, Option.map_eq_some_iff] at h
    obtain ⟨t, hinsert, rfl⟩ := h
    apply hstored
    intro id'
    rw [Table.get?_insert hinsert]
    by_cases hk : id' = id <;> simp [hk]

theorem observeActors_ok {v : Message} (h : (observeActors now v).run c = (.ok u, c')) :
    Ingested c.db c'.db := by
  have hactor {d : Conn Journal Bytes} (h : (observeReactor now v).run d = (.ok u, c')) :
      Ingested d.db c'.db := by
    unfold observeReactor at h
    split at h
    · split at h
      · obtain ⟨_, d₁, hobserve, h⟩ := Sql.bind_ok h
        rw [(Sql.pure_ok h).2]
        exact observeIdentity_ok hobserve
      · exact silent_of_eq (congrArg Conn.db (Sql.pure_ok h).2)
    · exact silent_of_eq (congrArg Conn.db (Sql.pure_ok h).2)
  rw [observeActors_eq] at h
  split_ifs at h
  · obtain ⟨_, c₁, hobserve, h⟩ := Sql.bind_ok h
    exact (observeIdentity_ok hobserve).trans (hactor h)
  · exact hactor h

theorem enrichment_silent {j : Journal} {enrichment : Table Bytes Sections} :
    SameSends j { j with enrichment := enrichment } ∧
      Silent j { j with enrichment := enrichment } :=
  ⟨⟨rfl, rfl, rfl, rfl, rfl, rfl⟩, rfl, rfl, rfl, rfl, rfl, rfl, fun _ => rfl⟩

theorem cache_silent {j : Journal} {cache : Table Nat CachedSource} :
    SameSends j { j with sourceMessageCache := cache } ∧
      Silent j { j with sourceMessageCache := cache } :=
  ⟨⟨rfl, rfl, rfl, rfl, rfl, rfl⟩, rfl, rfl, rfl, rfl, rfl, rfl, fun _ => rfl⟩

theorem message_ok {enc : Encoding} {source : Bytes} {row date : Int} {value : Message}
    (h : (message enc now source row date value origin).run c = (.ok u, c')) :
    Ingested c.db c'.db := by
  obtain ⟨_, c₁, hforget, h⟩ := Sql.bind_ok h
  refine (execute_silent hforget cache_silent.1 cache_silent.2).trans ?_
  obtain ⟨_, c₂, hobserve, h⟩ := Sql.bind_ok h
  refine (observeActors_ok hobserve).trans ?_
  obtain ⟨found, c₃, hfound, h⟩ := Sql.bind_ok h
  obtain ⟨rfl, hdb₃⟩ := Sql.query_ok hfound
  obtain ⟨id, c₄, hid, h⟩ := Sql.bind_ok h
  obtain ⟨hdb₄, hkey⟩ := idOf_ok hid
  obtain ⟨result, c₅, hresult, h⟩ := Sql.bind_ok h
  obtain ⟨hresult, hdb₅⟩ := Sql.query_ok hresult
  obtain ⟨prepared, c₆, hprepared, h⟩ := Sql.bind_ok h
  obtain ⟨hprepared, hc₆⟩ := Sql.lift_ok hprepared
  rw [hc₆] at h
  have hdb : c₅.db = c₂.db := hdb₅.trans (hdb₄.trans hdb₃)
  rw [← hdb] at hkey ⊢
  have hpid : prepared.value.id = id := by
    rw [hresult] at hprepared
    exact Enrichment.prepare_id hprepared
  dsimp only at h
  split at h
  · split_ifs at h
    · refine execute_silent h ⟨rfl, rfl, rfl, rfl, rfl, rfl⟩ ⟨rfl, rfl, rfl, rfl, rfl, rfl, ?_⟩
      rintro ⟨kind, id'⟩
      cases kind with
      | message =>
        by_cases hk : id' = id
        · simp [Relay.stored, hk, Function.comp_def]
        · simp [Relay.stored, hk]
      | conversation => rfl
      | identity => rfl
      | request => rfl
    · exact silent_of_eq (congrArg Conn.db (Sql.pure_ok h).2)
  · obtain ⟨seq, c₇, hnext, h⟩ := Sql.bind_ok h
    obtain ⟨_, c₈, hset, h⟩ := Sql.bind_ok h
    obtain ⟨_, c₉, hpersist, hevent⟩ := Sql.bind_ok h
    have hsame : findMessage source c₇.db = findMessage source c₅.db := by
      rw [(next_ok hnext).2.2]
      rfl
    have hw := upsertMessage_written (Sql.execute?_ok hset) hpid fun r hr => hkey r (hsame ▸ hr)
    have hw : Written c₇.db (.message { prepared.value with revision := seq }) c₉.db := by
      rw [Sql.execute_ok hpersist]
      exact hw.silent enrichment_silent.1 enrichment_silent.2
    exact (hw.ingest hnext rfl (fun habsurd => by cases habsurd) hevent).single

theorem sourceMessage_ok {enc : Encoding} {source : Bytes} {row date : Int} {value : Message}
    (h : (sourceMessage enc now source row date value origin).run c = (.ok u, c')) :
    Ingested c.db c'.db := by
  obtain ⟨cached, c₁, hcached, h⟩ := Sql.bind_ok h
  rw [← (Sql.query_ok hcached).2]
  split_ifs at h
  · exact silent_of_eq (congrArg Conn.db (Sql.pure_ok h).2)
  · obtain ⟨_, c₂, hmessage, hremember⟩ := Sql.bind_ok h
    exact (message_ok hmessage).trans
      (execute_silent hremember cache_silent.1 cache_silent.2)

theorem perform_ok {enc : Encoding} {op : IngestOp}
    (h : (perform enc now op).run c = (.ok u, c')) : Ingested c.db c'.db := by
  cases op with
  | conversation source row route value origin =>
    obtain ⟨_, c₁, hwrite, h⟩ := Sql.bind_ok h
    rw [(Sql.pure_ok h).2]
    exact conversation_ok hwrite
  | sourceMessage source row date value origin => exact sourceMessage_ok h
  | message source row date value origin => exact message_ok h
  | observeIdentity service address =>
    obtain ⟨_, c₁, hwrite, h⟩ := Sql.bind_ok h
    rw [(Sql.pure_ok h).2]
    exact observeIdentity_ok hwrite
  | updateIdentity value => exact updateIdentity_ok h
  | setProgress key value =>
    change (setProgress key value).run c = _ at h
    unfold setProgress at h
    exact execute_silent h ⟨rfl, rfl, rfl, rfl, rfl, rfl⟩ ⟨rfl, rfl, rfl, rfl, rfl, rfl, fun _ => rfl⟩
  | deleteProgress key =>
    change (deleteProgress key).run c = _ at h
    unfold deleteProgress at h
    exact execute_silent h ⟨rfl, rfl, rfl, rfl, rfl, rfl⟩ ⟨rfl, rfl, rfl, rfl, rfl, rfl, fun _ => rfl⟩

end Writes

end Zimbr.Relay
