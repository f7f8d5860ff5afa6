import Zimbr.Relay.Passes
import Zimbr.Relay.SourceCache

set_option autoImplicit false

/-!
# What a pass has imported

A row that a pass visits is a message of the journal from then on, if the row
has a GUID and is joined to a chat that the source knows.
-/
namespace Zimbr.Relay
open Library

def Imported (j : Journal) (source : Bytes) : Prop :=
  ∃ id m, j.messages.get? id = some m ∧ m.source = source

/-- A remembered fingerprint is the one of a stored message. -/
def Cached (j : Journal) : Prop :=
  ∀ slot entry, j.sourceMessageCache.get? slot = some entry → Imported j entry.source

/-- Messages stay, and the sends are not touched. -/
structure Gathers (j j' : Journal) : Prop where
  requests : j'.sendRequests = j.sendRequests
  imported : ∀ source, Imported j source → Imported j' source
  cached : Cached j → Cached j'

instance : Std.Refl Gathers where
  refl _ := ⟨rfl, fun _ h => h, fun h => h⟩

instance : IsTrans Journal Gathers where
  trans _ _ _ h h' := ⟨h'.requests.trans h.requests,
    fun source himported => h'.imported source (h.imported source himported),
    fun hcached => h'.cached (h.cached hcached)⟩

structure Learns (j j' : Journal) : Prop where
  imported : ∀ source, Imported j source → Imported j' source
  cached : Cached j → Cached j'

theorem Gathers.learns {j j' : Journal} (h : Gathers j j') : Learns j j' := ⟨h.imported, h.cached⟩

section Journal

variable {enc : Encoding} {now : Int} {origin : Origin} {j j' : Journal}

theorem Imported.congr {source : Bytes} (hmessages : j'.messages = j.messages)
    (h : Imported j source) : Imported j' source := by
  obtain ⟨id, m, hm, hsource⟩ := h
  exact ⟨id, m, by rw [hmessages, hm], hsource⟩

theorem Cached.congr (hmessages : j'.messages = j.messages)
    (hcache : j'.sourceMessageCache = j.sourceMessageCache) (h : Cached j) : Cached j' := by
  intro slot entry hentry
  rw [hcache] at hentry
  exact (h slot entry hentry).congr hmessages

theorem gathers_of_eq (hrequests : j'.sendRequests = j.sendRequests)
    (hmessages : j'.messages = j.messages) (hcache : j'.sourceMessageCache = j.sourceMessageCache) :
    Gathers j j' :=
  ⟨hrequests, fun _ h => h.congr hmessages, fun h => h.congr hmessages hcache⟩

theorem Meets.gathers (h : Meets j j') (hrequests : j'.sendRequests = j.sendRequests) :
    Gathers j j' :=
  gathers_of_eq hrequests h.messages h.cache

theorem forgetSource_gathers (source : Bytes) : Gathers j (forgetSource source j) := by
  refine ⟨rfl, fun _ h => h.congr rfl, fun h slot entry hentry => ?_⟩
  change (j.sourceMessageCache.deleteWhere _).get? slot = some entry at hentry
  rw [Table.get?_deleteWhere] at hentry
  exact (h slot entry (Option.filter_eq_some_iff.mp hentry).1).congr rfl

theorem findMessage_imported {source : Bytes} {r : Bytes × MessageRow}
    (h : findMessage source j = some r) : j.messages.get? r.1 = some r.2 ∧ r.2.source = source :=
  ⟨(Table.get?_eq_some_iff _ _ _).mpr (List.mem_of_find?_eq_some h),
    by simpa using List.find?_some h⟩

theorem rewritten_imported {id : Bytes} {f : MessageRow → MessageRow} {source : Bytes}
    (hf : ∀ r, j.messages.get? id = some r → (f r).source = r.source) (h : Imported j source) :
    Imported { j with messages := j.messages.modify id f } source := by
  obtain ⟨id', m, hm, hsource⟩ := h
  by_cases hid : id' = id
  · subst hid
    refine ⟨id', f m, ?_, (hf m hm).trans hsource⟩
    rw [Table.get?_modify, if_pos rfl, hm]
    rfl
  · refine ⟨id', m, ?_, hsource⟩
    rw [Table.get?_modify, if_neg hid, hm]

theorem upsertMessage_gathers {id : Bytes} {row : MessageRow}
    (h : upsertMessage id row j = some j') : Gathers j j' ∧ Imported j' row.source := by
  simp only [upsertMessage, Option.ite_none_left_eq_some] at h
  obtain ⟨-, h⟩ := h
  split at h
  · next existing old hfound =>
    obtain ⟨hold, hsource⟩ := findMessage_imported hfound
    have hsame (r : MessageRow) (hr : j.messages.get? existing = some r) : row.source = r.source := by
      rw [hold, Option.some.injEq] at hr
      rw [← hr, hsource]
    rw [← Option.some.inj h]
    have himported (source : Bytes) (hsource : Imported j source) :
        Imported { j with messages := j.messages.modify existing fun _ => row } source :=
      rewritten_imported hsame hsource
    exact ⟨⟨rfl, himported, fun hcached slot entry hentry =>
      himported _ (hcached slot entry hentry)⟩, himported _ ⟨existing, old, hold, hsource⟩⟩
  · obtain ⟨messages, hinsert, rfl⟩ := Option.map_eq_some_iff.mp h
    have himported (source : Bytes) (hsource : Imported j source) :
        Imported { j with messages := messages } source := by
      obtain ⟨id', m, hm, hsource⟩ := hsource
      refine ⟨id', m, ?_, hsource⟩
      rw [Table.get?_insert hinsert, if_neg, hm]
      rintro rfl
      rw [Table.get?_of_insert hinsert] at hm
      cases hm
    refine ⟨⟨rfl, himported, fun hcached slot entry hentry =>
      himported _ (hcached slot entry hentry)⟩, id, row, ?_, rfl⟩
    rw [Table.get?_insert hinsert, if_pos rfl]

section Writes

variable {c c' : Conn Journal Bytes} {u : Unit} {source : Bytes} {row date : Int} {value : Message}

theorem message_gathers (h : (message enc now source row date value origin).run c = (.ok u, c')) :
    Gathers c.db c'.db ∧ Imported c'.db source := by
  obtain ⟨_, c₁, hforget, h⟩ := Sql.bind_ok h
  obtain ⟨_, c₂, hobserve, h⟩ := Sql.bind_ok h
  have hmeets := (observeActors_meets hobserve).1.gathers (observeActors_ok hobserve).sends.sendRequests
  rw [Sql.execute_ok hforget] at hmeets
  have hopened : Gathers c.db c₂.db := IsTrans.trans _ _ _ (forgetSource_gathers source) hmeets
  obtain ⟨found, c₃, hfound, h⟩ := Sql.bind_ok h
  obtain ⟨rfl, hdb₃⟩ := Sql.query_ok hfound
  obtain ⟨id, c₄, hid, h⟩ := Sql.bind_ok h
  obtain ⟨hdb₄, hkey⟩ := idOf_ok hid
  obtain ⟨result, c₅, hresult, h⟩ := Sql.bind_ok h
  obtain ⟨-, hdb₅⟩ := Sql.query_ok hresult
  obtain ⟨prepared, c₆, hprepared, h⟩ := Sql.bind_ok h
  rw [(Sql.lift_ok hprepared).2] at h
  have hdb : c₅.db = c₂.db := hdb₅.trans (hdb₄.trans hdb₃)
  rw [← hdb] at hopened
  dsimp only at h
  split at h
  · next id' old hunchanged =>
    obtain ⟨hfound, -⟩ := Option.filter_eq_some_iff.mp hunchanged
    rw [← hdb] at hfound
    obtain ⟨hold, hsource⟩ := findMessage_imported hfound
    have himported : Imported c₅.db source := ⟨id', old, hold, hsource⟩
    split_ifs at h
    · have hwritten (s : Bytes) (hs : Imported c₅.db s) : Imported c'.db s := by
        rw [Sql.execute_ok h]
        exact rewritten_imported (fun _ _ => rfl) hs
      have hmoved : Gathers c₅.db c'.db := by
        refine ⟨?_, hwritten, fun hcached slot entry hentry => hwritten _ (hcached slot entry ?_)⟩
        · rw [Sql.execute_ok h]
        · rw [Sql.execute_ok h] at hentry
          exact hentry
      exact ⟨IsTrans.trans _ _ _ hopened hmoved, hwritten _ himported⟩
    · rw [(Sql.pure_ok h).2]
      exact ⟨hopened, himported⟩
  · obtain ⟨seq, c₇, hnext, h⟩ := Sql.bind_ok h
    obtain ⟨_, c₈, hset, h⟩ := Sql.bind_ok h
    obtain ⟨_, c₉, hpersist, hevent⟩ := Sql.bind_ok h
    obtain ⟨events, -, hdb'⟩ := event_ok hevent
    have hnext : Gathers c₅.db c₇.db := by
      rw [(next_ok hnext).2.2]
      exact gathers_of_eq rfl rfl rfl
    obtain ⟨hset, himported⟩ := upsertMessage_gathers (Sql.execute?_ok hset)
    have hrest : Gathers c₈.db c'.db := by
      rw [hdb', Sql.execute_ok hpersist]
      exact gathers_of_eq rfl rfl rfl
    refine ⟨?_, hrest.imported _ himported⟩
    exact IsTrans.trans _ _ _ hopened (IsTrans.trans _ _ _ hnext (IsTrans.trans _ _ _ hset hrest))

theorem sourceMessage_gathers
    (h : (sourceMessage enc now source row date value origin).run c = (.ok u, c')) :
    Gathers c.db c'.db ∧ (Cached c.db → Imported c'.db source) := by
  obtain ⟨cached, c₁, hquery, h⟩ := Sql.bind_ok h
  obtain ⟨rfl, hdb₁⟩ := Sql.query_ok hquery
  rw [← hdb₁]
  split_ifs at h with hhit
  · rw [(Sql.pure_ok h).2]
    refine ⟨Std.Refl.refl c₁.db, fun hcached => ?_⟩
    rw [← hdb₁] at hhit
    obtain ⟨r, hr, hentry⟩ := List.any_eq_true.mp hhit
    simp only [Bool.and_eq_true, decide_eq_true_eq] at hentry
    exact hentry.1 ▸ hcached r.1 r.2 ((Table.get?_eq_some_iff _ _ _).mpr hr)
  · obtain ⟨_, c₂, hmessage, hremember⟩ := Sql.bind_ok h
    obtain ⟨hgathers, himported⟩ := message_gathers hmessage
    have hsame : c'.db.messages = c₂.db.messages := by
      rw [Sql.execute_ok hremember]
      rfl
    refine ⟨⟨?_, fun s hs => (hgathers.imported s hs).congr hsame, fun hcached slot entry hentry => ?_⟩,
      fun _ => himported.congr hsame⟩
    · rw [Sql.execute_ok hremember]
      exact hgathers.requests
    · refine Imported.congr hsame ?_
      rw [Sql.execute_ok hremember] at hentry
      change ((forgetSource source c₂.db).sourceMessageCache.upsert _ _ _).get? slot = some entry at hentry
      rw [Table.get?_upsert] at hentry
      split_ifs at hentry with hslot
      · have hsource : entry.source = source := by
          rw [← Option.some.inj hentry]
          cases (forgetSource source c₂.db).sourceMessageCache.get? (enc.slot source % 4096) <;> rfl
        exact hsource ▸ himported
      · have hold := (forgetSource_gathers source).cached (hgathers.cached hcached) slot entry hentry
        exact hold.congr rfl

end Writes

theorem conversation_gathers {source : Bytes} {row : Int} {route : Bytes} {value : Conversation} :
    Sql.Yields Gathers (conversation now source row route value origin) := fun _ _ _ h =>
  (conversation_meets h).gathers (conversation_ok h).sends.sendRequests

theorem observeIdentity_gathers {service address : Bytes} :
    Sql.Yields Gathers (observeIdentity now service address) := fun _ _ _ h =>
  (observeIdentity_meets h).1.gathers (observeIdentity_ok h).sends.sendRequests

theorem setProgress_gathers {key : String} {value : Bytes} :
    Sql.Yields Gathers (setProgress key value) :=
  Sql.Yields.execute fun _ => gathers_of_eq rfl rfl rfl

theorem deleteProgress_gathers {key : String} : Sql.Yields Gathers (deleteProgress key) :=
  Sql.Yields.execute fun _ => gathers_of_eq rfl rfl rfl

end Journal

/-- A row with a GUID, joined to a chat of the source. -/
def MessagesDb.joined (db : MessagesDb) (c : MessagesDb.MessageColumns) : Prop :=
  c.guid ≠ [] ∧ c.chatId ≠ 0 ∧ ∃ chat ∈ db.chats, chat.1 = c.chatId

def Chatless (e : PassEnv) (p : Pass) : Prop :=
  ∀ row, (row, none) ∈ p.chats → ∀ chat ∈ e.source.chats, chat.1 ≠ row

/-- What the pass has visited is in its journal. -/
structure Evident (e : PassEnv) (p : Pass) : Prop where
  cached : Cached p.intake.journal
  chats : Chatless e p
  rows : ∀ row ∈ p.rows, ∀ c, e.source.columns row = some c → e.source.joined c →
    Imported p.intake.journal c.guid

structure Brings (e : PassEnv) (p p' : Pass) : Prop where
  gathers : Gathers p.intake.journal p'.intake.journal
  chats : Chatless e p → Chatless e p'
  rows : p'.rows = p.rows

instance (e : PassEnv) : Std.Refl (Brings e) where
  refl p := ⟨Std.Refl.refl p.intake.journal, fun h => h, rfl⟩

instance (e : PassEnv) : IsTrans Pass (Brings e) where
  trans _ _ _ h h' := ⟨IsTrans.trans _ _ _ h.gathers h'.gathers, fun hc => h'.chats (h.chats hc),
    h'.rows.trans h.rows⟩

structure Learning (e : PassEnv) (p p' : Pass) : Prop where
  learns : Learns p.intake.journal p'.intake.journal
  evident : Evident e p → Evident e p'
  visits : ∀ row ∈ p.rows, row ∈ p'.rows

instance (e : PassEnv) : Std.Refl (Learning e) where
  refl _ := ⟨⟨fun _ h => h, fun h => h⟩, fun h => h, fun _ h => h⟩

instance (e : PassEnv) : IsTrans Pass (Learning e) where
  trans _ _ _ h h' := ⟨⟨fun source hs => h'.learns.imported source (h.learns.imported source hs),
    fun hc => h'.learns.cached (h.learns.cached hc)⟩, fun hevident => h'.evident (h.evident hevident),
    fun row hrow => h'.visits row (h.visits row hrow)⟩

structure Gathering (e : PassEnv) (p p' : Pass) : Prop extends Learning e p p' where
  requests : p'.intake.journal.sendRequests = p.intake.journal.sendRequests

instance (e : PassEnv) : Std.Refl (Gathering e) where
  refl p := ⟨Std.Refl.refl p, rfl⟩

instance (e : PassEnv) : IsTrans Pass (Gathering e) where
  trans _ _ _ h h' := ⟨IsTrans.trans _ _ _ h.toLearning h'.toLearning, h'.requests.trans h.requests⟩

section Parts

variable {e : PassEnv} {p p' : Pass}

theorem Evident.of_learns (h : Evident e p) (hl : Learns p.intake.journal p'.intake.journal)
    (hchats : Chatless e p → Chatless e p') (hrows : p'.rows = p.rows) : Evident e p' where
  cached := hl.cached h.cached
  chats := hchats h.chats
  rows row hrow c hc hjoined := by
    rw [hrows] at hrow
    exact hl.imported _ (h.rows row hrow c hc hjoined)

theorem Brings.gathering (h : Brings e p p') : Gathering e p p' where
  learns := h.gathers.learns
  evident hevident := hevident.of_learns h.gathers.learns h.chats h.rows
  visits _ hrow := h.rows ▸ hrow
  requests := h.gathers.requests

variable {α : Type}

theorem onJournal_brings {m : Tx α} (hm : Sql.Yields Gathers m) :
    Sql.Yields (Brings e) (onJournal m) :=
  hm.zoom fun _ _ h => ⟨h, fun hc => hc, rfl⟩

theorem onIntake_brings {m : Sql Error Intake Bytes α} (hm : Sql.Keeps Intake.journal m) :
    Sql.Yields (Brings e) (onIntake m) :=
  (Sql.Yields.of_keeps (R := fun i i' : Intake => i'.journal = i.journal) hm fun _ _ h => h).zoom
    fun p i h => ⟨gathers_of_eq (by rw [h]) (by rw [h]) (by rw [h]), fun hc => hc, rfl⟩

theorem onJournal_learning {m : Tx α} (hm : Sql.Yields Learns m) :
    Sql.Yields (Learning e) (onJournal m) :=
  hm.zoom fun _ _ h => ⟨h, fun hevident => hevident.of_learns h (fun hc => hc) rfl, fun _ h => h⟩

end Parts

namespace Intake

section Import

variable {enc : Encoding} {e : PassEnv} {origin : Origin} {complete : Bool} {row : Int}

theorem publishChat_brings {imported : Int → PassTx (Option Bytes)}
    (himported : ∀ row, Sql.Yields (Brings e) (imported row)) {chat : Option SourceConversation} :
    Sql.Yields (Brings e) (publishChat e imported row origin chat) := by
  cases chat with
  | none => exact Sql.Yields.pure
  | some chat =>
    refine Sql.Yields.bind ?_ fun threadId =>
      Sql.Yields.bind (onJournal_brings conversation_gathers) fun id => Sql.Yields.pure
    unfold threadOf
    cases chat.threadRow with
    | none => exact Sql.Yields.pure
    | some canonical =>
      dsimp only
      split_ifs
      · exact himported canonical
      · exact Sql.Yields.pure

theorem publishChat_some {imported : Int → PassTx (Option Bytes)} {chat : Option SourceConversation}
    {c c' : Conn Pass Bytes}
    (h : (publishChat e imported row origin chat).run c = (.ok none, c')) : chat = none := by
  cases chat with
  | none => rfl
  | some chat =>
    obtain ⟨threadId, c₁, -, h⟩ := Sql.bind_ok h
    obtain ⟨id, c₂, -, h⟩ := Sql.bind_ok h
    exact nomatch (Sql.pure_ok h).1

theorem chat_none (h : e.source.chat row complete = .ok none) :
    ∀ chat ∈ e.source.chats, chat.1 ≠ row := by
  unfold MessagesDb.chat at h
  split at h
  · next hnone =>
    intro chat hchat heq
    exact List.find?_eq_none.mp hnone chat hchat (decide_eq_true heq)
  · next row' chat hchat =>
    cases hdecoded : MessagesDb.decodeChat complete row chat with
    | error err =>
      rw [hdecoded] at h
      exact nomatch h
    | ok found =>
      rw [hdecoded] at h
      exact nomatch Except.ok.inj h

theorem importChat_brings {fuel : Nat} :
    Sql.Yields (Brings e) (importChat e fuel row origin complete) := by
  induction fuel generalizing row with
  | zero => exact Sql.Yields.throw
  | succ fuel ih =>
    intro c result c' h
    obtain ⟨cached, c₁, hpeek, h⟩ := Sql.bind_ok h
    rw [(Sql.peek_ok hpeek).2] at h
    cases cached with
    | some r =>
      rw [(Sql.pure_ok h).2]
      exact Std.Refl.refl c.db
    | none =>
      obtain ⟨chat, c₂, hchat, h⟩ := Sql.bind_ok h
      obtain ⟨hchat, hc₂⟩ := Sql.lift_ok hchat
      obtain ⟨published, c₃, hpublish, h⟩ := Sql.bind_ok h
      obtain ⟨u, c₄, hnote, h⟩ := Sql.bind_ok h
      have hbrings := publishChat_brings (fun _ => ih) _ _ _ hpublish
      rw [hc₂] at hbrings
      rw [(Sql.pure_ok h).2, Sql.note_ok hnote]
      refine ⟨hbrings.gathers, fun hchats row' hmem => ?_, hbrings.rows⟩
      rcases List.mem_cons.mp hmem with hnew | hold
      · rw [Prod.mk.injEq] at hnew
        rw [← hnew.2] at hpublish
        rw [publishChat_some hpublish] at hchat
        exact hnew.1 ▸ chat_none hchat
      · exact hbrings.chats hchats row' hold

theorem importChat_some {fuel : Nat} {c c' : Conn Pass Bytes} (hchats : Chatless e c.db)
    (hknown : ∃ chat ∈ e.source.chats, chat.1 = row) {result : Option Bytes}
    (h : (importChat e fuel row origin complete).run c = (.ok result, c')) :
    ∃ cid, result = some cid := by
  obtain ⟨known, hmem, hrow⟩ := hknown
  cases fuel with
  | zero => exact (Sql.throw_ok h).elim
  | succ fuel =>
    obtain ⟨cached, c₁, hpeek, h⟩ := Sql.bind_ok h
    obtain ⟨hcached, -⟩ := Sql.peek_ok hpeek
    cases cached with
    | some r =>
      obtain ⟨row', result'⟩ := r
      rw [(Sql.pure_ok h).1]
      cases result' with
      | some cid => exact ⟨cid, rfl⟩
      | none =>
        have hsame : row' = row := by simpa using List.find?_some hcached.symm
        exact absurd hrow (hchats row (hsame ▸ List.mem_of_find?_eq_some hcached.symm) known hmem)
    | none =>
      obtain ⟨chat, c₂, hchat, h⟩ := Sql.bind_ok h
      obtain ⟨published, c₃, hpublish, h⟩ := Sql.bind_ok h
      obtain ⟨u, c₄, hnote, h⟩ := Sql.bind_ok h
      rw [(Sql.pure_ok h).1]
      cases published with
      | some cid => exact ⟨cid, rfl⟩
      | none =>
        rw [publishChat_some hpublish] at hchat
        exact absurd hrow (chat_none (Sql.lift_ok hchat).1 known hmem)

theorem rememberRow_brings {m : SourceMessage} {remembered : Option Origin} :
    Sql.Yields (Brings e) (rememberRow e row m origin remembered) := by
  unfold rememberRow
  split_ifs
  · exact Sql.Yields.bind (onJournal_brings setProgress_gathers) fun _ =>
      onIntake_brings (Sql.Keeps.execute fun _ => rfl)
  · exact Sql.Yields.bind (onJournal_brings Sql.Yields.pure) fun _ =>
      onIntake_brings (Sql.Keeps.execute fun _ => rfl)
  · exact onIntake_brings (Sql.Keeps.execute fun _ => rfl)

theorem rememberedOrigin_brings : Sql.Yields (Brings e) (rememberedOrigin row) := by
  refine Sql.Yields.bind (onJournal_brings (Sql.Yields.of_reads (progress_reads _))) fun stored => ?_
  cases stored with
  | none => exact Sql.Yields.pure
  | some s => exact Sql.Yields.bind Sql.Yields.orThrow fun _ => Sql.Yields.pure

theorem position_brings {key : String} : Sql.Yields (Brings e) (onJournal (position key)) :=
  onJournal_brings (Sql.Yields.of_reads (position_reads _))

theorem eventOrigin_brings {m : SourceMessage} {remembered : Option Origin} :
    Sql.Yields (Brings e) (eventOrigin row m origin remembered) := by
  cases remembered with
  | some o => exact Sql.Yields.pure
  | none =>
    refine Sql.Yields.bind ?_ fun origin => Sql.Yields.bind Sql.Yields.peek fun rebased => ?_
    · unfold discoveredOrigin
      split_ifs
      · exact Sql.Yields.bind position_brings fun live => Sql.Yields.pure
      · exact Sql.Yields.pure
    · split_ifs
      · exact Sql.Yields.bind (onJournal_brings Sql.Yields.query) fun known => Sql.Yields.pure
      · exact Sql.Yields.pure

end Import

section Rows

variable {enc : Encoding} {e : PassEnv} {origin : Origin} {complete : Bool} {row : Int}
  {c c' : Conn Pass Bytes} {u : Unit}

theorem publishRow_brings {m : SourceMessage} {cid : Bytes}
    (h : (publishRow enc e row m origin cid).run c = (.ok u, c')) :
    Brings e c.db c'.db ∧ (Cached c.db.intake.journal → Imported c'.db.intake.journal m.source) := by
  obtain ⟨j, c₁, hpeek, h⟩ := Sql.bind_ok h
  rw [(Sql.peek_ok hpeek).2] at h
  obtain ⟨_, c₂, hobserve, h⟩ := Sql.bind_ok h
  have hobserve : Brings e c.db c₂.db := by
    have hyields : Sql.Yields (Brings e) (observeReaction m) := by
      unfold observeReaction
      split_ifs
      · exact onIntake_brings (Sql.Keeps.execute fun _ => rfl)
      · exact Sql.Yields.pure
    exact hyields _ _ _ hobserve
  obtain ⟨_, c₃, hmessage, h⟩ := Sql.bind_ok h
  obtain ⟨d, hrun, hdb, -⟩ := Sql.zoom_ok hmessage
  obtain ⟨hgathers, himported⟩ := sourceMessage_gathers hrun
  have hmessage : Brings e c₂.db c₃.db := by
    rw [hdb]
    exact ⟨hgathers, fun hc => hc, rfl⟩
  have hrest : Brings e c₃.db c'.db := by
    refine Sql.Yields.bind (Sql.Yields.note fun p => ?_) (fun _ => Sql.Yields.bind ?_ fun _ => ?_)
      _ _ _ h
    · exact ⟨Std.Refl.refl p.intake.journal, fun hc => hc, rfl⟩
    · unfold anchorRow
      split_ifs
      · exact onIntake_brings (Sql.Keeps.execute fun _ => rfl)
      · exact Sql.Yields.pure
    · split_ifs
      · exact onJournal_brings Sql.Yields.pure
      · exact onJournal_brings deleteProgress_gathers
  refine ⟨IsTrans.trans _ _ _ hobserve (IsTrans.trans _ _ _ hmessage hrest), fun hcached => ?_⟩
  refine hrest.gathers.imported _ ?_
  rw [hdb]
  exact himported (hobserve.gathers.cached hcached)

theorem importMessage_brings {m : SourceMessage}
    (h : (importMessage enc e row origin complete m).run c = (.ok u, c')) :
    Brings e c.db c'.db ∧ (Cached c.db.intake.journal → Chatless e c.db → m.source ≠ [] →
      m.chatRow ≠ 0 → (∃ chat ∈ e.source.chats, chat.1 = m.chatRow) →
      Imported c'.db.intake.journal m.source) := by
  obtain ⟨remembered, c₁, hremembered, h⟩ := Sql.bind_ok h
  obtain ⟨origin', c₂, horigin, h⟩ := Sql.bind_ok h
  obtain ⟨_, c₃, hremember, h⟩ := Sql.bind_ok h
  have hopened : Brings e c.db c₃.db :=
    IsTrans.trans _ _ _ (rememberedOrigin_brings _ _ _ hremembered)
      (IsTrans.trans _ _ _ (eventOrigin_brings _ _ _ horigin) (rememberRow_brings _ _ _ hremember))
  split_ifs at h with hincomplete
  · rw [(Sql.pure_ok h).2]
    exact ⟨hopened, fun _ _ hsource hchat => absurd hincomplete (by simp [hsource, hchat])⟩
  · obtain ⟨cid, c₄, hchat, h⟩ := Sql.bind_ok h
    have hbrings : Brings e c.db c₄.db :=
      IsTrans.trans _ _ _ hopened (importChat_brings _ _ _ hchat)
    cases cid with
    | none =>
      rw [(Sql.pure_ok h).2]
      refine ⟨hbrings, fun _ hchats _ _ hknown => ?_⟩
      obtain ⟨cid, hcid⟩ := importChat_some (hopened.chats hchats) hknown hchat
      exact nomatch hcid
    | some cid =>
      obtain ⟨hpublish, himported⟩ := publishRow_brings h
      exact ⟨IsTrans.trans _ _ _ hbrings hpublish,
        fun hcached _ _ _ _ => himported (hbrings.gathers.cached hcached)⟩

theorem importRow_gathering : Sql.Yields (Gathering e) (importRow enc e row origin complete) := by
  intro c u c' h
  have hvisits (row' : Int) (hrow : row' ∈ c.db.rows) : row' ∈ c'.db.rows :=
    (importRow_rows h row').mpr (Or.inr hrow)
  obtain ⟨seen, c₁, hpeek, h⟩ := Sql.bind_ok h
  rw [(Sql.peek_ok hpeek).2] at h
  split_ifs at h
  · rw [(Sql.pure_ok h).2]
    exact Std.Refl.refl c.db
  · obtain ⟨_, c₂, hnote, h⟩ := Sql.bind_ok h
    obtain ⟨message, c₃, hmessage, h⟩ := Sql.bind_ok h
    obtain ⟨hmessage, hc₃⟩ := Sql.lift_ok hmessage
    rw [hc₃, Sql.note_ok hnote] at h
    cases message with
    | none =>
      have hyields : Sql.Yields (Brings e) (onIntake (Sql.execute fun i =>
          { i with pendingSource := i.pendingSource.deleteWhere fun r _ => r = row })) :=
        onIntake_brings (Sql.Keeps.execute fun _ => rfl)
      have hbrings := hyields _ _ _ h
      refine ⟨⟨hbrings.gathers.learns, fun hevident => ⟨hbrings.gathers.cached hevident.cached,
        hbrings.chats hevident.chats, fun row' hrow c hc hjoined => ?_⟩, hvisits⟩,
        hbrings.gathers.requests⟩
      rw [hbrings.rows] at hrow
      rcases List.mem_cons.mp hrow with rfl | hrow
      · simp only [MessagesDb.message, hc] at hmessage
        cases hdecoded : MessagesDb.decodeMessage e.decoders e.source.features row' c with
        | error err =>
          rw [hdecoded] at hmessage
          exact nomatch hmessage
        | ok m =>
          rw [hdecoded] at hmessage
          exact nomatch Except.ok.inj hmessage
      · exact hbrings.gathers.imported _ (hevident.rows row' hrow c hc hjoined)
    | some m =>
      obtain ⟨hbrings, himported⟩ := importMessage_brings h
      obtain ⟨columns, hcolumns, -, hsource, hchat⟩ := message_some hmessage
      refine ⟨⟨hbrings.gathers.learns, fun hevident => ⟨hbrings.gathers.cached hevident.cached,
        hbrings.chats hevident.chats, fun row' hrow c hc hjoined => ?_⟩, hvisits⟩,
        hbrings.gathers.requests⟩
      rw [hbrings.rows] at hrow
      rcases List.mem_cons.mp hrow with rfl | hrow
      · rw [hcolumns, Option.some.injEq] at hc
        rw [← hc, MessagesDb.joined, ← hsource, ← hchat] at hjoined
        rw [← hc, ← hsource]
        exact himported hevident.cached hevident.chats hjoined.1 hjoined.2.1 hjoined.2.2
      · exact hbrings.gathers.imported _ (hevident.rows row' hrow c hc hjoined)

end Rows

end Intake

end Zimbr.Relay
