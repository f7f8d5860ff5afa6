import Zimbr.Relay.Backdrop

set_option autoImplicit false

/-!
# What one pass does to its cursors

Importing rows marks them and leaves the cursors alone; only the scans move
their own cursor, each by what its page visits.
-/
namespace Zimbr.Relay
open Library

def Pass.cursor (key : String) (p : Pass) : Bytes × Option Bytes :=
  (p.intake.journal.epoch, p.intake.journal.ingestionProgress.get? key)

def Apart (key : String) : Prop := ∀ row, key ≠ Intake.originKey row

/-- Every key that is not of the form `pending:…`. -/
theorem apart_of_head {key : String} (h : key.toList.head? ≠ some 'p') : Apart key := by
  intro row hkey
  rw [hkey, Intake.originKey, String.toList_append] at h
  exact h rfl

section Keeps

variable {α : Type} {key : String}

theorem onJournal_rows (m : Tx α) : Sql.Keeps Pass.rows (onJournal m) := fun _ => rfl

theorem onIntake_rows (m : Sql Error Intake Bytes α) : Sql.Keeps Pass.rows (onIntake m) :=
  fun _ => rfl

theorem onJournal_cursor {m : Tx α} (hm : Sql.Keeps backdrop m) :
    Sql.Keeps (Pass.cursor key) (onJournal m) := by
  refine Sql.Keeps.zoom (g := Pass.cursor key) hm fun p j h => ?_
  obtain ⟨hepoch, hprogress⟩ := Prod.mk.inj h
  unfold Pass.cursor
  rw [← hepoch, ← hprogress]

theorem position_keeps {k : String} : Sql.Keeps backdrop (position k) := by
  refine Sql.Keeps.bind Sql.Keeps.query fun value => ?_
  cases value with
  | none => exact Sql.Keeps.pure
  | some s => exact Sql.Keeps.orThrow

theorem onIntake_cursor {m : Sql Error Intake Bytes α} (hm : Sql.Keeps Intake.journal m) :
    Sql.Keeps (Pass.cursor key) (onIntake m) := by
  refine Sql.Keeps.zoom (g := Pass.cursor key) hm fun p i h => ?_
  unfold Pass.cursor
  rw [h]

theorem setProgress_cursor {k : String} {value : Bytes} (h : key ≠ k) :
    Sql.Keeps (Pass.cursor key) (onJournal (setProgress k value)) := by
  have hkeeps : Sql.Keeps (fun j : Journal => (j.epoch, j.ingestionProgress.get? key))
      (setProgress k value) := by
    refine Sql.Keeps.execute fun j => ?_
    dsimp only
    rw [Table.get?_upsert, if_neg h]
  exact hkeeps.zoom fun p j h => h

theorem deleteProgress_cursor {k : String} (h : key ≠ k) :
    Sql.Keeps (Pass.cursor key) (onJournal (deleteProgress k)) := by
  have hkeeps : Sql.Keeps (fun j : Journal => (j.epoch, j.ingestionProgress.get? key))
      (deleteProgress k) := by
    refine Sql.Keeps.execute fun j => ?_
    dsimp only
    rw [Table.get?_deleteWhere]
    cases j.ingestionProgress.get? key with
    | none => rfl
    | some v => simp [Option.filter, h]
  exact hkeeps.zoom fun p j h => h

end Keeps

def Anchored (Q : Int → Bytes → Prop) (t : Table Int Bytes) : Prop :=
  ∀ row guid, t.get? row = some guid → Q row guid

/-- A view of the pass that importing a conversation leaves as it is. -/
structure Beside {ω : Type} (f : Pass → ω) : Prop where
  journal : ∀ {α : Type} {m : Tx α}, Sql.Keeps backdrop m → Sql.Keeps f (onJournal m)
  chats : ∀ p chats, f { p with chats := chats } = f p
  published : ∀ p published, f { p with published := published } = f p

structure Neutral {ω : Type} (f : Pass → ω) : Prop extends Beside f where
  intake : ∀ {m : Sql Error Intake Bytes Unit}, Sql.Keeps Intake.journal m →
    Sql.Keeps f (onIntake m)
  remembered : ∀ row value, Sql.Keeps f (onJournal (setProgress (Intake.originKey row) value))
  forgotten : ∀ row, Sql.Keeps f (onJournal (deleteProgress (Intake.originKey row)))

theorem neutral_cursor {key : String} (hkey : Apart key) : Neutral (Pass.cursor key) where
  journal := onJournal_cursor
  intake := onIntake_cursor
  remembered row _ := setProgress_cursor (hkey row)
  forgotten row := deleteProgress_cursor (hkey row)
  chats _ _ := rfl
  published _ _ := rfl

theorem neutral_rows : Neutral Pass.rows where
  journal _ := onJournal_rows _
  intake _ := onIntake_rows _
  remembered _ _ := onJournal_rows _
  forgotten _ := onJournal_rows _
  chats _ _ := rfl
  published _ _ := rfl

theorem neutral_reason : Neutral Pass.resetReason where
  journal _ := fun _ => rfl
  intake _ := fun _ => rfl
  remembered _ _ := fun _ => rfl
  forgotten _ := fun _ => rfl
  chats _ _ := rfl
  published _ _ := rfl

namespace Intake

section Import

variable {enc : Encoding} {e : PassEnv} {origin : Origin} {complete : Bool} {row : Int}
  {ω : Type} {f : Pass → ω}

theorem publishChat_keeps (hf : Beside f) {imported : Int → PassTx (Option Bytes)}
    (himported : ∀ row, Sql.Keeps f (imported row)) {chat : Option SourceConversation} :
    Sql.Keeps f (publishChat e imported row origin chat) := by
  cases chat with
  | none => exact Sql.Keeps.pure
  | some chat =>
    refine Sql.Keeps.bind ?_ fun threadId =>
      Sql.Keeps.bind (hf.journal conversation_keeps) fun id => Sql.Keeps.pure
    unfold threadOf
    cases chat.threadRow with
    | none => exact Sql.Keeps.pure
    | some canonical =>
      dsimp only
      split_ifs
      · exact himported canonical
      · exact Sql.Keeps.pure

theorem importChat_keeps (hf : Beside f) {fuel : Nat} :
    Sql.Keeps f (importChat e fuel row origin complete) := by
  induction fuel generalizing row with
  | zero => exact Sql.Keeps.throw
  | succ fuel ih =>
    refine Sql.Keeps.bind Sql.Keeps.peek fun cached => ?_
    cases cached with
    | some r => exact Sql.Keeps.pure
    | none =>
      exact Sql.Keeps.bind Sql.Keeps.lift fun chat =>
        Sql.Keeps.bind (publishChat_keeps hf fun row => ih) fun result =>
        Sql.Keeps.bind (Sql.Keeps.note fun p => hf.chats p _) fun _ => Sql.Keeps.pure

theorem eventOrigin_keeps (hf : Beside f) {m : SourceMessage} {remembered : Option Origin} :
    Sql.Keeps f (eventOrigin row m origin remembered) := by
  cases remembered with
  | some o => exact Sql.Keeps.pure
  | none =>
    refine Sql.Keeps.bind ?_ fun origin => Sql.Keeps.bind Sql.Keeps.peek fun rebased => ?_
    · unfold discoveredOrigin
      split_ifs
      · exact Sql.Keeps.bind (hf.journal position_keeps) fun live => Sql.Keeps.pure
      · exact Sql.Keeps.pure
    · split_ifs
      · exact Sql.Keeps.bind (hf.journal Sql.Keeps.query) fun known => Sql.Keeps.pure
      · exact Sql.Keeps.pure

theorem rememberedOrigin_keeps (hf : Beside f) : Sql.Keeps f (rememberedOrigin row) := by
  refine Sql.Keeps.bind (hf.journal Sql.Keeps.query) fun stored => ?_
  cases stored with
  | none => exact Sql.Keeps.pure
  | some s => exact Sql.Keeps.bind Sql.Keeps.orThrow fun _ => Sql.Keeps.pure

theorem rememberRow_keeps (hf : Neutral f) {m : SourceMessage} {remembered : Option Origin} :
    Sql.Keeps f (rememberRow e row m origin remembered) := by
  unfold rememberRow
  split_ifs
  · exact Sql.Keeps.bind (hf.remembered row _) fun _ =>
      hf.intake (Sql.Keeps.execute fun _ => rfl)
  · exact Sql.Keeps.bind (hf.journal Sql.Keeps.pure) fun _ =>
      hf.intake (Sql.Keeps.execute fun _ => rfl)
  · exact hf.intake (Sql.Keeps.execute fun _ => rfl)

theorem publishRow_keeps (hf : Neutral f) {m : SourceMessage} {cid : Bytes} :
    Sql.Keeps f (publishRow enc e row m origin cid) := by
  refine Sql.Keeps.bind Sql.Keeps.peek fun j => Sql.Keeps.bind ?_ fun _ =>
    Sql.Keeps.bind (hf.journal sourceMessage_keeps) fun _ =>
    Sql.Keeps.bind (Sql.Keeps.note fun p => hf.published p _) fun _ => Sql.Keeps.bind ?_ fun _ => ?_
  · unfold observeReaction
    split_ifs
    · exact hf.intake (Sql.Keeps.execute fun _ => rfl)
    · exact Sql.Keeps.pure
  · unfold anchorRow
    split_ifs
    · exact hf.intake (Sql.Keeps.execute fun _ => rfl)
    · exact Sql.Keeps.pure
  · split_ifs
    · exact hf.journal Sql.Keeps.pure
    · exact hf.forgotten row

theorem importMessage_keeps (hf : Neutral f) {m : SourceMessage} :
    Sql.Keeps f (importMessage enc e row origin complete m) := by
  refine Sql.Keeps.bind (rememberedOrigin_keeps hf.toBeside) fun remembered =>
    Sql.Keeps.bind (eventOrigin_keeps hf.toBeside) fun origin =>
    Sql.Keeps.bind (rememberRow_keeps hf) fun _ => ?_
  split_ifs
  · exact Sql.Keeps.pure
  · refine Sql.Keeps.bind (importChat_keeps hf.toBeside) fun cid => ?_
    cases cid with
    | none => exact Sql.Keeps.pure
    | some cid => exact publishRow_keeps hf

theorem importRow_keeps (hf : Neutral f) (hrows : ∀ p rows, f { p with rows := rows } = f p) :
    Sql.Keeps f (importRow enc e row origin complete) := by
  refine Sql.Keeps.bind Sql.Keeps.peek fun seen => ?_
  split_ifs
  · exact Sql.Keeps.pure
  · refine Sql.Keeps.bind (Sql.Keeps.note fun p => hrows p _) fun _ =>
      Sql.Keeps.bind Sql.Keeps.lift fun message => ?_
    cases message with
    | none => exact hf.intake (Sql.Keeps.execute fun _ => rfl)
    | some m => exact importMessage_keeps hf

theorem importRow_rows {c c' : Conn Pass Bytes} {u : Unit}
    (h : (importRow enc e row origin complete).run c = (.ok u, c')) (r : Int) :
    r ∈ c'.db.rows ↔ r = row ∨ r ∈ c.db.rows := by
  obtain ⟨seen, c₁, hseen, h⟩ := Sql.bind_ok h
  obtain ⟨rfl, rfl⟩ := Sql.peek_ok hseen
  split_ifs at h with hmem
  · have hmem : row ∈ c₁.db.rows := of_decide_eq_true hmem
    rw [(Sql.pure_ok h).2]
    exact ⟨Or.inr, fun hr => hr.elim (fun heq => heq ▸ hmem) fun hr => hr⟩
  · obtain ⟨_, c₂, hnote, h⟩ := Sql.bind_ok h
    obtain ⟨message, c₃, hlift, h⟩ := Sql.bind_ok h
    have hrows : c'.db.rows = c₃.db.rows := by
      cases message with
      | none => exact (onIntake_rows _).run h
      | some m => exact (importMessage_keeps neutral_rows).run h
    rw [hrows, (Sql.lift_ok hlift).2, Sql.note_ok hnote]
    exact List.mem_cons

theorem importRow_visits {r : Int} :
    Sql.Stays (fun p => r ∈ p.rows) (importRow enc e row origin complete) := by
  refine Sql.Stays.bind (fun c hc => hc) fun seen => ?_
  split_ifs
  · exact fun c hc => hc
  · refine Sql.Stays.bind (fun c hc => List.mem_cons_of_mem row hc) fun _ =>
      Sql.Stays.of_keeps (f := Pass.rows) (Sql.Keeps.bind Sql.Keeps.lift fun message => ?_)
        fun s s' hs h => hs ▸ h
    cases message with
    | none => exact onIntake_rows _
    | some m => exact importMessage_keeps neutral_rows

end Import

section Scans

variable {enc : Encoding} {e : PassEnv} {origin : Origin} {complete : Bool} {rows : List Int}
  {key : String}

theorem importRows_cursor (hkey : Apart key) :
    Sql.Keeps (Pass.cursor key) (importRows enc e rows origin complete) :=
  Sql.Keeps.each fun _ _ => importRow_keeps (neutral_cursor hkey) fun _ _ => rfl

theorem importRows_visits {r : Int} :
    Sql.Stays (fun p => r ∈ p.rows) (importRows enc e rows origin complete) :=
  Sql.Stays.each fun _ _ => importRow_visits

theorem importRows_rows {c c' : Conn Pass Bytes} {u : Unit}
    (h : (importRows enc e rows origin complete).run c = (.ok u, c')) {r : Int} (hr : r ∈ rows) :
    r ∈ c'.db.rows := by
  induction rows generalizing c with
  | nil => exact absurd hr List.not_mem_nil
  | cons row rest ih =>
    obtain ⟨_, c₁, hrow, hrest⟩ := Sql.bind_ok h
    rcases List.mem_cons.mp hr with rfl | hr
    · exact importRows_visits.run hrest ((importRow_rows hrow r).mpr (Or.inl rfl))
    · exact ih hrest hr

end Scans

section Anchored

variable {enc : Encoding} {e : PassEnv} {origin : Origin} {complete : Bool} {row : Int}
  {Q : Int → Bytes → Prop}

theorem anchored_insert {t t' : Table Int Bytes} {guid : Bytes} (h : t.insert row guid = some t')
    (ht : Anchored Q t) (hrow : Q row guid) : Anchored Q t' := by
  intro r g hget
  rw [Table.get?_insert h] at hget
  split_ifs at hget with hr
  · rw [hr, ← Option.some.inj hget]
    exact hrow
  · exact ht r g hget

theorem anchored_deleteWhere {t : Table Int Bytes} {p : Int → Bytes → Bool} (ht : Anchored Q t) :
    Anchored Q (t.deleteWhere p) := by
  intro r g hget
  rw [Table.get?_deleteWhere, Option.filter_eq_some_iff] at hget
  exact ht r g hget.1

theorem anchored_anchor {t : Table Int Bytes} {guid : Bytes} (ht : Anchored Q t)
    (hrow : Q row guid) : Anchored Q (Anchors.anchor guid row t) := by
  unfold Anchors.anchor
  split
  · split_ifs
    · exact ht
    · next old _ _ _ =>
      intro r g hget
      rw [Table.get?_upsert] at hget
      split_ifs at hget with hr
      · next hkept =>
        rw [Bool.or_eq_true, not_or] at hkept
        have hnone : (t.deleteWhere fun r _ => decide (r = old)).get? row = none := by
          rw [Table.get?_deleteWhere]
          have habsent : t.get? row = none := by simpa [Table.contains] using hkept.2
          rw [habsent]
          rfl
        rw [hnone] at hget
        rw [hr, ← Option.some.inj hget]
        exact hrow
      · exact anchored_deleteWhere ht r g hget
  · cases hinsert : t.insert row guid with
    | none => exact ht
    | some t' => exact anchored_insert hinsert ht hrow

theorem onJournal_anchored {α : Type} {m : Tx α} :
    Sql.Stays (fun p => Anchored Q p.intake.ordinaryAnchors) (onJournal m) := fun _ hc => hc

theorem onIntake_anchored {f : Intake → Intake}
    (hf : ∀ i, Anchored Q i.ordinaryAnchors → Anchored Q (f i).ordinaryAnchors) :
    Sql.Stays (fun p => Anchored Q p.intake.ordinaryAnchors)
      (onIntake (Sql.execute f : Sql Error Intake Bytes Unit)) := by
  intro c hc
  simp only [onIntake, Sql.zoom, Sql.execute, Sql.statement]
  split
  · exact hc
  · exact hf _ hc

theorem query_anchored {α : Type} {f : Intake → α} :
    Sql.Stays (fun p => Anchored Q p.intake.ordinaryAnchors)
      (onIntake (Sql.query f : Sql Error Intake Bytes α)) := by
  intro c hc
  simp only [onIntake, Sql.zoom, Sql.query, Sql.statement]
  split <;> exact hc

theorem beside_anchors : Beside fun p => p.intake.ordinaryAnchors :=
  ⟨fun _ _ => rfl, fun _ _ => rfl, fun _ _ => rfl⟩

/-- A computation that keeps the anchors keeps what they have in common. -/
theorem stays_anchored {α : Type} {m : PassTx α}
    (hm : Sql.Keeps (fun p => p.intake.ordinaryAnchors) m) :
    Sql.Stays (fun p => Anchored Q p.intake.ordinaryAnchors) m :=
  Sql.Stays.of_keeps hm fun _ _ hs h => hs ▸ h

theorem importMessage_anchored {m : SourceMessage} (hm : m.source ≠ [] → Q m.row m.source) :
    Sql.Stays (fun p => Anchored Q p.intake.ordinaryAnchors)
      (importMessage enc e row origin complete m) := by
  refine (stays_anchored (rememberedOrigin_keeps beside_anchors)).bind fun remembered =>
    (stays_anchored (eventOrigin_keeps beside_anchors)).bind fun origin => Sql.Stays.bind ?_ fun _ => ?_
  · unfold rememberRow
    split_ifs
    · exact onJournal_anchored.bind fun _ => onIntake_anchored fun _ hi => hi
    · exact onJournal_anchored.bind fun _ => onIntake_anchored fun _ hi => hi
    · exact onIntake_anchored fun _ hi => hi
  · split_ifs with hskip
    · exact fun c hc => hc
    · have hsource : m.source ≠ [] := fun hnil => hskip (by simp [hnil])
      refine (stays_anchored (importChat_keeps beside_anchors)).bind fun cid => ?_
      cases cid with
      | none => exact fun c hc => hc
      | some cid =>
        refine Sql.Stays.bind (fun c hc => hc) fun j => Sql.Stays.bind ?_ fun _ =>
          onJournal_anchored.bind fun _ => Sql.Stays.bind (fun c hc => hc) fun _ =>
          Sql.Stays.bind ?_ fun _ => onJournal_anchored
        · unfold observeReaction
          split_ifs
          · exact onIntake_anchored fun _ hi => hi
          · exact fun c hc => hc
        · unfold anchorRow
          split_ifs
          · exact onIntake_anchored fun _ hi => anchored_anchor hi (hm hsource)
          · exact fun c hc => hc

theorem message_some {d : Decoders} {db : MessagesDb} {m : SourceMessage}
    (h : db.message d row = .ok (some m)) :
    ∃ c, db.columns row = some c ∧ m.row = row ∧ m.source = c.guid ∧ m.chatRow = c.chatId := by
  unfold MessagesDb.message at h
  cases hcolumns : db.columns row with
  | none =>
    rw [hcolumns] at h
    exact nomatch h
  | some c =>
    simp only [hcolumns, MessagesDb.decodeMessage] at h
    cases htimestamp : MessagesDb.timestamp c.date with
    | error err =>
      rw [htimestamp] at h
      exact nomatch h
    | ok timestamp =>
      rw [htimestamp] at h
      have hm := Option.some.inj (Except.ok.inj h)
      exact ⟨c, rfl, by rw [← hm], by rw [← hm], by rw [← hm]⟩

def Admits (Q : Int → Bytes → Prop) (db : MessagesDb) : Prop :=
  ∀ row c, db.columns row = some c → c.guid ≠ [] → Q row c.guid

theorem importRow_anchored (hQ : Admits Q e.source) :
    Sql.Stays (fun p => Anchored Q p.intake.ordinaryAnchors)
      (importRow enc e row origin complete) := by
  refine Sql.Stays.bind (fun c hc => hc) fun seen => ?_
  split_ifs
  · exact fun c hc => hc
  · refine Sql.Stays.bind (fun c hc => hc) fun _ => Sql.Stays.lift fun message hmessage => ?_
    cases message with
    | none => exact onIntake_anchored fun _ hi => hi
    | some m =>
      refine importMessage_anchored fun hsource => ?_
      obtain ⟨c, hcolumns, hrow, hguid, -⟩ := message_some hmessage
      rw [hrow, hguid]
      exact hQ row c hcolumns (hguid ▸ hsource)

end Anchored

section Scans

variable {enc : Encoding} {e : PassEnv} {origin : Origin} {complete : Bool} {rows : List Int}
  {Q : Int → Bytes → Prop} {owned : List String} {α β : Type}

/-- A step of the pass moves none of the cursors it does not own, forgets no
visited row, keeps what the anchors have in common, and does not reset. -/
structure Frames (Q : Int → Bytes → Prop) (owned : List String) (m : PassTx α) : Prop where
  cursor : ∀ key, Apart key → key ∉ owned → Sql.Keeps (Pass.cursor key) m
  reason : Sql.Keeps Pass.resetReason m
  visits : ∀ r, Sql.Stays (fun p => r ∈ p.rows) m
  anchored : Sql.Stays (fun p => Anchored Q p.intake.ordinaryAnchors) m

theorem Frames.bind {m : PassTx α} {k : α → PassTx β} (hm : Frames Q owned m)
    (hk : ∀ a, Frames Q owned (k a)) : Frames Q owned (m >>= k) :=
  ⟨fun key hkey hnew => (hm.cursor key hkey hnew).bind fun a => (hk a).cursor key hkey hnew,
    hm.reason.bind fun a => (hk a).reason, fun r => (hm.visits r).bind fun a => (hk a).visits r,
    hm.anchored.bind fun a => (hk a).anchored⟩

theorem Frames.pure {a : α} : Frames Q owned (Pure.pure a : PassTx α) :=
  ⟨fun _ _ _ => Sql.Keeps.pure, Sql.Keeps.pure, fun _ _ hc => hc, fun _ hc => hc⟩

theorem Frames.each {k : α → PassTx Unit} {items : List α} (hk : ∀ a, Frames Q owned (k a)) :
    Frames Q owned (Sql.each k items) :=
  ⟨fun key hkey hnew => Sql.Keeps.each fun a _ => (hk a).cursor key hkey hnew,
    Sql.Keeps.each fun a _ => (hk a).reason, fun r => Sql.Stays.each fun a _ => (hk a).visits r,
      Sql.Stays.each fun a _ => (hk a).anchored⟩

theorem frames_onJournal {m : Tx α} (hm : Sql.Keeps backdrop m) : Frames Q owned (onJournal m) :=
  ⟨fun _ _ _ => onJournal_cursor hm, fun _ => rfl, fun _ _ hc => hc, onJournal_anchored⟩

theorem frames_query {f : Intake → α} : Frames Q owned (onIntake (Sql.query f)) :=
  ⟨fun _ _ _ => onIntake_cursor Sql.Keeps.query, fun _ => rfl, fun _ _ hc => hc, query_anchored⟩

theorem frames_onIntake {f : Intake → Intake} (hf : ∀ i, (f i).journal = i.journal)
    (hanchors : ∀ i, Anchored Q i.ordinaryAnchors → Anchored Q (f i).ordinaryAnchors) :
    Frames Q owned (onIntake (Sql.execute f)) :=
  ⟨fun _ _ _ => onIntake_cursor (Sql.Keeps.execute hf), fun _ => rfl, fun _ _ hc => hc,
    onIntake_anchored hanchors⟩

theorem frames_setProgress {k : String} {value : Bytes} (hk : k ∈ owned) :
    Frames Q owned (onJournal (setProgress k value)) :=
  ⟨fun _ _ hnew => setProgress_cursor fun heq => hnew (heq ▸ hk), fun _ => rfl,
    fun _ _ hc => hc, onJournal_anchored⟩

theorem frames_importChat {fuel : Nat} {row : Int} :
    Frames Q owned (importChat e fuel row origin complete) :=
  ⟨fun _ hkey _ => importChat_keeps (neutral_cursor hkey).toBeside,
    importChat_keeps neutral_reason.toBeside, fun _ =>
    Sql.Stays.of_keeps (importChat_keeps neutral_rows.toBeside) fun _ _ hs h => hs ▸ h,
    stays_anchored (importChat_keeps beside_anchors)⟩

theorem rewrite_keeps {change : Bytes × (Message → Message)} :
    Sql.Keeps backdrop (rewrite enc e change) := by
  refine Sql.Keeps.bind Sql.Keeps.query fun found => ?_
  split
  · exact Sql.Keeps.pure
  · exact message_keeps

theorem frames_backfillIdentities :
    Frames Q ["identity_backfill_v1"] (onJournal (backfillIdentities e)) := by
  refine ⟨fun key _ hnew => ?_, fun _ => rfl, fun _ _ hc => hc, onJournal_anchored⟩
  have hidentity {service address : Bytes} :
      Sql.Keeps (fun j : Journal => (j.epoch, j.ingestionProgress.get? key))
        (observeIdentity e.now service address) := by
    refine observeIdentity_keeps.mono fun j j' h => ?_
    obtain ⟨hepoch, hprogress⟩ := Prod.mk.inj h
    rw [hepoch, hprogress]
  have hkeeps : Sql.Keeps (fun j : Journal => (j.epoch, j.ingestionProgress.get? key))
      (backfillIdentities e) := by
    refine Sql.Keeps.bind Sql.Keeps.query fun stored => ?_
    dsimp only
    split_ifs
    · exact Sql.Keeps.pure
    · refine Sql.Keeps.bind Sql.Keeps.query fun rows => Sql.Keeps.bind (Sql.Keeps.each fun r _ => ?_)
        fun _ => Sql.Keeps.execute fun j => ?_
      · split_ifs
        · exact Sql.Keeps.bind hidentity fun _ => Sql.Keeps.pure
        · exact Sql.Keeps.pure
      · dsimp only
        rw [Table.get?_upsert, if_neg (by simpa using hnew)]
  exact hkeeps.zoom fun p j h => h

variable (hQ : Admits Q e.source)
include hQ

theorem frames_importRows : Frames Q owned (importRows enc e rows origin complete) :=
  ⟨fun _ hkey _ => importRows_cursor hkey,
    Sql.Keeps.each fun _ _ => importRow_keeps neutral_reason fun _ _ => rfl,
    fun _ => importRows_visits, Sql.Stays.each fun _ _ => importRow_anchored hQ⟩

omit hQ in
theorem frames_scanChats : Frames Q ["chats"] (scanChats e complete) := by
  refine (frames_onJournal position_keeps).bind fun after => Frames.bind ?_ fun _ =>
    frames_setProgress (by decide)
  exact Frames.each fun row => frames_importChat.bind fun _ => Frames.pure

theorem frames_scanLive {live : Int} :
    Frames Q ["live", "anchor"] (scanLive enc e live complete) :=
  (frames_importRows hQ).bind fun _ => (frames_setProgress (by decide)).bind fun _ =>
    frames_setProgress (by decide)

theorem frames_scanBackfill {backfill : Int} :
    Frames Q ["backfill"] (scanBackfill enc e backfill) := by
  unfold scanBackfill
  split_ifs
  · exact (frames_importRows hQ).bind fun _ => frames_setProgress (by decide)
  · exact Frames.pure

theorem frames_retryPending : Frames Q [] (retryPending enc e complete) :=
  frames_query.bind fun _ => frames_importRows hQ

theorem frames_scanRolling : Frames Q ["rolling"] (scanRolling enc e complete) := by
  unfold scanRolling
  split_ifs
  · exact (frames_onJournal position_keeps).bind fun _ => (frames_importRows hQ).bind fun _ =>
      frames_setProgress (by decide)
  · exact Frames.pure

theorem frames_scanRequested : Frames Q [] (scanRequested enc e complete) := by
  refine frames_query.bind fun requested => ?_
  cases requested with
  | none => exact Frames.pure
  | some r =>
    exact (frames_importRows hQ).bind fun _ => frames_onIntake (fun _ => rfl) fun _ hi => hi

theorem frames_reconcile : Frames Q [] (reconcile enc e complete) := by
  refine (frames_onJournal Sql.Keeps.query).bind fun parts => (frames_importRows hQ).bind fun _ =>
    (frames_onJournal Sql.Keeps.query).bind fun items => Frames.each fun item => ?_
  refine (frames_onJournal recordObservation_keeps).bind fun _ => ?_
  split
  · exact (frames_onJournal Sql.Keeps.query).bind fun row => (frames_importRows hQ).bind fun _ =>
      (frames_onJournal Sql.Keeps.query).bind fun status => frames_onJournal updateIfSome_keeps
  · exact (frames_onJournal Sql.Keeps.query).bind fun change =>
      frames_onJournal updateIfSome_keeps

theorem frames_scanEnrichment :
    Frames Q ["enrichment_backfill_v1"] (scanEnrichment enc e complete) := by
  refine (frames_onJournal Sql.Keeps.query).bind fun stored => ?_
  dsimp only
  split_ifs
  · exact Frames.pure
  · refine (frames_importRows hQ).bind fun _ => ?_
    split
    · exact frames_setProgress (by decide)
    · exact frames_setProgress (by decide)

theorem frames_scanReactions : Frames Q [] (scanReactions enc e complete) := by
  unfold scanReactions
  split_ifs
  · exact (frames_onJournal (Sql.Keeps.each fun _ _ => rewrite_keeps)).bind fun _ =>
      (frames_importRows hQ).bind fun _ => (frames_importRows hQ).bind fun _ =>
      frames_onJournal (Sql.Keeps.each fun _ _ => rewrite_keeps)
  · exact Frames.pure

omit hQ in
theorem Frames.weaken {owned' : List String} {m : PassTx α} (hm : Frames Q owned m)
    (hsub : owned ⊆ owned') : Frames Q owned' m :=
  ⟨fun key hkey hnew => hm.cursor key hkey fun h => hnew (hsub h), hm.reason, hm.visits,
    hm.anchored⟩

theorem frames_revisit :
    Frames Q ["rolling", "enrichment_backfill_v1", "identity_backfill_v1"]
      (revisit enc e complete) := by
  refine ((frames_retryPending hQ).weaken (by simp)).bind fun _ => (frames_importRows hQ).bind fun _ =>
    ((frames_scanRolling hQ).weaken (by simp)).bind fun _ =>
    ((frames_scanRequested hQ).weaken (by simp)).bind fun _ =>
    ((frames_reconcile hQ).weaken (by simp)).bind fun _ =>
    ((frames_scanEnrichment hQ).weaken (by simp)).bind fun _ =>
    ((frames_scanReactions hQ).weaken (by simp)).bind fun _ => Frames.bind ?_ fun _ =>
    frames_backfillIdentities.weaken (by simp)
  exact frames_onIntake (fun _ => rfl) fun _ hi => anchored_deleteWhere hi

theorem frames_scan {live : Int} :
    Frames Q ["chats", "live", "anchor", "backfill", "rolling", "enrichment_backfill_v1",
      "identity_backfill_v1"] (scan enc e live) :=
  (frames_onJournal position_keeps).bind fun _ => (frames_scanChats.weaken (by simp)).bind fun _ =>
    ((frames_scanLive hQ).weaken (by simp)).bind fun _ =>
    ((frames_scanBackfill hQ).weaken (by simp)).bind fun _ => (frames_revisit hQ).weaken (by simp)

end Scans

end Intake

/-- The position that an entry spells; a missing one is zero. -/
def Pass.placed (key : String) (p : Pass) : Option Int :=
  ((p.cursor key).2.elim (some 0) parseInt)

namespace Intake

section Spec

variable {enc : Encoding} {e : PassEnv} {complete : Bool} {c c' : Conn Pass Bytes} {u : Unit}
  {Q : Int → Bytes → Prop}

theorem onJournal_ok {α : Type} {m : Tx α} {a : α} (h : (onJournal m).run c = (.ok a, c')) :
    ∃ c₁, m.run { db := c.db.intake.journal, faults := c.faults, fresh := c.fresh } = (.ok a, c₁) ∧
      c'.db = { c.db with intake := { c.db.intake with journal := c₁.db } } := by
  obtain ⟨c₁, hm, hdb, -⟩ := Sql.zoom_ok h
  exact ⟨c₁, hm, hdb⟩

theorem position_ok {key : String} {n : Int} (h : (onJournal (position key)).run c = (.ok n, c')) :
    c.db.placed key = some n ∧ c'.db = c.db := by
  obtain ⟨c₁, hrun, hdb⟩ := onJournal_ok h
  obtain ⟨value, c₂, hvalue, hrun⟩ := Sql.bind_ok hrun
  obtain ⟨rfl, hdb₂⟩ := Sql.query_ok hvalue
  unfold Pass.placed Pass.cursor
  dsimp only at hrun hdb₂ ⊢
  cases hget : c.db.intake.journal.ingestionProgress.get? key with
  | none =>
    rw [hget] at hrun
    obtain ⟨rfl, rfl⟩ := Sql.pure_ok hrun
    rw [hdb₂] at hdb
    exact ⟨rfl, hdb⟩
  | some s =>
    rw [hget] at hrun
    obtain ⟨hparse, rfl⟩ := Sql.orThrow_ok hrun
    rw [hdb₂] at hdb
    exact ⟨hparse, hdb⟩

theorem progress_ok {key : String} {value : Option Bytes}
    (h : (onJournal (progress key)).run c = (.ok value, c')) :
    value = (c.db.cursor key).2 ∧ c'.db = c.db := by
  obtain ⟨c₁, hrun, hdb⟩ := onJournal_ok h
  obtain ⟨rfl, hdb₁⟩ := Sql.query_ok hrun
  rw [hdb₁] at hdb
  exact ⟨rfl, hdb⟩

theorem setProgress_ok {key : String} {value : Bytes}
    (h : (onJournal (setProgress key value)).run c = (.ok u, c')) :
    c'.db.cursor key = ((c.db.cursor key).1, some value) := by
  obtain ⟨c₁, hrun, hdb⟩ := onJournal_ok h
  rw [hdb, Sql.execute_ok hrun]
  unfold Pass.cursor
  dsimp only
  rw [Table.get?_upsert, if_pos rfl]
  cases c.db.intake.journal.ingestionProgress.get? key <;> rfl

def livePage (db : MessagesDb) (live : Int) : List Int :=
  db.rowsFor MessagesDb.rowBatchSize .live live 0

def liveEnd (db : MessagesDb) (live : Int) : Int := (livePage db live).getLastD live

def backfillPage (db : MessagesDb) (backfill : Int) : List Int :=
  db.rowsFor initialImportLimit .backfill backfill 0

def backfillEnd (db : MessagesDb) (backfill : Int) : Int :=
  ((backfillPage db backfill).getLast?.map (· - 1)).getD 0

structure Scanned (db : MessagesDb) (start frontier : Int) (p p' : Pass) : Prop where
  epoch : p'.intake.journal.epoch = p.intake.journal.epoch
  identity : p'.cursor "identity" = p.cursor "identity"
  live : (p'.cursor "live").2 = some (signed (liveEnd db start))
  anchor : (p'.cursor "anchor").2 = some ((db.guid (liveEnd db start)).getD [])
  backfill : (p'.cursor "backfill").2 =
    if frontier > 0 then some (signed (backfillEnd db frontier)) else (p.cursor "backfill").2
  visited : ∀ r, r ∈ p.rows ∨ r ∈ livePage db start ∨ (frontier > 0 ∧ r ∈ backfillPage db frontier) →
    r ∈ p'.rows

theorem scanLive_ok {live : Int} (h : (scanLive enc e live complete).run c = (.ok u, c')) :
    (c'.db.cursor "live").2 = some (signed (liveEnd e.source live)) ∧
      (c'.db.cursor "anchor").2 = some ((e.source.guid (liveEnd e.source live)).getD []) ∧
      ∀ r ∈ livePage e.source live, r ∈ c'.db.rows := by
  obtain ⟨_, c₁, himport, h⟩ := Sql.bind_ok h
  obtain ⟨_, c₂, hlive, h⟩ := Sql.bind_ok h
  have hanchor := setProgress_ok h
  have hkept : c'.db.cursor "live" = c₂.db.cursor "live" :=
    (setProgress_cursor (by decide)).run h
  refine ⟨?_, congrArg Prod.snd hanchor, fun r hr => ?_⟩
  · rw [hkept, setProgress_ok hlive]
    rfl
  · rw [(onJournal_rows _).run h, (onJournal_rows _).run hlive]
    exact importRows_rows himport hr

theorem scanBackfill_ok {backfill : Int} (h : (scanBackfill enc e backfill).run c = (.ok u, c')) :
    (c'.db.cursor "backfill").2 =
        (if backfill > 0 then some (signed (backfillEnd e.source backfill))
        else (c.db.cursor "backfill").2) ∧
      (backfill > 0 → ∀ r ∈ backfillPage e.source backfill, r ∈ c'.db.rows) := by
  unfold scanBackfill at h
  by_cases hpositive : backfill > 0
  · rw [if_pos hpositive] at h ⊢
    obtain ⟨_, c₁, himport, h⟩ := Sql.bind_ok h
    refine ⟨congrArg Prod.snd (setProgress_ok h), fun _ r hr => ?_⟩
    rw [(onJournal_rows _).run h]
    exact importRows_rows himport hr
  · rw [if_neg hpositive] at h ⊢
    rw [(Sql.pure_ok h).2]
    exact ⟨rfl, fun hp => absurd hp hpositive⟩

theorem scan_ok {live : Int} (h : (scan enc e live).run c = (.ok u, c')) :
    ∃ backfill, c.db.placed "backfill" = some backfill ∧
      Scanned e.source live backfill c.db c'.db := by
  have hQ : Admits (fun _ _ => True) e.source := fun _ _ _ _ => trivial
  obtain ⟨backfill, c₁, hposition, h⟩ := Sql.bind_ok h
  obtain ⟨hplaced, hdb₁⟩ := position_ok hposition
  obtain ⟨_, c₂, hchats, h⟩ := Sql.bind_ok h
  obtain ⟨_, c₃, hlive, h⟩ := Sql.bind_ok h
  obtain ⟨_, c₄, hbackfill, hrevisit⟩ := Sql.bind_ok h
  have hkept₂ (key : String) (happart : Apart key) (hother : key ∉ ["chats"]) :
      c₂.db.cursor key = c.db.cursor key := by
    rw [((frames_scanChats (Q := fun _ _ => True)).cursor key happart hother).run hchats, hdb₁]
  have hkept₃ (key : String) (happart : Apart key) (hother : key ∉ ["live", "anchor"]) :
      c₃.db.cursor key = c₂.db.cursor key :=
    ((frames_scanLive hQ).cursor key happart hother).run hlive
  have hkept₄ (key : String) (happart : Apart key) (hother : key ∉ ["backfill"]) :
      c₄.db.cursor key = c₃.db.cursor key :=
    ((frames_scanBackfill hQ).cursor key happart hother).run hbackfill
  have hkept₅ (key : String) (happart : Apart key)
      (hother : key ∉ ["rolling", "enrichment_backfill_v1", "identity_backfill_v1"]) :
      c'.db.cursor key = c₄.db.cursor key :=
    ((frames_revisit hQ).cursor key happart hother).run hrevisit
  have hidentity : Apart "identity" := apart_of_head (by decide)
  have hidentity : c'.db.cursor "identity" = c.db.cursor "identity" := by
    rw [hkept₅ _ hidentity (by decide), hkept₄ _ hidentity (by decide),
      hkept₃ _ hidentity (by decide), hkept₂ _ hidentity (by decide)]
  have hlivePage := scanLive_ok hlive
  have hbackfillPage := scanBackfill_ok hbackfill
  have happartLive : Apart "live" := apart_of_head (by decide)
  have happartAnchor : Apart "anchor" := apart_of_head (by decide)
  have happartBackfill : Apart "backfill" := apart_of_head (by decide)
  refine ⟨backfill, hplaced, congrArg Prod.fst hidentity, hidentity, ?_, ?_, ?_, fun r hr => ?_⟩
  · rw [hkept₅ _ happartLive (by decide), hkept₄ _ happartLive (by decide)]
    exact hlivePage.1
  · rw [hkept₅ _ happartAnchor (by decide), hkept₄ _ happartAnchor (by decide)]
    exact hlivePage.2.1
  · rw [hkept₅ _ happartBackfill (by decide), hbackfillPage.1, hkept₃ _ happartBackfill (by decide),
      hkept₂ _ happartBackfill (by decide)]
  · refine ((frames_revisit hQ).visits r).run hrevisit ?_
    have hvisits : Sql.Stays (fun p => r ∈ p.rows) (scanBackfill enc e backfill) :=
      (frames_scanBackfill hQ).visits r
    rcases hr with hr | hr | ⟨hpositive, hr⟩
    · refine hvisits.run hbackfill (((frames_scanLive hQ).visits r).run hlive ?_)
      refine ((frames_scanChats (Q := fun _ _ => True)).visits r).run hchats ?_
      rw [hdb₁]
      exact hr
    · exact hvisits.run hbackfill (hlivePage.2.2 r hr)
    · exact hbackfillPage.2 hpositive r hr

theorem below_eq {t : Table Int Bytes} {live : Int} :
    Anchors.below t live = 0 ∨
      ∃ guid, t.get? (Anchors.below t live) = some guid ∧ Anchors.below t live < live := by
  unfold Anchors.below
  cases hmax : ((t.select fun row _ => row < live).map Prod.fst).max? with
  | none => exact Or.inl rfl
  | some row =>
    obtain ⟨⟨r, guid⟩, hr, rfl⟩ := List.mem_map.mp (List.max?_mem hmax)
    obtain ⟨hget, hlt⟩ := Table.get?_select.mp hr
    exact Or.inr ⟨guid, hget, of_decide_eq_true hlt⟩

theorem reconcileAnchors_get? {db : MessagesDb} {t : Table Int Bytes} {row : Int} {guid : Bytes}
    (h : (Anchors.reconcileAnchors db t).2.get? row = some guid) : t.get? row = some guid := by
  unfold Anchors.reconcileAnchors at h
  dsimp only at h
  split_ifs at h
  · exact h
  · exact h
  · rw [Table.get?_deleteWhere, Option.filter_eq_some_iff] at h
    exact h.1

inductive Opened (db : MessagesDb) (p : Pass) (start : Int) (p' : Pass) : Prop
  /-- The source is the known one, and so is the live cursor. -/
  | resumed (known : (p.cursor "identity").2.isSome = true) (placed : p.placed "live" = some start)
    (cursor : ∀ key, Apart key → key ≠ "identity" → p'.cursor key = p.cursor key)
    (reason : p'.resetReason = p.resetReason) (unmoved : p'.rebased = p.rebased)
  /-- The row of the live cursor was deleted. -/
  | rebased (old : Int) (known : (p.cursor "identity").2.isSome = true)
    (placed : p.placed "live" = some old) (positive : 0 < old)
    (anchor : start = 0 ∨ ∃ guid, p.intake.ordinaryAnchors.get? start = some guid ∧ start < old)
    (live : (p'.cursor "live").2 = some (signed start))
    (cursor : ∀ key, Apart key → key ∉ ["identity", "live", "rolling"] → p'.cursor key = p.cursor key)
    (reason : p'.resetReason = p.resetReason) (moved : p'.rebased = true)
  /-- The source is imported from its end. -/
  | started (start_eq : start = db.high)
    (live : (p'.cursor "live").2 = some (signed start))
    (backfill : (p'.cursor "backfill").2 = some (signed start))
    (reason : (p.cursor "identity").2 = none ∧ p'.resetReason = p.resetReason ∧
      p'.intake.journal.epoch = p.intake.journal.epoch ∨
      (p.cursor "identity").2.isSome = true ∧ p'.resetReason.isSome = true)

theorem startImport_ok {start : Int} (h : (startImport e).run c = (.ok start, c')) :
    start = e.source.high ∧ (c'.db.cursor "live").2 = some (signed start) ∧
      (c'.db.cursor "backfill").2 = some (signed start) ∧
      (c'.db.cursor "identity").2 = some e.source.identity ∧
      (c'.db.cursor "anchor").2 = some ((e.source.guid start).getD []) ∧
      c'.db.rows = c.db.rows ∧ c'.db.resetReason = c.db.resetReason ∧
      c'.db.rebased = c.db.rebased ∧
      c'.db.intake.ordinaryAnchors = c.db.intake.ordinaryAnchors := by
  obtain ⟨_, c₁, hidentity, h⟩ := Sql.bind_ok h
  obtain ⟨_, c₂, hlive, h⟩ := Sql.bind_ok h
  obtain ⟨_, c₃, hbackfill, h⟩ := Sql.bind_ok h
  obtain ⟨_, c₄, hanchor, h⟩ := Sql.bind_ok h
  obtain ⟨_, c₅, hidentities, h⟩ := Sql.bind_ok h
  obtain ⟨_, c₆, henrichment, h⟩ := Sql.bind_ok h
  obtain ⟨rfl, rfl⟩ := Sql.pure_ok h
  have hkept {key k : String} {value : Bytes} {d d' : Conn Pass Bytes} {u : Unit} (hne : key ≠ k)
      (hrun : (onJournal (setProgress k value)).run d = (.ok u, d')) :
      d'.db.cursor key = d.db.cursor key := (setProgress_cursor hne).run hrun
  refine ⟨rfl, ?_, ?_, ?_, ?_, ?_, ?_, ?_, ?_⟩
  · rw [hkept (by decide) henrichment, hkept (by decide) hidentities, hkept (by decide) hanchor,
      hkept (by decide) hbackfill, setProgress_ok hlive]
  · rw [hkept (by decide) henrichment, hkept (by decide) hidentities, hkept (by decide) hanchor,
      setProgress_ok hbackfill]
  · rw [hkept (by decide) henrichment, hkept (by decide) hidentities, hkept (by decide) hanchor,
      hkept (by decide) hbackfill, hkept (by decide) hlive, setProgress_ok hidentity]
  · rw [hkept (by decide) henrichment, hkept (by decide) hidentities, setProgress_ok hanchor]
  all_goals
    obtain ⟨_, -, h₁⟩ := onJournal_ok hidentity
    obtain ⟨_, -, h₂⟩ := onJournal_ok hlive
    obtain ⟨_, -, h₃⟩ := onJournal_ok hbackfill
    obtain ⟨_, -, h₄⟩ := onJournal_ok hanchor
    obtain ⟨_, -, h₅⟩ := onJournal_ok hidentities
    obtain ⟨_, -, h₆⟩ := onJournal_ok henrichment
    rw [h₆, h₅, h₄, h₃, h₂, h₁]

theorem startImport_epoch :
    Sql.Keeps (fun p => p.intake.journal.epoch) (startImport e) := by
  have hset {key : String} {value : Bytes} :
      Sql.Keeps (fun p => p.intake.journal.epoch) (onJournal (setProgress key value)) := by
    have hkeeps : Sql.Keeps Journal.epoch (setProgress key value) :=
      Sql.Keeps.execute fun _ => rfl
    exact hkeeps.zoom fun p j h => h
  exact hset.bind fun _ => hset.bind fun _ => hset.bind fun _ => hset.bind fun _ =>
    hset.bind fun _ => hset.bind fun _ => Sql.Keeps.pure

theorem rebase_ok {live start : Int} (h : (rebase live).run c = (.ok start, c')) :
    start = Anchors.below c.db.intake.ordinaryAnchors live ∧
      (c'.db.cursor "live").2 = some (signed start) ∧
      (∀ key, key ∉ ["live", "rolling"] → c'.db.cursor key = c.db.cursor key) ∧
      c'.db.rows = c.db.rows ∧ c'.db.resetReason = c.db.resetReason ∧ c'.db.rebased = true ∧
      c'.db.intake.ordinaryAnchors = c.db.intake.ordinaryAnchors := by
  obtain ⟨start', c₁, hbelow, h⟩ := Sql.bind_ok h
  obtain ⟨c₀, hbelow, hdb₁, -⟩ := Sql.zoom_ok hbelow
  obtain ⟨hstart, hc₀⟩ := Sql.query_ok hbelow
  rw [hc₀] at hdb₁
  obtain ⟨_, c₂, hnote, h⟩ := Sql.bind_ok h
  obtain ⟨_, c₃, hlive, h⟩ := Sql.bind_ok h
  obtain ⟨_, c₄, hrolling, h⟩ := Sql.bind_ok h
  obtain ⟨rfl, rfl⟩ := Sql.pure_ok h
  have hdb₂ : c₂.db = { c.db with rebased := true } := by
    rw [Sql.note_ok hnote, hdb₁]
  obtain ⟨_, -, h₃⟩ := onJournal_ok hlive
  obtain ⟨_, -, h₄⟩ := onJournal_ok hrolling
  refine ⟨hstart, ?_, fun key hkey => ?_, ?_, ?_, ?_, ?_⟩
  · rw [(setProgress_cursor (by decide)).run hrolling, setProgress_ok hlive]
  · rw [List.mem_cons, List.mem_singleton, not_or] at hkey
    rw [(setProgress_cursor hkey.2).run hrolling, (setProgress_cursor hkey.1).run hlive, hdb₂]
    rfl
  all_goals rw [h₄, h₃, hdb₂]

theorem deletedRow_ok {legacy : Bool} {anchors : Nat} {live : Int} {saved : Option Bytes}
    {deleted : Bool} (h : (deletedRow e legacy anchors live saved).run c = (.ok deleted, c')) :
    c'.db = c.db := by
  obtain ⟨i, c₁, hpeek, h⟩ := Sql.bind_ok h
  rw [← (Sql.peek_ok hpeek).2]
  split_ifs at h
  · rw [(Sql.lift_ok h).2]
  · rw [(Sql.pure_ok h).2]

theorem checkLive_ok {legacy : Bool} {anchors : Nat} {live : Int}
    {checked : Int × Option ResetReason}
    (h : (checkLive e legacy anchors live).run c = (.ok checked, c')) (hreason : checked.2 = none) :
    (checked.1 = live ∧ c'.db = c.db) ∨
      (0 < live ∧ ∃ d, d.db = c.db ∧ (rebase live).run d = (.ok checked.1, c')) := by
  unfold checkLive at h
  split_ifs at h with hpositive
  · obtain ⟨saved, c₁, hsaved, h⟩ := Sql.bind_ok h
    have hdb₁ := (progress_ok hsaved).2
    split_ifs at h
    · obtain ⟨deleted, c₂, hdeleted, h⟩ := Sql.bind_ok h
      have hdb₂ := deletedRow_ok hdeleted
      split_ifs at h
      · obtain ⟨start, c₃, hrebase, h⟩ := Sql.bind_ok h
        obtain ⟨rfl, rfl⟩ := Sql.pure_ok h
        exact Or.inr ⟨hpositive, c₂, hdb₂.trans hdb₁, hrebase⟩
      · obtain ⟨rfl, -⟩ := Sql.pure_ok h
        exact nomatch hreason
    · obtain ⟨rfl, rfl⟩ := Sql.pure_ok h
      exact Or.inl ⟨rfl, hdb₁⟩
  · obtain ⟨rfl, rfl⟩ := Sql.pure_ok h
    exact Or.inl ⟨rfl, rfl⟩

/-- The anchors were reconciled, and then the live cursor was checked. -/
theorem checkSource_ok {identity : Bytes} {live : Int} {checked : Int × Option ResetReason}
    (h : (checkSource e identity live).run c = (.ok checked, c')) (hreason : checked.2 = none) :
    ∃ d d' legacy, d.db = { c.db with intake := { c.db.intake with
        ordinaryAnchors := (Anchors.reconcileAnchors e.source c.db.intake.ordinaryAnchors).2 } } ∧
      (checkLive e legacy (Anchors.reconcileAnchors e.source c.db.intake.ordinaryAnchors).1 live).run
        d = (.ok checked, d') ∧
      (∀ key, key ≠ "identity" → c'.db.cursor key = d'.db.cursor key) ∧
      c'.db.rows = d'.db.rows ∧ c'.db.resetReason = d'.db.resetReason ∧
      c'.db.rebased = d'.db.rebased ∧ c'.db.intake.ordinaryAnchors = d'.db.intake.ordinaryAnchors ∧
      ((c'.db.cursor "identity").2 = some e.source.identity ∨
        identity = e.source.identity ∧ c'.db.cursor "identity" = d'.db.cursor "identity") := by
  unfold checkSource at h
  dsimp only at h
  split_ifs at h with hchanged
  · obtain ⟨rfl, -⟩ := Sql.pure_ok h
    exact nomatch hreason
  · obtain ⟨kept, c₁, hkept, h⟩ := Sql.bind_ok h
    obtain ⟨c₀, hkept, hdb₁, -⟩ := Sql.zoom_ok hkept
    obtain ⟨rfl, hc₀⟩ := Sql.query_ok hkept
    rw [hc₀] at hdb₁
    obtain ⟨_, c₂, hset, h⟩ := Sql.bind_ok h
    obtain ⟨c₃, hset, hdb₂, -⟩ := Sql.zoom_ok hset
    rw [Sql.execute_ok hset, hdb₁] at hdb₂
    split_ifs at h
    · obtain ⟨rfl, -⟩ := Sql.pure_ok h
      exact nomatch hreason
    · obtain ⟨checked', d', hlive, h⟩ := Sql.bind_ok h
      obtain ⟨_, d'', hidentity, h⟩ := Sql.bind_ok h
      obtain ⟨rfl, rfl⟩ := Sql.pure_ok h
      refine ⟨c₂, d', _, hdb₂, hlive, ?_⟩
      split_ifs at hidentity with hlegacy
      · obtain ⟨_, -, hdb⟩ := onJournal_ok hidentity
        refine ⟨fun key hkey => (setProgress_cursor hkey).run hidentity, ?_, ?_, ?_, ?_,
          Or.inl (congrArg Prod.snd (setProgress_ok hidentity))⟩
        all_goals rw [hdb]
      · obtain ⟨c₄, hpure, hdb⟩ := onJournal_ok hidentity
        rw [(Sql.pure_ok hpure).2] at hdb
        have hsame : c'.db = d'.db := hdb
        rw [hsame]
        refine ⟨fun _ _ => rfl, rfl, rfl, rfl, rfl, Or.inr ⟨?_, rfl⟩⟩
        by_contra hne
        have hlegacy' : (decide (identity ≠ e.source.identity) && decide (live > 0) &&
            legacyIdentityCandidate e.source.identity identity) = false := by
          rw [hreason] at hlegacy
          simpa using hlegacy
        rw [hlegacy'] at hchanged
        exact hchanged (by simp [hne])

theorem checkSource_rows {identity : Bytes} {live : Int} :
    Sql.Keeps Pass.rows (checkSource e identity live) := by
  have hrebase : Sql.Keeps Pass.rows (rebase live) := by
    refine Sql.Keeps.bind (onIntake_rows _) fun below => Sql.Keeps.bind (fun _ => rfl) fun _ => ?_
    exact (onJournal_rows _).bind fun _ => (onJournal_rows _).bind fun _ => Sql.Keeps.pure
  have hlive {legacy : Bool} {anchors : Nat} :
      Sql.Keeps Pass.rows (checkLive e legacy anchors live) := by
    unfold checkLive
    split_ifs
    · refine (onJournal_rows _).bind fun saved => ?_
      split_ifs
      · refine Sql.Keeps.bind (Sql.Keeps.bind Sql.Keeps.peek fun i => ?_) fun deleted => ?_
        · split_ifs
          · exact Sql.Keeps.lift
          · exact Sql.Keeps.pure
        · split_ifs
          · exact hrebase.bind fun _ => Sql.Keeps.pure
          · exact Sql.Keeps.pure
      · exact Sql.Keeps.pure
    · exact Sql.Keeps.pure
  unfold checkSource
  dsimp only
  split_ifs
  · exact Sql.Keeps.pure
  · refine (onIntake_rows _).bind fun kept => (onIntake_rows _).bind fun _ => ?_
    split_ifs
    · exact Sql.Keeps.pure
    · exact hlive.bind fun checked => (onJournal_rows _).bind fun _ => Sql.Keeps.pure

theorem openSource_ok {start : Int} (h : (openSource e).run c = (.ok start, c')) :
    Opened e.source c.db start c'.db ∧ c'.db.rows = c.db.rows ∧
      (c'.db.cursor "identity").2 = some e.source.identity := by
  obtain ⟨identity, c₁, hidentity, h⟩ := Sql.bind_ok h
  obtain ⟨rfl, hdb₁⟩ := progress_ok hidentity
  obtain ⟨live, c₂, hposition, h⟩ := Sql.bind_ok h
  obtain ⟨hplaced, hdb₂⟩ := position_ok hposition
  rw [hdb₁] at hplaced hdb₂
  cases hknown : (c.db.cursor "identity").2 with
  | none =>
    rw [hknown] at h
    obtain ⟨hstart, hlive, hbackfill, hidentity, -, hrows, hreason, -⟩ := startImport_ok h
    have hepoch := startImport_epoch.run h
    rw [hdb₂] at hrows hreason hepoch
    exact ⟨.started hstart hlive hbackfill (Or.inl ⟨hknown, hreason, hepoch⟩), hrows, hidentity⟩
  | some identity =>
    rw [hknown] at h
    have hidentified : (c.db.cursor "identity").2.isSome = true := by rw [hknown]; rfl
    obtain ⟨checked, c₃, hchecked, h⟩ := Sql.bind_ok h
    have hrows₃ : c₃.db.rows = c.db.rows := by rw [checkSource_rows.run hchecked, hdb₂]
    by_cases hreason : checked.2 = none
    · obtain ⟨d, d', legacy, hd, hlive, hcursor, hrows, hsame, hrebased, -, hidentity⟩ :=
        checkSource_ok hchecked hreason
      rw [hreason] at h
      obtain ⟨rfl, rfl⟩ := Sql.pure_ok h
      rw [hdb₂] at hd
      have hunmoved : d'.db.cursor "identity" = c.db.cursor "identity" := by
        rcases checkLive_ok hlive hreason with ⟨-, hdb⟩ | ⟨-, d₀, hd₀, hrebase⟩
        · rw [hdb, hd]
          rfl
        · rw [(rebase_ok hrebase).2.2.1 _ (by decide), hd₀, hd]
          rfl
      refine ⟨?_, hrows₃, hidentity.elim (fun hset => hset) fun ⟨hsame, hkept⟩ => ?_⟩
      swap
      · rw [hkept, hunmoved, hknown, hsame]
      rcases checkLive_ok hlive hreason with ⟨hchecked, hdb⟩ | ⟨hpositive, d₀, hd₀, hrebase⟩
      · rw [hchecked]
        refine .resumed hidentified hplaced (fun key _ hkey => ?_) ?_ ?_
        · rw [hcursor key hkey, hdb, hd]
          rfl
        · rw [hsame, hdb, hd]
        · rw [hrebased, hdb, hd]
      · obtain ⟨hbelow, hlive, hkept, -, hsame', hrebased', -⟩ := rebase_ok hrebase
        refine .rebased live hidentified hplaced hpositive ?_ ?_ (fun key _ hkey => ?_) ?_ ?_
        · rw [hbelow, hd₀, hd]
          refine below_eq.imp_right fun ⟨guid, hget, hlt⟩ => ⟨guid, reconcileAnchors_get? hget, hlt⟩
        · rw [hcursor _ (by decide), hlive]
        · rw [List.mem_cons, not_or] at hkey
          rw [hcursor key hkey.1, hkept key hkey.2, hd₀, hd]
          rfl
        · rw [hsame, hsame', hd₀, hd]
        · rw [hrebased, hrebased']
    · have hsome : checked.2.isSome = true := Option.isSome_iff_ne_none.mpr hreason
      rw [if_pos hsome] at h
      obtain ⟨_, c₄, hnote, h⟩ := Sql.bind_ok h
      obtain ⟨_, c₅, hreset, h⟩ := Sql.bind_ok h
      have hbatch : Sql.Keeps (fun p : Pass => (p.rows, p.resetReason)) (resetIntake e) :=
        Sql.Keeps.bind (fun _ => rfl) fun _ _ => rfl
      obtain ⟨hrows₅, hreason₅⟩ := Prod.mk.inj (hbatch.run hreset)
      obtain ⟨hstart, hlive, hbackfill, hidentity, -, hrows, hreason', -⟩ := startImport_ok h
      rw [Sql.note_ok hnote] at hrows₅ hreason₅
      refine ⟨.started hstart hlive hbackfill (Or.inr ?_), ?_, hidentity⟩
      · rw [hreason', hreason₅, hknown]
        exact ⟨rfl, hsome⟩
      · rw [hrows, hrows₅]
        exact hrows₃

theorem resetIntake_ok (h : (resetIntake e).run c = (.ok u, c')) :
    c'.db.intake.journal.ingestionProgress = .empty ∧ c'.db.intake.ordinaryAnchors = .empty := by
  obtain ⟨_, c₁, hreset, h⟩ := Sql.bind_ok h
  obtain ⟨c₂, hclear, hdb, -⟩ := Sql.zoom_ok h
  obtain ⟨c₃, hjournal, hdb₁⟩ := onJournal_ok hreset
  rw [hdb, Sql.execute_ok hclear, hdb₁]
  refine ⟨?_, rfl⟩
  obtain ⟨_, d₁, -, hjournal⟩ := Sql.bind_ok hjournal
  obtain ⟨items, d₂, -, hjournal⟩ := Sql.bind_ok hjournal
  obtain ⟨epoch, d₃, -, hjournal⟩ := Sql.bind_ok hjournal
  obtain ⟨_, d₄, hsource, hjournal⟩ := Sql.bind_ok hjournal
  have hheld : Sql.Keeps backdrop (Sql.each (holdRequest e.now) items >>= fun _ =>
      Sql.execute markHeld) := by
    refine Sql.Keeps.bind (Sql.Keeps.each fun r _ => Sql.Keeps.bind Sql.Keeps.orThrow fun v => ?_)
      fun _ => Sql.Keeps.execute fun _ => rfl
    split_ifs
    · exact Sql.Keeps.bind updateRequest_keeps fun _ => Sql.Keeps.pure
    · exact Sql.Keeps.execute fun _ => rfl
  have hprogress := congrArg Prod.snd (hheld.run hjournal)
  rw [Sql.execute_ok hsource] at hprogress
  exact hprogress

theorem openSource_anchored :
    Sql.Stays (fun p => Anchored Q p.intake.ordinaryAnchors) (openSource e) := by
  have hstart : Sql.Stays (fun p => Anchored Q p.intake.ordinaryAnchors) (startImport e) :=
    onJournal_anchored.bind fun _ => onJournal_anchored.bind fun _ => onJournal_anchored.bind fun _ =>
      onJournal_anchored.bind fun _ => onJournal_anchored.bind fun _ => onJournal_anchored.bind fun _ =>
      fun c hc => hc
  have hreset : Sql.Stays (fun p => Anchored Q p.intake.ordinaryAnchors) (resetIntake e) :=
    onJournal_anchored.bind fun _ => onIntake_anchored fun i hi row guid hget => by
      rw [Table.get?_empty] at hget
      exact nomatch hget
  have hrebase {live : Int} :
      Sql.Stays (fun p => Anchored Q p.intake.ordinaryAnchors) (rebase live) :=
    query_anchored.bind fun _ => Sql.Stays.bind (fun c hc => hc) fun _ =>
      onJournal_anchored.bind fun _ => onJournal_anchored.bind fun _ => fun c hc => hc
  have hlive {legacy : Bool} {anchors : Nat} {live : Int} :
      Sql.Stays (fun p => Anchored Q p.intake.ordinaryAnchors) (checkLive e legacy anchors live) := by
    unfold checkLive
    split_ifs
    · refine onJournal_anchored.bind fun saved => ?_
      split_ifs
      · refine Sql.Stays.bind (stays_anchored ?_) fun deleted => ?_
        · refine Sql.Keeps.bind Sql.Keeps.peek fun i => ?_
          split_ifs
          · exact Sql.Keeps.lift
          · exact Sql.Keeps.pure
        · split_ifs
          · exact hrebase.bind fun _ => fun c hc => hc
          · exact fun c hc => hc
      · exact fun c hc => hc
    · exact fun c hc => hc
  refine onJournal_anchored.bind fun identity => onJournal_anchored.bind fun live => ?_
  cases identity with
  | none => exact hstart
  | some identity =>
    refine Sql.Stays.bind ?_ fun checked => ?_
    · unfold checkSource
      dsimp only
      split_ifs
      · exact fun c hc => hc
      · refine Sql.Stays.bind_of (R := fun kept => Anchored Q kept.2) query_anchored
          (fun c kept c' hc hkept row guid hget => ?_) fun kept hkept =>
          (onIntake_anchored fun _ _ => hkept).bind fun _ => ?_
        · obtain ⟨c₀, hkept, -⟩ := Sql.zoom_ok hkept
          rw [(Sql.query_ok hkept).1] at hget
          exact hc row guid (reconcileAnchors_get? hget)
        · split_ifs
          · exact fun c hc => hc
          · exact hlive.bind fun _ => onJournal_anchored.bind fun _ => fun c hc => hc
    · split_ifs
      · exact Sql.Stays.bind (fun c hc => hc) fun _ => hreset.bind fun _ => hstart
      · exact fun c hc => hc

theorem pass_ok (h : (pass enc e).run c = (.ok u, c')) :
    ∃ start frontier c₁ c₂, c₁.db = c.db ∧ (openSource e).run c₁ = (.ok start, c₂) ∧
      c₂.db.placed "backfill" = some frontier ∧ Scanned e.source start frontier c₂.db c'.db ∧
      c'.db.resetReason = c₂.db.resetReason := by
  obtain ⟨c₁, c₃, hdb₁, -, h, hdb₃⟩ := Sql.transaction_ok h
  obtain ⟨start, c₂, hopen, hscan⟩ := Sql.bind_ok h
  obtain ⟨frontier, hfrontier, hscanned⟩ := scan_ok hscan
  have hreason := ((frames_scan (Q := fun _ _ => True) fun _ _ _ _ => trivial).reason).run hscan
  rw [hdb₃]
  exact ⟨start, frontier, c₁, c₂, hdb₁, hopen, hfrontier, hscanned, hreason⟩

theorem pass_anchored (hQ : Admits Q e.source) (h : (pass enc e).run c = (.ok u, c'))
    (hc : Anchored Q c.db.intake.ordinaryAnchors) : Anchored Q c'.db.intake.ordinaryAnchors := by
  obtain ⟨c₁, c₂, hdb₁, -, h, hdb₂⟩ := Sql.transaction_ok h
  obtain ⟨start, c₃, hopen, hscan⟩ := Sql.bind_ok h
  rw [hdb₂]
  refine (frames_scan hQ).anchored.run hscan (openSource_anchored.run hopen ?_)
  rw [hdb₁]
  exact hc

end Spec

end Intake

end Zimbr.Relay
