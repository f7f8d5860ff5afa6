import Mathlib.Data.Countable.Basic
import Mathlib.Logic.Equiv.List
import Mathlib.Tactic.DeriveCountable
import Zimbr.Relay.SourceCache

set_option autoImplicit false

/-!
# Runs of the source shortcut

One connection observes messages, its worker rewrites them, and transactions,
evictions, resets and restarts fall anywhere between.
-/
namespace Zimbr.Relay
open Library

namespace Assets

def attach (refs : Bytes → Option AssetRef × Option AssetRef) (base : Message) : Message := { base with
  attachments := base.attachments.map fun a =>
    { a with image := (refs a.id).1, viewer := (refs a.id).2 } }

/-- A stored message with other references; `rest` updates its other metadata. -/
def republish (image viewer : Option AssetRef → Option AssetRef) (rest : Message → Message)
    (v : Message) : Message := { rest v with
  attachments := v.attachments.map fun a =>
    { a with image := image a.image, viewer := viewer a.viewer } }

theorem attach_uniform (refs : Bytes → Option AssetRef × Option AssetRef) (base : Message) :
    Uniform (attach refs base).attachments := by
  intro a ha b hb hid
  obtain ⟨a', -, rfl⟩ := List.mem_map.mp ha
  obtain ⟨b', -, rfl⟩ := List.mem_map.mp hb
  have hid : a'.id = b'.id := hid
  simp [hid]

theorem republish_uniform (image viewer : Option AssetRef → Option AssetRef)
    (rest : Message → Message) {v : Message} (h : Uniform v.attachments) :
    Uniform (republish image viewer rest v).attachments := by
  intro a ha b hb hid
  obtain ⟨a', ha', rfl⟩ := List.mem_map.mp ha
  obtain ⟨b', hb', rfl⟩ := List.mem_map.mp hb
  obtain ⟨himage, hviewer⟩ := h a' ha' b' hb' hid
  exact ⟨congrArg image himage, congrArg viewer hviewer⟩

end Assets

/-- The connection: what it sees, and what a rollback restores. -/
structure Session where
  journal : Journal
  saved : Option Journal := none

inductive SourceCall where
  | begin
  | commit
  | rollback
  /-- Ingestion observes a source message. -/
  | observe (env : Env) (source : Bytes) (row date : Int) (base : Message)
    (refs : Bytes → Option AssetRef × Option AssetRef) (origin : Origin)
  /-- A worker publishes the assets, previews or reactions of a stored message. -/
  | update (env : Env) (source : Bytes) (image viewer : Option AssetRef → Option AssetRef)
    (rest : Message → Message)
  | write (env : Env) (op : IngestOp)
  | reset (env : Env)
  /-- Sends, uploads and maintenance: any change of the other tables. -/
  | elsewhere (f : Journal → Journal)
  | evict (p : Nat → CachedSource → Bool)
  | restart

namespace Session

/-- Every write is inside a transaction, and its error rolls back. -/
def writing (s : Session) (env : Env) (m : Tx Unit) : Session :=
  match s.saved with
  | none => s
  | some saved =>
    match m.run { db := s.journal, faults := env.faults, fresh := env.fresh } with
    | (.ok _, c) => { s with journal := c.db }
    | (.error _, _) => { journal := saved }

def updating (enc : Encoding) (env : Env) (source : Bytes)
    (image viewer : Option AssetRef → Option AssetRef) (rest : Message → Message) (j : Journal) :
    Tx Unit :=
  match findMessage source j with
  | none => return ()
  | some (_, r) =>
    message enc env.now source r.sourceRow r.dateNs
      (Assets.republish image viewer rest (Enrichment.full j r.record)) .reconciliation

def evicted (p : Nat → CachedSource → Bool) (j : Journal) : Journal :=
  { j with sourceMessageCache := j.sourceMessageCache.deleteWhere p }

/-- Other tables than those of messages. -/
def besides (f : Journal → Journal) (j : Journal) : Journal := { f j with
  messages := j.messages
  enrichment := j.enrichment
  identities := j.identities
  sourceMessageCache := j.sourceMessageCache }

def step (enc : Encoding) (s : Session) : SourceCall → Session
  | .begin => { s with saved := s.saved.or (some s.journal) }
  | .commit => { s with saved := none }
  | .rollback => { journal := s.saved.getD s.journal }
  | .observe env source row date base refs origin =>
    s.writing env (sourceMessage enc env.now source row date (Assets.attach refs base) origin)
  | .update env source image viewer rest =>
    s.writing env (updating enc env source image viewer rest s.journal)
  | .write env op => if op.observes then s else s.writing env (perform enc env.now op)
  | .reset env => s.writing env (Relay.reset env.now)
  | .elsewhere f => { s with journal := besides f s.journal }
  | .evict p => { s with journal := evicted p s.journal }
  -- The cache is a temporary table of the connection.
  | .restart => { journal := evicted (fun _ _ => true) (s.saved.getD s.journal) }

end Session

def sourcing (enc : Encoding) : Machine Session SourceCall Empty where
  step := Session.step enc
  out _ _ := []

inductive Supplied (j : Journal) (source : Bytes) : Message → Prop
  | observed (refs : Bytes → Option AssetRef × Option AssetRef) (base : Message) :
    Supplied j source (Assets.attach refs base)
  | updated (image viewer : Option AssetRef → Option AssetRef) (rest : Message → Message)
    (id : Bytes) (r : MessageRow) (h : findMessage source j = some (id, r)) :
    Supplied j source (Assets.republish image viewer rest (Enrichment.full j r.record))

def uncached (j : Journal) : Journal := { j with sourceMessageCache := .empty }

section Runs

variable {enc : Encoding} {j : Journal} {s : Session}

theorem Sourced.supplied (hs : Sourced enc j) {source : Bytes} {value : Message}
    (h : Supplied j source value) : Uniform value.attachments := by
  cases h with
  | observed refs base => exact Assets.attach_uniform refs base
  | updated image viewer rest id r hfound =>
    exact Assets.republish_uniform image viewer rest
      (hs.uniform id r ((findMessage_some hs.distinct).mp hfound).1)

theorem besides_meets (f : Journal → Journal) (j : Journal) : Meets j (Session.besides f j) :=
  meets_of_identities rfl rfl rfl rfl

structure Session.Sound (enc : Encoding) (s : Session) : Prop where
  journal : Sourced enc s.journal
  saved : ∀ saved, s.saved = some saved → Sourced enc saved

theorem Session.Sound.restored (hs : s.Sound enc) : Sourced enc (s.saved.getD s.journal) := by
  cases hsaved : s.saved with
  | none => exact hs.journal
  | some saved => exact hs.saved saved hsaved

theorem Session.Sound.writing (hs : s.Sound enc) {env : Env} {m : Tx Unit}
    (hm : ∀ c c' u, c.db = s.journal → m.run c = (.ok u, c') → Sourced enc c'.db) :
    (s.writing env m).Sound enc := by
  unfold Session.writing
  split
  · exact hs
  · next saved hsaved =>
    split
    · next u c hrun => exact ⟨hm _ c u rfl hrun, hs.saved⟩
    · exact ⟨hs.saved saved hsaved, nofun⟩

theorem Session.step_sound (hfree : enc.CollisionFree) (hs : s.Sound enc) (call : SourceCall) :
    (s.step enc call).Sound enc := by
  cases call with
  | begin =>
    refine ⟨hs.journal, fun saved hsaved => ?_⟩
    have hsaved : s.saved.or (some s.journal) = some saved := hsaved
    cases hold : s.saved with
    | none =>
      rw [hold, Option.none_or, Option.some.injEq] at hsaved
      rw [← hsaved]
      exact hs.journal
    | some old =>
      rw [hold, Option.some_or] at hsaved
      exact hs.saved saved (hold.trans hsaved)
  | commit => exact ⟨hs.journal, nofun⟩
  | rollback => exact ⟨hs.restored, nofun⟩
  | observe env source row date base refs origin =>
    refine hs.writing fun c c' u hdb hrun => ?_
    exact sourceMessage_sourced hfree (hdb ▸ hs.journal) (Assets.attach_uniform refs base) hrun
  | update env source image viewer rest =>
    refine hs.writing fun c c' u hdb hrun => ?_
    unfold Session.updating at hrun
    split at hrun
    · rw [(Sql.pure_ok hrun).2, hdb]
      exact hs.journal
    · next id r hfound =>
      have huniform := hs.journal.supplied (Supplied.updated image viewer rest id r hfound)
      exact (message_settled hfree (hdb ▸ hs.journal) huniform hrun).1
  | write env op =>
    change (if op.observes then s else _).Sound enc
    by_cases hobserves : op.observes = true
    · rw [if_pos hobserves]
      exact hs
    · rw [if_neg hobserves]
      refine hs.writing fun c c' u hdb hrun => ?_
      exact perform_sourced (hdb ▸ hs.journal) (Bool.not_eq_true _ ▸ hobserves) hrun
  | reset env => exact hs.writing fun c c' u _ hrun => reset_sourced hrun
  | elsewhere f => exact ⟨hs.journal.meets (besides_meets f s.journal), hs.saved⟩
  | evict p => exact ⟨hs.journal.forget, hs.saved⟩
  | restart => exact ⟨hs.restored.forget, nofun⟩

theorem Session.run_consistent (hfree : enc.CollisionFree) (epoch : Bytes) (calls : List SourceCall) :
    ((sourcing enc).run { journal := { epoch := epoch } } calls).Sound enc := by
  have hinitial : Session.Sound enc { journal := { epoch := epoch } } :=
    ⟨sourced_of_empty enc rfl rfl rfl, nofun⟩
  exact Machine.run_invariant (I := Session.Sound enc) (sourcing enc)
    (fun _ call hs => step_sound hfree hs call) _ calls hinitial

/-- The results agree, and so do the journals without their fingerprints. -/
def Agrees (p q : Except Error Unit × Conn Journal Bytes) : Prop :=
  p.1 = q.1 ∧ p.2.fresh = q.2.fresh ∧ uncached p.2.db = uncached q.2.db

theorem agrees_refl (p : Except Error Unit × Conn Journal Bytes) : Agrees p p := ⟨rfl, rfl, rfl⟩

section Once

variable {source : Bytes} {row : Int} {value : Message} {fresh : List Bytes}
  {now date : Int} {origin : Origin}

theorem Settled.agrees (h : Settled enc j source row value) :
    Agrees (.ok (), ⟨j, [], fresh⟩)
      ((message enc now source row date value origin).run ⟨j, [], fresh⟩) := by
  rw [h.run now date origin fresh]
  exact ⟨rfl, rfl, rfl⟩

theorem sourceMessage_run (enc : Encoding) (now : Int) (source : Bytes) (row date : Int)
    (value : Message) (origin : Origin) (j : Journal) (fresh : List Bytes) :
    (sourceMessage enc now source row date value origin).run ⟨j, [], fresh⟩ =
      if (j.sourceMessageCache.rows.any fun r =>
          r.2.source = source && r.2.fingerprint = enc.fingerprint row date value) = true then
        (.ok (), ⟨j, [], fresh⟩)
      else
        (message enc now source row date value origin >>= fun _ =>
          Sql.execute (rememberSource (enc.slot source % 4096) {
            source := source, fingerprint := enc.fingerprint row date value })).run
          ⟨j, [], fresh⟩ := by
  unfold sourceMessage
  rw [Sql.bind_run]
  split_ifs with hhit <;> simp [Sql.query, Sql.statement, hhit]

theorem remember_agrees (m : Tx Unit) (slot : Nat) (entry : CachedSource) :
    Agrees ((m >>= fun _ => Sql.execute (rememberSource slot entry)).run ⟨j, [], fresh⟩)
      (m.run ⟨j, [], fresh⟩) := by
  rw [Sql.bind_run]
  cases hrun : m.run ⟨j, [], fresh⟩ with
  | mk result c' =>
    cases result with
    | error e => exact agrees_refl _
    | ok u =>
      obtain ⟨db, faults, fresh'⟩ := c'
      have hfaults : faults = [] := by simpa [hrun, Conn.calm] using Sql.run_calm hrun
      rw [hfaults]
      exact ⟨rfl, rfl, rfl⟩

theorem Sourced.hit (hfree : enc.CollisionFree) (hs : Sourced enc j)
    (h : (j.sourceMessageCache.rows.any fun r =>
      r.2.source = source && r.2.fingerprint = enc.fingerprint row date value) = true) :
    Settled enc j source row value := by
  rw [List.any_eq_true] at h
  obtain ⟨⟨slot, entry⟩, hentry, hmatch⟩ := h
  simp only [Bool.and_eq_true, decide_eq_true_eq] at hmatch
  obtain ⟨n, date', value', hfingerprint, hsettled⟩ :=
    hs.remembered slot entry ((Table.get?_eq_some_iff _ _ _).mpr hentry)
  obtain ⟨rfl, -, rfl⟩ := hfree.fingerprint _ _ _ _ _ _ (hfingerprint.symm.trans hmatch.2)
  rw [← hmatch.1]
  exact hsettled

theorem Sourced.agrees (hfree : enc.CollisionFree) (hs : Sourced enc j) :
    Agrees ((sourceMessage enc now source row date value origin).run ⟨j, [], fresh⟩)
      ((message enc now source row date value origin).run ⟨j, [], fresh⟩) := by
  rw [sourceMessage_run]
  by_cases hhit : (j.sourceMessageCache.rows.any fun r =>
      r.2.source = source && r.2.fingerprint = enc.fingerprint row date value) = true
  · rw [if_pos hhit]
    exact (hs.hit hfree hhit).agrees
  · rw [if_neg hhit]
    exact remember_agrees _ _ _

theorem Sourced.again (hfree : enc.CollisionFree) (hs : Sourced enc j)
    (hsupplied : Supplied j source value) {faults : List Bool} {u : Unit} {c : Conn Journal Bytes}
    (h : (message enc now source row date value origin).run ⟨j, faults, fresh⟩ = (.ok u, c))
    (now' : Int) (origin' : Origin) :
    Agrees ((message enc now' source row date value origin').run c.calm) (.ok (), c) := by
  obtain ⟨-, hsettled⟩ := message_settled hfree hs (hs.supplied hsupplied) h
  change Agrees ((message enc now' source row date value origin').run ⟨c.db, [], c.fresh⟩) _
  rw [hsettled.run now' date origin' c.fresh]
  exact ⟨rfl, rfl, rfl⟩

end Once

/-- Observing a message through its fingerprint leaves the journal that observing
it plainly leaves, and observing it twice that of observing it once. -/
theorem sourceMessage_transparent (enc : Encoding) (hfree : enc.CollisionFree) (epoch : Bytes)
    (calls : List SourceCall) :
    let j := ((sourcing enc).run { journal := { epoch := epoch } } calls).journal
    (∀ now source row date value origin fresh,
      Agrees ((sourceMessage enc now source row date value origin).run ⟨j, [], fresh⟩)
        ((message enc now source row date value origin).run ⟨j, [], fresh⟩)) ∧
    ∀ now source row date value origin faults fresh u c, Supplied j source value →
      (message enc now source row date value origin).run ⟨j, faults, fresh⟩ = (.ok u, c) →
      ∀ now' origin', Agrees ((message enc now' source row date value origin').run c.calm)
        (.ok (), c) := by
  have hs := (Session.run_consistent hfree epoch calls).journal
  exact ⟨fun now source row date value origin fresh => hs.agrees hfree,
    fun now source row date value origin faults fresh u c hsupplied h now' origin' =>
      hs.again hfree hsupplied h now' origin'⟩

end Runs

section Unary

instance instCountableUInt8 : Countable UInt8 :=
  Function.Injective.countable (f := UInt8.toNat) fun _ _ h => UInt8.toNat_inj.mp h

deriving instance Countable for EnrichmentStatus, AssetVariant, Availability, AssetRef, PartMapping,
  Aggregate, Enrichment, MessagePartKind, MessagePart, LinkPreview, ReactionActor, Reaction,
  ReactionOperation, ReactionResolution, ReactionEvent, Attachment, Direction, MessageKind,
  Decoding, ObservedStatus, Message

variable {α : Type} [Countable α]

/-- A digest in unary: as long as the number of the value. -/
noncomputable def unaryDigest (a : α) : Bytes :=
  List.replicate ((exists_injective_nat α).choose a) 0

theorem unaryDigest_injective : Function.Injective (unaryDigest : α → Bytes) := fun _ _ h =>
  (exists_injective_nat α).choose_spec (List.replicate_left_injective 0 h)

noncomputable def unary : Encoding where
  attachment _ := 100
  preview _ := 100
  reaction _ := 100
  part _ := 100
  envelope _ _ := 100
  record _ := 100
  attachmentsDigest := unaryDigest
  previewsDigest := unaryDigest
  reactionsDigest := unaryDigest
  partsDigest := unaryDigest
  fingerprint row date v := unaryDigest (row, date, v)
  slot _ := 0

theorem unary_collisionFree : unary.CollisionFree where
  attachments := unaryDigest_injective
  previews := unaryDigest_injective
  reactions := unaryDigest_injective
  parts := unaryDigest_injective
  fingerprint row date v row' date' v' h := by
    have h := unaryDigest_injective h
    rw [Prod.mk.injEq, Prod.mk.injEq] at h
    exact h

end Unary

def importing : List SourceCall := [
  .begin,
  .write { now := 1, fresh := [text "c"] } (.conversation (text "chat") 1 (text "chat")
    { service := text "imessage" } .historicalImport),
  .commit]

def hello : Message where
  conversationId := text "c"
  sender := []
  direction := .outgoing
  service := text "imessage"
  timestamp := text "2024-01-01T00:00:00Z"
  kind := .text
  text := some (text "hello")
  decoding := .plain
  observedStatus := .sent

theorem sourceMessage_transparent_hello :
    let j := ((sourcing unary).run { journal := { epoch := text "e" } } importing).journal
    let c : Conn Journal Bytes := ⟨j, [], [text "m"]⟩
    let again := ((message unary 2 (text "guid") 1 1 hello .live).run c).2
    Agrees ((sourceMessage unary 2 (text "guid") 1 1 hello .live).run c)
        ((message unary 2 (text "guid") 1 1 hello .live).run c) ∧
      ((message unary 2 (text "guid") 1 1 hello .live).run c).1 = .ok () ∧
      Agrees ((message unary 3 (text "guid") 1 1 hello .reconciliation).run again.calm)
        (.ok (), again) := by
  have h := sourceMessage_transparent unary unary_collisionFree (text "e") importing
  have hok : ((message unary 2 (text "guid") 1 1 hello .live).run
      ⟨((sourcing unary).run { journal := { epoch := text "e" } } importing).journal, [],
        [text "m"]⟩).1 = .ok () := by
    rfl
  exact ⟨h.1 _ _ _ _ _ _ _, hok,
    h.2 2 (text "guid") 1 1 hello .live [] [text "m"] () _ (.observed (fun _ => (none, none)) hello)
      (Prod.ext hok rfl) 3 .reconciliation⟩

end Zimbr.Relay
