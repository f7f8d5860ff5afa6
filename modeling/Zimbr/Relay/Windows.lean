import Zimbr.Library.Machine
import Zimbr.Relay.AttributionRuns
import Zimbr.Relay.Decisions

set_option autoImplicit false

/-!
# Confirmations and the observation window

Messages writes the source while passes and observations read it. The clock is
compared with the end of the window only after the read, so a row that came in
between is not part of the evidence.
-/
namespace Zimbr.Relay
open Library

structure Sight where
  source : MessagesDb
  /-- Ghost: how many rows had been inserted. -/
  seen : Nat

/-- The journal beside a source that grows, and what the workers have read. -/
structure Watch where
  intake : Intake
  source : MessagesDb
  clock : Int
  /-- Ghost: the rows as they were inserted, each with its time. -/
  inserted : List ((Int × MessagesDb.MessageColumns) × Int) := []
  pass : Option Sight := none
  work : Option Observation.Work := none
  before : Option Sight := none
  after : Option Sight := none

inductive WatchCall where
  | tick (ms : Nat)
  /-- Messages inserts rows; every row that was there stays. -/
  | write (db : MessagesDb)
  /-- A pass opens its snapshot. -/
  | begin
  | pass (env : PassEnv) (faults : List Bool) (fresh : List Bytes)
  | reset (env : PassEnv) (faults : List Bool) (fresh : List Bytes)
  | request (cid : Bytes)
  | rewrite (env : PassEnv) (change : Bytes × (Message → Message)) (faults : List Bool)
    (fresh : List Bytes)
  /-- Sends, uploads and what else leaves the messages alone. -/
  | elsewhere (f : Journal → Journal)
  | prepare (gate : Bool) (faults : List Bool)
  | readBefore
  | readAfter
  | publish (readReady : Bool) (checks : Observation.FileChecks) (anchor : Bytes × Int)
    (faults : List Bool)

namespace Watch

def new (epoch : Bytes) (db : MessagesDb) (clock : Int) : Watch where
  intake := { journal := { epoch := epoch } }
  source := db
  clock := clock
  inserted := db.messages.map fun m => (m, clock)

section Steps

variable (enc : Encoding) (d : Decoders) (digest : List SourceMessage → Bytes)
  (chats : Int → List Observation.JoinedChat)

def sourceRow (m : Int × MessagesDb.MessageColumns) : Observation.SourceRow where
  row := m.1
  columns := m.2
  chats := chats m.1

def reading (s : Sight) : Observation.Reading where
  identity := s.source.identity
  features := s.source.features
  rows := s.source.messages.map (sourceRow chats)

def gains (db db' : MessagesDb) : Bool :=
  db'.identity = db.identity && db'.features = db.features &&
    db.messages.all fun m => decide (m ∈ db'.messages)

def passEnv (w : Watch) (env : PassEnv) (s : Sight) : PassEnv :=
  { env with now := w.clock, source := s.source, decoders := d }

def onJournal {α : Type} (w : Watch) (m : Tx α) (faults : List Bool) (fresh : List Bytes) :
    Except Error α × Watch :=
  let (r, c) := m.run { db := w.intake.journal, faults := faults, fresh := fresh }
  (r, { w with intake := { w.intake with journal := c.db } })

def onPass (w : Watch) (m : PassTx Unit) (faults : List Bool) (fresh : List Bytes) : Watch :=
  { w with intake :=
      (m.run { db := { intake := w.intake }, faults := faults, fresh := fresh }).2.db.intake }

def candidate (w : Watch) (work : Observation.Work) (checks : Observation.FileChecks)
    (anchor : Bytes × Int) : Option (Option Observation.Candidate) := do
  let part ← work.request.parts[work.position]?
  let after ← w.after
  if part.messageId.isSome then
    ((Observation.receipt d work anchor (reading chats after)).toOption.join).map some
  else
    let before ← w.before
    (Observation.observe d digest work (reading chats before) (reading chats after) checks).toOption

def prepared (w : Watch) (gate : Bool) (faults : List Bool) : Watch :=
  match w.onJournal (Observation.prepare w.clock gate) faults [] with
  | (.ok work, w) => { w with work := work, before := none, after := none }
  | (.error _, w) => { w with work := none, before := none, after := none }

def published (w : Watch) (readReady : Bool) (checks : Observation.FileChecks)
    (anchor : Bytes × Int) (faults : List Bool) : Watch :=
  match w.work with
  | none => w
  | some work =>
    match w.candidate d digest chats work checks anchor with
    | none => w
    | some candidate =>
      { (w.onJournal (Observation.publish w.clock readReady work candidate) faults []).2 with
        work := none }

def step (w : Watch) : WatchCall → Watch
  | .tick ms => { w with clock := w.clock + ms }
  | .write db =>
    if gains w.source db then { w with
      source := db
      inserted := w.inserted ++ (db.messages.filter fun m => decide (m ∉ w.source.messages)).map
        fun m => (m, w.clock) }
    else w
  | .begin => { w with pass := some { source := w.source, seen := w.inserted.length } }
  | .pass env faults fresh =>
    match w.pass with
    | none => w
    | some s => { w.onPass (Intake.pass enc (w.passEnv d env s)) faults fresh with pass := none }
  | .reset env faults fresh =>
    w.onPass (Sql.transaction (Intake.resetIntake { env with now := w.clock })) faults fresh
  | .request cid => { w with intake := { w.intake with
      reconcileChats := (w.intake.reconcileChats.insert cid 0).getD w.intake.reconcileChats } }
  | .rewrite env change faults fresh =>
    (w.onJournal (Sql.transaction (Intake.rewrite enc { env with now := w.clock } change))
      faults fresh).2
  | .elsewhere f => { w with intake := { w.intake with journal := { f w.intake.journal with
      messages := w.intake.journal.messages
      sourceMessageCache := w.intake.journal.sourceMessageCache } } }
  | .prepare gate faults => w.prepared gate faults
  | .readBefore => { w with before := some { source := w.source, seen := w.inserted.length } }
  | .readAfter => { w with after := some { source := w.source, seen := w.inserted.length } }
  | .publish readReady checks anchor faults => w.published d digest chats readReady checks anchor faults

end Steps

section Evidence

variable (enc : Encoding) (d : Decoders) (digest : List SourceMessage → Bytes)
  (chats : Int → List Observation.JoinedChat)

def textWork (r : SendRequestRow) : Option Observation.Work := do
  let time ← r.dispatchMs
  let floor ← r.sourceFloor
  return {
    request := r.record, position := 0, time := time, floor := floor, mode := r.mode
    route := r.route, sourceIdentity := [] }

def windowEnd (work : Observation.Work) : Int := work.time + observationWindowMs

/-- A row that can be an echo, inserted before the end of the window. -/
def Possible (w : Watch) (work : Observation.Work) (i : Nat)
    (m : Int × MessagesDb.MessageColumns) : Prop :=
  ∃ t, w.inserted[i]? = some (m, t) ∧ t < windowEnd work ∧
    Observation.eligible work (sourceRow chats m) = true

def spells (work : Observation.Work) (m : Int × MessagesDb.MessageColumns) : Prop :=
  (MessagesDb.bodyText d m.2).1.getD [] = work.request.text

/-- The pass once it has opened its source, with the start of its live scan. -/
def opened (w : Watch) (env : PassEnv) (fresh : List Bytes) (s : Sight) : Option (Int × Pass) :=
  match (Intake.openSource (w.passEnv d env s)).run { db := { intake := w.intake }, fresh := fresh } with
  | (.ok start, c) => some (start, c.db)
  | (.error _, _) => none

/-- The pass when it comes to its `n`-th request. -/
def deciding (w : Watch) (env : PassEnv) (fresh : List Bytes) (s : Sight) (n : Nat) :
    Option ((Bytes × SendRequestRow) × Journal) :=
  match (Intake.decision enc (w.passEnv d env s) n).run
      { db := { intake := w.intake }, fresh := fresh } with
  | (.ok (some item), c) => some (item, c.db.intake.journal)
  | _ => none

def decoded (work : Observation.Work) (s : Sight) : Except Error (List SourceMessage) :=
  ((reading chats s).rows.filter (Observation.eligible work)).mapM fun r =>
    MessagesDb.decodeMessage d s.source.features r.row r.columns

def Distinguishes (work : Observation.Work) (before after : Sight) : Prop :=
  ∀ ms ms', decoded d chats work before = .ok ms → decoded d chats work after = .ok ms' →
    digest ms = digest ms' → ms = ms'

def Shown (work : Observation.Work) (checks : Observation.FileChecks) (w : Watch)
    (m : Int × MessagesDb.MessageColumns) : Prop :=
  ∃ v echo filename, MessagesDb.decodeMessage d w.source.features m.1 m.2 = .ok v ∧
    Observation.judge work v = .candidate echo filename ∧
    Observation.compare work checks (echo, filename) = .ok .same

/-- The decision that links a send has every possible echo of its window in its
evidence, and only one of them has the content of the send. -/
def Complete (w : Watch) (id : Bytes) : WatchCall → Prop
  | .pass env _ fresh => ∀ s n item j v mid, w.pass = some s →
      w.deciding enc d env fresh s n = some (item, j) → item.1 = id →
      item.2.record.messageId = none →
      reconciled j w.clock item.2.record item.2 = some v → v.messageId = some mid →
      ∃ work m, textWork item.2 = some work ∧ echoes j item.2 = [(mid, m)] ∧
        ∀ i row, w.Possible chats work i row → spells d work row → Imported j row.2.guid
  | .publish _ checks anchor _ => ∀ work part row latest before after echo mid v,
      w.work = some work → work.request.requestId = id → work.request.parts[work.position]? = some part →
      part.messageId = none → w.before = some before → w.after = some after →
      w.candidate d digest chats work checks anchor = some echo →
      w.intake.journal.sendRequests.get? work.request.requestId = some row →
      row.record.parts[work.position]? = some latest → latest.messageId = none →
      Observation.matched w.intake.journal work latest echo = some mid →
      Observation.published w.clock work row.record latest echo (some mid) = some (some (v, true)) →
      ∃ m, w.intake.journal.messages.get? mid = some m ∧ ∀ i row, w.Possible chats work i row →
        row ∈ before.source.messages ∧ row ∈ after.source.messages ∧
          (Shown d work checks w row → row.1 = m.sourceRow)
  | _ => True

/-- The window of the send is still open, or all its possible echoes were there when
the source was read. A pass has also imported them: it knows their messages when it
has opened the source, or they are joined and on a page that it reads. -/
def Waited (w : Watch) (id : Bytes) : WatchCall → Prop
  | .pass env _ fresh => ∀ s start p r work, w.pass = some s →
      w.opened d env fresh s = some (start, p) →
      p.intake.journal.sendRequests.get? id = some r → textWork r = some work →
      w.clock < windowEnd work ∨ ∀ i row, w.Possible chats work i row → spells d work row →
        Imported p.intake.journal row.2.guid ∨
        i < s.seen ∧ s.source.joined row.2 ∧
          (row.1 ∈ Intake.livePage s.source start ∨ row.1 ∈ Intake.recentPage s.source)
  | .publish _ _ _ _ => ∀ work before after, w.work = some work → work.request.requestId = id →
      w.before = some before → w.after = some after → w.clock < windowEnd work ∨
        (∀ i row, w.Possible chats work i row → i < after.seen) ∧
          Distinguishes d digest chats work before after
  | _ => True

end Evidence

section Invariant

/-- The sight is one of the source at an earlier time. -/
structure Saw (w : Watch) (s : Sight) : Prop where
  seen : s.seen ≤ w.inserted.length
  rows : ∀ i m t, i < s.seen → w.inserted[i]? = some (m, t) → m ∈ s.source.messages
  within : ∀ m ∈ s.source.messages, m ∈ w.source.messages
  features : s.source.features = w.source.features

structure Informed (w : Watch) : Prop where
  cached : Cached w.intake.journal
  inserted : ∀ m t, (m, t) ∈ w.inserted → m ∈ w.source.messages
  pass : ∀ s, w.pass = some s → w.Saw s
  before : ∀ s, w.before = some s → w.Saw s
  after : ∀ s, w.after = some s → w.Saw s

variable {w w' : Watch} {s : Sight}

theorem Saw.congr (h : w.Saw s) (hsource : w'.source = w.source) (hinserted : w'.inserted = w.inserted) :
    w'.Saw s := by
  obtain ⟨hseen, hrows, hwithin, hfeatures⟩ := h
  rw [← hinserted] at hseen hrows
  rw [← hsource] at hwithin hfeatures
  exact ⟨hseen, hrows, hwithin, hfeatures⟩

theorem Informed.look (h : w.Informed) :
    w.Saw { source := w.source, seen := w.inserted.length } where
  seen := le_rfl
  rows _ m t _ hm := h.inserted m t (List.mem_of_getElem? hm)
  within _ hm := hm
  features := rfl

theorem Informed.withIntake (h : w.Informed) {i : Intake} (hcached : Cached i.journal) :
    Informed { w with intake := i } where
  cached := hcached
  inserted := h.inserted
  pass s hs := (h.pass s hs).congr rfl rfl
  before s hs := (h.before s hs).congr rfl rfl
  after s hs := (h.after s hs).congr rfl rfl

theorem new_informed (epoch : Bytes) (db : MessagesDb) (clock : Int) : (new epoch db clock).Informed where
  cached _ _ hentry := nomatch hentry
  inserted m t hm := by
    obtain ⟨m', hm', heq⟩ := List.mem_map.mp hm
    rw [Prod.mk.injEq] at heq
    exact heq.1 ▸ hm'
  pass _ hs := nomatch hs
  before _ hs := nomatch hs
  after _ hs := nomatch hs

theorem Saw.write (h : w.Saw s) {db : MessagesDb} (hgains : gains w.source db = true)
    {added : List ((Int × MessagesDb.MessageColumns) × Int)} :
    Saw { w with source := db, inserted := w.inserted ++ added } s := by
  simp only [gains, Bool.and_eq_true, decide_eq_true_eq, List.all_eq_true] at hgains
  obtain ⟨⟨-, hfeatures⟩, hstay⟩ := hgains
  refine ⟨?_, fun i m t hi hm => ?_, fun m hm => hstay m (h.within m hm), h.features.trans hfeatures.symm⟩
  · have hseen := h.seen
    simp only [List.length_append]
    omega
  · have hlt : i < w.inserted.length := Nat.lt_of_lt_of_le hi h.seen
    rw [List.getElem?_append_left hlt] at hm
    exact h.rows i m t hi hm

theorem Informed.write (h : w.Informed) {db : MessagesDb} (hgains : gains w.source db = true) :
    Informed { w with
      source := db
      inserted := w.inserted ++ (db.messages.filter fun m => decide (m ∉ w.source.messages)).map
        fun m => (m, w.clock) } where
  cached := h.cached
  inserted m t hm := by
    simp only [gains, Bool.and_eq_true, List.all_eq_true, decide_eq_true_eq] at hgains
    rcases List.mem_append.mp hm with hm | hm
    · exact hgains.2 m (h.inserted m t hm)
    · obtain ⟨m', hm', heq⟩ := List.mem_map.mp hm
      rw [Prod.mk.injEq] at heq
      exact heq.1 ▸ (List.mem_filter.mp hm').1
  pass s hs := (h.pass s hs).write hgains
  before s hs := (h.before s hs).write hgains
  after s hs := (h.after s hs).write hgains

end Invariant

section Runs

variable {enc : Encoding} {d : Decoders} {digest : List SourceMessage → Bytes}
  {chats : Int → List Observation.JoinedChat} {w : Watch}

/-- A pass keeps the fingerprints it relies on, whether it commits or not. -/
theorem onPass_cached (h : w.Informed) {m : PassTx Unit} {faults : List Bool} {fresh : List Bytes}
    (hm : ∀ c u c', m.run c = (.ok u, c') → c.db.rows = [] → c.db.chats = [] →
      Cached c.db.intake.journal → Cached c'.db.intake.journal) :
    (w.onPass (Sql.transaction m) faults fresh).Informed := by
  refine h.withIntake ?_
  rcases hrun : (Sql.transaction m).run { db := { intake := w.intake }, faults := faults, fresh := fresh }
    with ⟨e | u, c'⟩
  · rw [Sql.transaction_error hrun]
    exact h.cached
  · obtain ⟨c₁, c₂, hdb₁, -, hbody, hdb₂⟩ := Sql.transaction_ok hrun
    rw [hdb₂]
    refine hm c₁ u c₂ hbody ?_ ?_ ?_
    · rw [hdb₁]
    · rw [hdb₁]
    · rw [hdb₁]
      exact h.cached

theorem onJournal_informed (h : w.Informed) {α : Type} {m : Tx α} {faults : List Bool}
    {fresh : List Bytes} (haborts : Sql.Aborts m)
    (hm : Sql.Yields (fun j j' => Cached j → Cached j') m) :
    (w.onJournal m faults fresh).2.Informed := by
  refine h.withIntake ?_
  change Cached (m.run { db := w.intake.journal, faults := faults, fresh := fresh }).2.db
  rcases hrun : m.run { db := w.intake.journal, faults := faults, fresh := fresh } with ⟨e | a, c'⟩
  · rw [haborts _ _ _ hrun]
    exact h.cached
  · exact hm _ _ _ hrun h.cached

theorem pass_cached {e : PassEnv} {c c' : Conn Pass Bytes} {u : Unit}
    (h : (Intake.openSource e >>= fun live => Intake.gather enc e live >>= fun r =>
      Sql.each (Intake.reconcileRequest enc e r.1) r.2 >>= fun _ => Intake.conclude enc e r.1).run c =
        (.ok u, c')) (hcached : Cached c.db.intake.journal) : Cached c'.db.intake.journal := by
  obtain ⟨start, c₁, hopen, h⟩ := Sql.bind_ok h
  obtain ⟨r, c₂, hgather, h⟩ := Sql.bind_ok h
  obtain ⟨_, c₃, heach, hconclude⟩ := Sql.bind_ok h
  refine (Intake.conclude_learning _ _ _ hconclude).learns.cached ?_
  refine (Sql.Yields.each (fun _ _ => Intake.reconcileRequest_learning) _ _ _ heach).learns.cached ?_
  refine (Intake.gather_gathering _ _ _ hgather).learns.cached ?_
  exact (Intake.openSource_opens _ _ _ hopen).cached hcached

theorem prepare_gathers {now : Int} {gate : Bool} :
    Sql.Yields Gathers (Observation.prepare now gate) := by
  unfold Observation.prepare
  split_ifs
  · exact Sql.Yields.pure
  · refine Sql.Yields.bind Sql.Yields.query fun item => ?_
    cases item with
    | none => exact Sql.Yields.pure
    | some item =>
      refine Sql.Yields.bind (Sql.Yields.of_reads (progress_reads _)) fun identity => ?_
      cases identity with
      | none => exact Sql.Yields.pure
      | some identity =>
        refine Sql.Yields.bind Sql.Yields.query fun work => Sql.Yields.bind Sql.Yields.orThrow fun work =>
          Sql.Yields.bind Sql.Yields.orThrow fun part => ?_
        exact Sql.Yields.bind (Sql.Yields.execute fun _ => gathers_of_eq rfl rfl rfl) fun _ =>
          Sql.Yields.pure

theorem releaseDelivered_gathers {request : SendRequest} {position : Nat} {confirmed : Bool} :
    Sql.Yields Gathers (Observation.releaseDelivered request position confirmed) := by
  refine Sql.Yields.bind Sql.Yields.orThrow fun part => ?_
  split_ifs
  · exact Sql.Yields.bind Sql.Yields.orThrow fun attachment =>
      Sql.Yields.execute fun _ => gathers_of_eq rfl rfl rfl
  · exact Sql.Yields.pure

theorem publish_cached {now : Int} {readReady : Bool} {work : Observation.Work}
    {echo : Option Observation.Candidate} {c c' : Conn Journal Bytes} {u : Unit}
    (h : (Observation.publish now readReady work echo).run c = (.ok u, c')) (hcached : Cached c.db) :
    Cached c'.db := by
  obtain ⟨epoch, c₁, hepoch, h⟩ := Sql.bind_ok h
  obtain ⟨identity, c₂, hidentity, h⟩ := Sql.bind_ok h
  rw [← (Sql.query_ok hepoch).2, ← (progress_reads "identity").ok hidentity] at hcached
  split_ifs at h
  · rw [(Sql.pure_ok h).2]
    exact hcached
  · obtain ⟨row, c₃, hrow, h⟩ := Sql.bind_ok h
    obtain ⟨row', c₄, hrow', h⟩ := Sql.bind_ok h
    obtain ⟨part, c₅, hpart, h⟩ := Sql.bind_ok h
    obtain ⟨mid, c₆, hmid, h⟩ := Sql.bind_ok h
    obtain ⟨change, c₇, hchange, h⟩ := Sql.bind_ok h
    rw [(Sql.orThrow_ok hchange).2] at h
    have hdb : c₆.db = c₂.db := by
      rw [(Sql.query_ok hmid).2, (Sql.orThrow_ok hpart).2, (Sql.orThrow_ok hrow').2,
        (Sql.query_ok hrow).2]
    rw [← hdb] at hcached
    cases change with
    | none =>
      rw [(Sql.pure_ok h).2]
      exact hcached
    | some r =>
      obtain ⟨d₁, d₂, hd₁, -, hbody, hd₂⟩ := Sql.transaction_ok h
      obtain ⟨v, d₃, hupdate, hrelease⟩ := Sql.bind_ok hbody
      have hmeets := updateRequest_meets hupdate
      rw [hd₂]
      refine (releaseDelivered_gathers _ _ _ hrelease).cached ?_
      rw [← hd₁] at hcached
      exact hcached.congr hmeets.messages hmeets.cache

theorem Informed.step (h : w.Informed) (call : WatchCall) :
    (w.step enc d digest chats call).Informed := by
  cases call with
  | tick ms =>
    exact ⟨h.cached, h.inserted, fun s hs => (h.pass s hs).congr rfl rfl,
      fun s hs => (h.before s hs).congr rfl rfl, fun s hs => (h.after s hs).congr rfl rfl⟩
  | write db =>
    simp only [Watch.step]
    split_ifs with hgains
    · exact h.write hgains
    · exact h
  | begin =>
    refine ⟨h.cached, h.inserted, fun s hs => ?_, fun s hs => (h.before s hs).congr rfl rfl,
      fun s hs => (h.after s hs).congr rfl rfl⟩
    rw [← Option.some.inj hs]
    exact h.look.congr rfl rfl
  | pass env faults fresh =>
    simp only [Watch.step]
    split
    · exact h
    · next s hs =>
      have hpass : (w.onPass (Intake.pass enc (w.passEnv d env s)) faults fresh).Informed := by
        rw [Intake.pass_eq]
        exact onPass_cached h fun _ _ _ hrun _ _ hcached => pass_cached hrun hcached
      exact ⟨hpass.cached, hpass.inserted, fun _ hs => (nomatch hs),
        fun s hs => (hpass.before s hs).congr rfl rfl, fun s hs => (hpass.after s hs).congr rfl rfl⟩
  | reset env faults fresh =>
    exact onPass_cached h fun _ _ _ hrun _ _ hcached =>
      (Intake.resetIntake_opens _ _ _ hrun).cached hcached
  | request cid => exact h.withIntake h.cached
  | rewrite env change faults fresh =>
    refine onJournal_informed h Sql.Aborts.transaction fun c u c' hrun hcached => ?_
    obtain ⟨c₁, c₂, hdb₁, -, hbody, hdb₂⟩ := Sql.transaction_ok hrun
    rw [← hdb₁] at hcached
    rw [hdb₂]
    exact (Intake.rewrite_gathers _ _ _ hbody).cached hcached
  | elsewhere f => exact h.withIntake (h.cached.congr rfl rfl)
  | prepare gate faults =>
    have hprepare : (w.onJournal (Observation.prepare w.clock gate) faults []).2.Informed :=
      onJournal_informed h (prepareObservation_aborts gate)
        (prepare_gathers.mono fun _ _ hgathers => hgathers.cached)
    simp only [Watch.step, prepared]
    split
    · next heq =>
      rw [heq] at hprepare
      exact ⟨hprepare.cached, hprepare.inserted, fun s hs => (hprepare.pass s hs).congr rfl rfl,
        fun _ hs => (nomatch hs), fun _ hs => nomatch hs⟩
    · next heq =>
      rw [heq] at hprepare
      exact ⟨hprepare.cached, hprepare.inserted, fun s hs => (hprepare.pass s hs).congr rfl rfl,
        fun _ hs => (nomatch hs), fun _ hs => nomatch hs⟩
  | readBefore =>
    refine ⟨h.cached, h.inserted, fun s hs => (h.pass s hs).congr rfl rfl, fun s hs => ?_,
      fun s hs => (h.after s hs).congr rfl rfl⟩
    rw [← Option.some.inj hs]
    exact h.look.congr rfl rfl
  | readAfter =>
    refine ⟨h.cached, h.inserted, fun s hs => (h.pass s hs).congr rfl rfl,
      fun s hs => (h.before s hs).congr rfl rfl, fun s hs => ?_⟩
    rw [← Option.some.inj hs]
    exact h.look.congr rfl rfl
  | publish readReady checks anchor faults =>
    simp only [Watch.step, published]
    split
    · exact h
    · next work hwork =>
      split
      · exact h
      · next echo hecho =>
        have hpublish : (w.onJournal (Observation.publish w.clock readReady work echo) faults []).2.Informed :=
          onJournal_informed h (publish_aborts readReady work echo)
            (fun _ _ _ hrun hcached => publish_cached hrun hcached)
        exact ⟨hpublish.cached, hpublish.inserted, fun s hs => (hpublish.pass s hs).congr rfl rfl,
          fun s hs => (hpublish.before s hs).congr rfl rfl,
          fun s hs => (hpublish.after s hs).congr rfl rfl⟩

end Runs

section Decisions

variable {enc : Encoding} {d : Decoders} {digest : List SourceMessage → Bytes}
  {chats : Int → List Observation.JoinedChat} {w : Watch}

theorem reconciled_linked {j : Journal} {now : Int} {v v' : SendRequest} {row : SendRequestRow}
    {mid : Bytes} (h : reconciled j now v row = some v') (hnone : v.messageId = none)
    (hlinked : v'.messageId = some mid) :
    ∃ work m, textWork row = some work ∧ echoes j row = [(mid, m)] ∧ windowEnd work ≤ now := by
  unfold reconciled at h
  dsimp only at h
  split at h
  · next id status hunique =>
    split at hunique
    · next id' m hfound =>
      split_ifs at hunique
      rw [Option.some.injEq, Prod.mk.injEq] at hunique
      obtain ⟨rfl, -⟩ := hunique
      have hechoes : echoes j row = [(id', m)] := by
        cases hlist : echoes j row with
        | nil => simp [hlist] at hfound
        | cons a rest =>
          cases rest with
          | nil => simpa [hlist] using hfound
          | cons b rest => simp [hlist] at hfound
      have hmem : (id', m) ∈ echoes j row := hechoes ▸ List.mem_singleton_self _
      simp only [echoes, Table.get?_select, Bool.and_eq_true, afterFloor, Option.any_eq_true] at hmem
      obtain ⟨floor, hfloor, -⟩ := hmem.2.1.1.1.1.1.1
      obtain ⟨time, htime, -⟩ := hmem.2.1.1.2
      by_cases hopen : (row.dispatchMs.all fun t => decide (now < t + observationWindowMs)) = true
      · rw [if_pos hopen] at h
        split_ifs at h
        rw [← Option.some.inj h] at hlinked
        rw [hnone] at hlinked
        cases hlinked
      · rw [if_neg hopen] at h
        rw [← Option.some.inj h, Option.some.injEq] at hlinked
        refine ⟨_, m, by rw [textWork, htime, hfloor]; rfl, hlinked ▸ hechoes, ?_⟩
        rw [htime] at hopen
        change time + observationWindowMs ≤ now
        simp only [Option.all_some, decide_eq_true_eq, not_lt] at hopen
        exact hopen
    · cases hunique
  · split_ifs at h
    rw [← Option.some.inj h] at hlinked
    rw [hnone] at hlinked
    cases hlinked

theorem columns_of_mem {db : MessagesDb} {m : Int × MessagesDb.MessageColumns}
    (hm : m ∈ db.messages) : db.columns m.1 = some m.2 := by
  have hnodup : (db.messages.map Prod.fst).Nodup := db.ascending.imp fun h => Int.ne_of_lt h
  unfold MessagesDb.columns
  cases hfound : db.messages.find? fun r => decide (r.1 = m.1) with
  | none => exact absurd (decide_eq_true rfl) (List.find?_eq_none.mp hfound m hm)
  | some m' =>
    have hrow : m'.1 = m.1 := by simpa using List.find?_some hfound
    rw [List.inj_on_of_nodup_map hnodup (List.mem_of_find?_eq_some hfound) hm hrow]
    rfl

theorem Informed.pass_complete (h : w.Informed) {id : Bytes} {env : PassEnv} {faults : List Bool}
    {fresh : List Bytes} (hwaited : w.Waited d digest chats id (.pass env faults fresh)) :
    w.Complete enc d digest chats id (.pass env faults fresh) := by
  rintro s n item j v mid hs hdeciding rfl hnone hv hmid
  obtain ⟨work, m, hwork, hechoes, hended⟩ := reconciled_linked hv hnone hmid
  refine ⟨work, m, hwork, hechoes, fun i row hpossible hspells => ?_⟩
  unfold deciding at hdeciding
  split at hdeciding
  · next item' c hrun =>
    rw [Option.some.injEq, Prod.mk.injEq] at hdeciding
    obtain ⟨rfl, rfl⟩ := hdeciding
    obtain ⟨start, c₁, hopen, hevident, hvisited, himported, hrequest⟩ :=
      Intake.decision_ok hrun h.cached rfl rfl
    have hopened : w.opened d env fresh s = some (start, c₁.db) := by
      unfold opened
      rw [hopen]
    rcases hwaited s start c₁.db _ _ hs hopened hrequest hwork with hearly | hknown
    · omega
    · rcases hknown i row hpossible hspells with hold | ⟨hseen, hjoined, hpage⟩
      · exact himported _ hold
      · obtain ⟨t, hi, -⟩ := hpossible
        have hmem := (h.pass s hs).rows i row t hseen hi
        exact hevident.rows row.1 (hvisited row.1 hpage) row.2 (columns_of_mem hmem) hjoined
  · exact nomatch hdeciding

/-- Only a message that is confirmed after the window is linked. -/
theorem published_linked {now : Int} {work : Observation.Work} {request v : SendRequest}
    {part : SendPart} {echo : Option Observation.Candidate} {mid : Bytes}
    (h : Observation.published now work request part echo (some mid) = some (some (v, true))) :
    windowEnd work ≤ now := by
  unfold Observation.published at h
  dsimp only at h
  by_cases hended : windowEnd work ≤ now
  · exact hended
  · have hopen : (decide (work.time + observationWindowMs ≤ now)) = false := decide_eq_false hended
    simp only [Option.isSome_some, Bool.true_and, hopen] at h
    split_ifs at h
    all_goals first
      | contradiction
      | simp at h

theorem decoded_row {features : MessagesDb.Features} {row : Int} {c : MessagesDb.MessageColumns}
    {v : SourceMessage} (h : MessagesDb.decodeMessage d features row c = .ok v) : v.row = row := by
  unfold MessagesDb.decodeMessage at h
  cases htimestamp : MessagesDb.timestamp c.date with
  | error e =>
    rw [htimestamp] at h
    exact nomatch h
  | ok timestamp =>
    rw [htimestamp] at h
    rw [← Except.ok.inj h]

/-- An observation that met its condition publishes on all its evidence. -/
theorem Informed.publish_complete (h : w.Informed) {id : Bytes} {readReady : Bool}
    {checks : Observation.FileChecks} {anchor : Bytes × Int} {faults : List Bool}
    (hwaited : w.Waited d digest chats id (.publish readReady checks anchor faults)) :
    w.Complete enc d digest chats id (.publish readReady checks anchor faults) := by
  intro work part row latest before after echo mid v hwork hid hpart hnone hbefore hafter hcandidate hrow
    hlatest hfree hmatched hpublished
  obtain ⟨found, m, hecho, hmatching, -⟩ := matched_spec hmatched
  have hmem := List.mem_of_find?_eq_some hmatching
  have hstored : w.intake.journal.messages.get? mid = some m :=
    (Table.get?_eq_some_iff _ _ _).mpr hmem
  have hrowOf : m.sourceRow = found.row := by
    have hfound := List.find?_some hmatching
    simp only [Bool.and_eq_true, decide_eq_true_eq] at hfound
    exact hfound.1.1.1.2
  have hobserve : Observation.observe d digest work (reading chats before) (reading chats after) checks =
      .ok (some found) := by
    simp only [candidate, hpart, hafter, hbefore, hnone, Option.bind_eq_bind, Option.bind_some,
      Option.isSome_none, Bool.false_eq_true, if_false] at hcandidate
    cases hrun : Observation.observe d digest work (reading chats before) (reading chats after) checks with
    | error e =>
      rw [hrun] at hcandidate
      exact nomatch hcandidate
    | ok result =>
      rw [hrun] at hcandidate
      rw [← hecho, ← Option.some.inj hcandidate]
  obtain ⟨first, second, results, hfirst, hsecond, -, hresults, honly, hfingerprint⟩ :=
    Observation.observe_ok hobserve
  obtain ⟨-, ms, hms, hdigest, hcandidates, -⟩ := Observation.snapshot_ok hfirst
  obtain ⟨-, ms', hms', hdigest', -, -⟩ := Observation.snapshot_ok hsecond
  rcases hwaited work before after hwork hid hbefore hafter with hearly | ⟨hseen, hdistinguishes⟩
  · have hended := published_linked hpublished
    omega
  have hsame : ms = ms' := hdistinguishes ms ms' hms hms'
    (hdigest.symm.trans (hfingerprint.symm.trans hdigest'))
  refine ⟨m, hstored, fun i x hpossible => ?_⟩
  have hlater := hseen i x hpossible
  obtain ⟨t, hi, -, heligible⟩ := hpossible
  have hafterSaw := h.after after hafter
  have hbeforeSaw := h.before before hbefore
  have hx := hafterSaw.rows i x t hlater hi
  -- Both reads decoded the same messages, so the first one had the row as well.
  have hread : sourceRow chats x ∈ (reading chats after).rows.filter (Observation.eligible work) :=
    List.mem_filter.mpr ⟨List.mem_map.mpr ⟨x, hx, rfl⟩, heligible⟩
  obtain ⟨v', hv', hzip⟩ := Observation.mapM_zip hms' hread
  have hv'mem : v' ∈ ms := hsame ▸ (List.of_mem_zip hzip).2
  obtain ⟨r, hr, hdecoded⟩ := Observation.mapM_source hms hv'mem
  obtain ⟨y, hy, rfl⟩ := List.mem_map.mp (List.mem_filter.mp hr).1
  have hkey : y.1 = x.1 := (decoded_row hdecoded).symm.trans (decoded_row hv')
  have hnodup : (w.source.messages.map Prod.fst).Nodup :=
    w.source.ascending.imp fun h => Int.ne_of_lt h
  have hyx : y = x := List.inj_on_of_nodup_map hnodup (hbeforeSaw.within y hy)
    (hafterSaw.within x hx) hkey
  refine ⟨hyx ▸ hy, hx, fun hshown => ?_⟩
  obtain ⟨v'', echo', filename, hv'', hjudge, hcompare⟩ := hshown
  have hdecode : MessagesDb.decodeMessage d w.source.features x.1 x.2 = .ok v' := by
    rw [← hafterSaw.features]
    exact hv'
  rw [hdecode, Except.ok.injEq] at hv''
  have hcandidate : (echo', filename) ∈ first.candidates := by
    rw [hcandidates, List.mem_filterMap]
    exact ⟨v', hv'mem, by rw [hv'', hjudge]; rfl⟩
  obtain ⟨comparison, hcomparison, hzip⟩ := Observation.mapM_zip hresults hcandidate
  rw [hcompare, Except.ok.injEq] at hcomparison
  have hfound := Observation.only_unique honly (hcomparison ▸ hzip)
  rw [hrowOf, ← hfound, (Observation.judge_candidate hjudge).1, ← hv'']
  exact (decoded_row hdecode).symm

end Decisions

end Watch

def watching (enc : Encoding) (d : Decoders) (digest : List SourceMessage → Bytes)
    (chats : Int → List Observation.JoinedChat) : Machine Watch WatchCall Empty where
  step := Watch.step enc d digest chats
  out _ _ := []

theorem run_informed (enc : Encoding) (d : Decoders) (digest : List SourceMessage → Bytes)
    (chats : Int → List Observation.JoinedChat) (epoch : Bytes) (db : MessagesDb) (clock : Int)
    (calls : List WatchCall) :
    ((watching enc d digest chats).run (.new epoch db clock) calls).Informed :=
  (watching enc d digest chats).run_invariant (I := Watch.Informed)
    (fun _ call h => Watch.Informed.step h call) _ calls (Watch.new_informed epoch db clock)

/-- In every run, a decision about a send that met its condition has all its evidence. -/
theorem confirmed_on_evidence (enc : Encoding) (d : Decoders) (digest : List SourceMessage → Bytes)
    (chats : Int → List Observation.JoinedChat) (epoch : Bytes) (db : MessagesDb) (clock : Int)
    (calls : List WatchCall) (call : WatchCall) (id : Bytes)
    (waited : ((watching enc d digest chats).run (.new epoch db clock) calls).Waited d digest chats
      id call) :
    ((watching enc d digest chats).run (.new epoch db clock) calls).Complete enc d digest chats id
      call := by
  have hinformed := run_informed enc d digest chats epoch db clock calls
  cases call with
  | pass env faults fresh => exact hinformed.pass_complete waited
  | publish readReady checks anchor faults => exact hinformed.publish_complete waited
  | _ => trivial

namespace Sample

def helloColumns (guid : String) : MessagesDb.MessageColumns where
  guid := text guid
  date := appleNs 2
  isFromMe := 1
  service := text "iMessage"
  text := text "hello"
  isSent := 1
  isFinished := 1
  chatId := 1

def helloChats : List (Int × MessagesDb.ChatColumns) := [(1, {
  guid := helloRoute, service := text "iMessage", participants := [text "+15550100"] })]

def noEcho : MessagesDb where
  identity := text "i"
  chats := helloChats
  ascending := MessagesDb.empty.ascending
  bounded := MessagesDb.empty.bounded
  chatsAscending := by decide

def oneEcho : MessagesDb where
  identity := text "i"
  messages := [(1, helloColumns "a")]
  chats := helloChats
  ascending := by decide
  bounded := by decide
  chatsAscending := by decide

def twoEchoes : MessagesDb where
  identity := text "i"
  messages := [(1, helloColumns "a"), (2, helloColumns "b")]
  chats := helloChats
  ascending := by decide
  bounded := by decide
  chatsAscending := by decide

def joinedHello (_ : Int) : List Observation.JoinedChat :=
  [{ guid := helloRoute, service := text "iMessage", handles := [text "+15550100"] }]

def helloEnv : PassEnv where
  now := 0
  source := noEcho
  decoders := noDecoders
  assets := fun _ m => (m.value.attachments, m.value.linkPreviews)
  reactionEvent := fun _ _ _ => none

def watchingHello : Machine Watch WatchCall Empty :=
  watching encoding noDecoders (fun _ => []) joinedHello

def sentHello : List WatchCall := [
  .elsewhere fun _ => ((relay encoding).run (.new epoch) runHello).journal,
  .tick 2, .write oneEcho]

/-- A second echo comes at 10001, after the snapshot; the window ends at 10002. -/
def racedHello : List WatchCall := sentHello ++ [.tick 9999, .begin, .write twoEchoes, .tick 1]

/-- The snapshot is taken at the end of the window. -/
def waitedHello : List WatchCall := sentHello ++ [.tick 10000, .begin]

def helloIds : List Bytes := [text "CAAAAAAAAAAAAAAAAAAAAA", text "DAAAAAAAAAAAAAAAAAAAAA",
  text "EAAAAAAAAAAAAAAAAAAAAA", text "FAAAAAAAAAAAAAAAAAAAAA"]

def passHello : WatchCall := .pass helloEnv [] helloIds

end Sample

def Sample.missing (w : Watch) (r : (Bytes × SendRequestRow) × Journal) : Bool :=
  r.1.1 = Sample.requestId && r.1.2.record.messageId.isNone &&
    ((reconciled r.2 w.clock r.1.2.record r.1.2).bind SendRequest.messageId).isSome &&
    ((Watch.textWork r.1.2).any fun work => work.time = 2 && work.request.text = text "hello" &&
      Observation.eligible work (Watch.sourceRow joinedHello (2, helloColumns "b"))) &&
    r.2.messages.rows.all fun m => m.2.source ≠ text "b"

/-- The window ends at 10002, the second echo came at 10001, and the pass at 10002
links the first one without it. -/
theorem confirmed_on_evidence_raced :
    let w := Sample.watchingHello.run (.new Sample.epoch Sample.noEcho 0) Sample.racedHello
    linked (Sample.watchingHello.step w Sample.passHello).intake.journal (Sample.requestId, none) =
        some (text "EAAAAAAAAAAAAAAAAAAAAA") ∧
      ¬ w.Complete Sample.encoding Sample.noDecoders (fun _ => []) Sample.joinedHello
        Sample.requestId Sample.passHello := by
  intro w
  refine ⟨by decide +kernel, fun hcomplete => ?_⟩
  have hmissing : (w.deciding Sample.encoding Sample.noDecoders Sample.helloEnv Sample.helloIds
      { source := Sample.oneEcho, seen := 1 } 0).any (Sample.missing w) = true := by decide +kernel
  rw [Option.any_eq_true] at hmissing
  obtain ⟨⟨item, j⟩, hdeciding, hmissing⟩ := hmissing
  simp only [Sample.missing, Bool.and_eq_true, Option.any_eq_true, decide_eq_true_eq,
    List.all_eq_true, Option.isNone_iff_eq_none, ne_eq] at hmissing
  obtain ⟨⟨⟨⟨hid, hnone⟩, hlinked⟩, work, hwork, ⟨htime, htext⟩, heligible⟩, habsent⟩ := hmissing
  obtain ⟨mid, hmid⟩ := Option.isSome_iff_exists.mp hlinked
  obtain ⟨v, hv, hmid⟩ := Option.bind_eq_some_iff.mp hmid
  obtain ⟨work', m, hwork', -, himported⟩ :=
    hcomplete _ 0 item j v mid rfl hdeciding hid hnone hv hmid
  rw [hwork, Option.some.injEq] at hwork'
  subst hwork'
  have hpossible : w.Possible Sample.joinedHello work 1 (2, Sample.helloColumns "b") :=
    ⟨10001, by decide +kernel, by rw [Watch.windowEnd, htime]; decide, heligible⟩
  obtain ⟨id, r, hr, hsource⟩ := himported 1 _ hpossible htext.symm
  exact habsent (id, r) ((Table.get?_eq_some_iff _ _ _).mp hr) hsource

theorem confirmed_on_evidence_waited :
    let w := Sample.watchingHello.run (.new Sample.epoch Sample.noEcho 0) Sample.waitedHello
    linked (Sample.watchingHello.step w Sample.passHello).intake.journal (Sample.requestId, none) =
        some (text "EAAAAAAAAAAAAAAAAAAAAA") ∧
      w.Complete Sample.encoding Sample.noDecoders (fun _ => []) Sample.joinedHello
        Sample.requestId Sample.passHello := by
  intro w
  refine ⟨by decide +kernel, confirmed_on_evidence Sample.encoding Sample.noDecoders (fun _ => [])
    Sample.joinedHello Sample.epoch Sample.noEcho 0 Sample.waitedHello Sample.passHello
    Sample.requestId ?_⟩
  intro s start p r work hs hopened hr hwork
  refine Or.inr fun i row hpossible hspells => Or.inr ?_
  have hinserted : w.inserted = [((1, Sample.helloColumns "a"), 2)] := by decide +kernel
  have hsight : s = { source := Sample.oneEcho, seen := 1 } := by
    have hpass : w.pass = some { source := Sample.oneEcho, seen := 1 } := rfl
    rw [← Option.some.inj (hpass.symm.trans hs)]
  obtain ⟨t, hi, -⟩ := hpossible
  change w.inserted[i]? = some (row, t) at hi
  rw [hinserted] at hi
  obtain ⟨hlt, hrow⟩ := List.getElem?_eq_some_iff.mp hi
  obtain rfl : i = 0 := by
    simp only [List.length_singleton] at hlt
    omega
  obtain ⟨rfl, -⟩ := Prod.mk.inj hrow
  subst hsight
  have hjoined : Sample.oneEcho.joined (Sample.helloColumns "a") :=
    ⟨by decide, by decide, _, List.mem_singleton_self _, rfl⟩
  exact ⟨by decide, hjoined, Or.inr (by decide +kernel)⟩

end Zimbr.Relay
