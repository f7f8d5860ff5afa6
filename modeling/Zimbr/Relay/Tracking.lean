import Zimbr.Library.Machine
import Zimbr.Relay.Passes

set_option autoImplicit false

/-!
# Tracking a source

Passes over a source that another program writes, between whatever else the
relay does to its journal. A pass that fails rolls back, and a restart finds the
committed journal, so neither needs a state of its own.
-/
namespace Zimbr.Relay
open Library

structure Publication where
  row : Int
  /-- The row was inserted after the snapshot that started the import. -/
  recent : Bool
  event : Event

/-- The committed journal beside the source as it is now; all else is ghost. -/
structure Tracking where
  intake : Intake
  source : MessagesDb
  /-- The highest ROWID that the source has had. -/
  top : Int := 0
  /-- The rows given to `importRow` by the committed passes of this import. -/
  visited : List Int := []
  /-- The rows inserted after the snapshot that started this import. -/
  recent : List Int := []
  published : List Publication := []

inductive TrackCall where
  /-- Another program writes the source, and these of its rows are new. -/
  | change (db : MessagesDb) (inserted : List Int)
  | pass (env : PassEnv) (faults : List Bool) (fresh : List Bytes)
  | reset (env : PassEnv) (faults : List Bool) (fresh : List Bytes)
  /-- A history request schedules the reconciliation of a conversation. -/
  | request (cid : Bytes)
  /-- A worker writes a stored message again. -/
  | rewrite (env : PassEnv) (change : Bytes × (Message → Message)) (faults : List Bool)
    (fresh : List Bytes)
  /-- Sends, uploads and what else leaves ingestion and messages alone. -/
  | elsewhere (f : Journal → Journal) (events : List Event)

namespace Tracking

def new (epoch : Bytes) (db : MessagesDb) : Tracking where
  intake := { journal := { epoch := epoch } }
  source := db

def opening (s : Tracking) : Pass := { intake := s.intake }

def begun (s : Tracking) (faults : List Bool) (fresh : List Bytes) : Conn Pass Bytes :=
  { db := s.opening, faults := faults, fresh := fresh }

def passed (enc : Encoding) (s : Tracking) (env : PassEnv) (faults : List Bool)
    (fresh : List Bytes) : Except Error Unit × Conn Pass Bytes :=
  (Intake.pass enc { env with source := s.source }).run (s.begun faults fresh)

def begins (s : Tracking) (r : Except Error Unit × Conn Pass Bytes) : Bool :=
  r.1.isOk && ((s.opening.cursor "identity").2.isNone || r.2.db.resetReason.isSome)

def publications (recent : List Int) (p : Pass) : List Publication :=
  p.published.map fun r => { row := r.1, recent := decide (r.1 ∈ recent), event := r.2 }

def ingested (s : Tracking) (r : Except Error Unit × Conn Pass Bytes) : Tracking :=
  let kept := if s.begins r then { s with visited := [], recent := [], published := [] } else s
  { kept with
    intake := r.2.db.intake
    visited := r.2.db.rows ++ kept.visited
    published := kept.published ++ publications kept.recent r.2.db }

def wiped (s : Tracking) (r : Except Error Unit × Conn Pass Bytes) : Tracking :=
  let kept := if r.1.isOk then { s with visited := [], published := [] } else s
  { kept with intake := r.2.db.intake }

def withJournal (s : Tracking) (j : Journal) : Tracking :=
  { s with intake := { s.intake with journal := j } }

def besides (f : Journal → Journal) (events : List Event) (j : Journal) : Journal := { f j with
  epoch := j.epoch
  ingestionProgress := j.ingestionProgress
  messages := j.messages
  log := j.log ++ events.filter fun ev => decide (ev.record.kind ≠ .message) }

def step (enc : Encoding) (s : Tracking) : TrackCall → Tracking
  | .change db inserted => { s with
      source := db
      top := max s.top db.high
      recent := (inserted ++ s.recent).filter fun row => decide (row ∈ db.ids) }
  | .pass env faults fresh => s.ingested (s.passed enc env faults fresh)
  | .reset env faults fresh =>
    s.wiped ((Sql.transaction (Intake.resetIntake env)).run (s.begun faults fresh))
  | .request cid => { s with intake := { s.intake with
      reconcileChats := (s.intake.reconcileChats.insert cid 0).getD s.intake.reconcileChats } }
  | .rewrite env change faults fresh =>
    s.withJournal ((Sql.transaction (Intake.rewrite enc env change)).run
      { db := s.intake.journal, faults := faults, fresh := fresh }).2.db
  | .elsewhere f events => s.withJournal (besides f events s.intake.journal)

section Pass

variable {enc : Encoding} {s : Tracking} {env : PassEnv} {faults : List Bool} {fresh : List Bytes}
  {r : Except Error Unit × Conn Pass Bytes}

@[simp] theorem ingested_source : (s.ingested r).source = s.source := by
  unfold ingested
  dsimp only
  split_ifs <;> rfl

@[simp] theorem ingested_top : (s.ingested r).top = s.top := by
  unfold ingested
  dsimp only
  split_ifs <;> rfl

theorem ingested_visited :
    (s.ingested r).visited = r.2.db.rows ++ if s.begins r then [] else s.visited := by
  unfold ingested
  dsimp only
  split_ifs <;> rfl

theorem passed_error {err : Error} (hpass : s.passed enc env faults fresh = r)
    (h : r.1 = .error err) : s.ingested r = s := by
  have hdb : r.2.db = s.opening := Sql.transaction_error (hpass.trans (Prod.ext h rfl))
  have hbegins : s.begins r = false := by
    unfold begins
    rw [h]
    rfl
  unfold ingested
  rw [hbegins, hdb]
  simp [opening, publications]

theorem begins_ok {u : Unit} (h : r.1 = .ok u) :
    s.begins r = ((s.opening.cursor "identity").2.isNone || r.2.db.resetReason.isSome) := by
  unfold begins
  rw [h]
  rfl

theorem passed_run {u : Unit} (hpass : s.passed enc env faults fresh = r) (h : r.1 = .ok u) :
    ∃ start frontier c₁ c₂, c₁.db = s.opening ∧
      (Intake.openSource { env with source := s.source }).run c₁ = (.ok start, c₂) ∧
      c₂.db.placed "backfill" = some frontier ∧
      Intake.Scanned s.source start frontier c₂.db r.2.db ∧
      r.2.db.resetReason = c₂.db.resetReason :=
  Intake.pass_ok (hpass.trans (Prod.ext h rfl))

theorem passed_ok {u : Unit} (hpass : s.passed enc env faults fresh = r) (h : r.1 = .ok u) :
    ∃ start frontier p, Intake.Opened s.source s.opening start p ∧
      p.placed "backfill" = some frontier ∧ Intake.Scanned s.source start frontier p r.2.db ∧
      s.begins r = ((s.opening.cursor "identity").2.isNone || p.resetReason.isSome) := by
  obtain ⟨start, frontier, c₁, c₂, hdb₁, hopen, hfrontier, hscanned, hreason⟩ := passed_run hpass h
  have hopened := (Intake.openSource_ok hopen).1
  rw [hdb₁] at hopened
  exact ⟨start, frontier, c₂.db, hopened, hfrontier, hscanned, by rw [begins_ok h, hreason]⟩

theorem passed_anchored {Q : Int → Bytes → Prop} {u : Unit} (hQ : Intake.Admits Q s.source)
    (hpass : s.passed enc env faults fresh = r) (h : r.1 = .ok u)
    (hs : Anchored Q s.intake.ordinaryAnchors) : Anchored Q r.2.db.intake.ordinaryAnchors :=
  Intake.pass_anchored (e := { env with source := s.source }) hQ (hpass.trans (Prod.ext h rfl)) hs

/-- A reset that fails leaves everything, one that succeeds forgets progress and anchors. -/
theorem wiped_error {err : Error} {c : Conn Pass Bytes}
    (h : (Sql.transaction (Intake.resetIntake env)).run (s.begun faults fresh) = (.error err, c)) :
    s.wiped (.error err, c) = s := by
  have hdb : c.db = s.opening := Sql.transaction_error h
  unfold wiped
  dsimp only
  rw [hdb]
  rfl

theorem wiped_ok {u : Unit} {c : Conn Pass Bytes}
    (h : (Sql.transaction (Intake.resetIntake env)).run (s.begun faults fresh) = (.ok u, c)) :
    (s.wiped (.ok u, c)).intake.journal.ingestionProgress = .empty ∧
      (s.wiped (.ok u, c)).intake.ordinaryAnchors = .empty := by
  obtain ⟨c₁, c₂, -, -, hbody, hdb⟩ := Sql.transaction_ok h
  have hforgotten := Intake.resetIntake_ok hbody
  rw [← hdb] at hforgotten
  exact hforgotten

end Pass

end Tracking

def tracking (enc : Encoding) : Machine Tracking TrackCall Empty where
  step := Tracking.step enc
  out _ _ := []

end Zimbr.Relay
