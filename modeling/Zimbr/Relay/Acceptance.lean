import Zimbr.Relay.Projection

set_option autoImplicit false

/-!
# Idempotent acceptance

The answer to an invalid, stale or known request is a function of the journal
alone; it needs no automation and writes nothing.
-/
namespace Zimbr.Relay
open Library

/-- A call of `acceptAttachments` by a device, or of `accept`. -/
def acceptBy (now : Int) (input : SendInput) (ready : Bool) : Option Bytes → Tx Accepted
  | none => accept now input ready
  | some owner => acceptAttachments now input ready owner

/-- The answer to a retry. Another device's request is indistinguishable from an
absent upload. -/
def retryAnswer (j : Journal) (input : SendInput) (owner : Option Bytes) (row : SendRequestRow) :
    Except Error Accepted :=
  if input.attachments ≠ [] ∧ j.sendOwners.get? input.requestId ≠ owner then .error .uploadNotFound
  else if row.payload = input then .ok { record := row.record, fresh := false }
  else .error .requestConflict

/-- The answer to a request that is not new. -/
def answer (j : Journal) (input : SendInput) (owner : Option Bytes) :
    Option (Except Error Accepted) :=
  if owner = none ∧ input.attachments ≠ [] then some (.error .unsupportedAttachments)
  else match validate input with
  | .error e => some (.error (Error.ofInput e))
  | .ok () =>
    if input.serverEpoch ≠ j.epoch then some (.error .resyncRequired)
    else (j.sendRequests.get? input.requestId).map (retryAnswer j input owner)

section Calm

variable {j : Journal} {fresh : List Bytes} {now : Int} {input : SendInput} {ready : Bool}
  {owner : Option Bytes} {row : SendRequestRow}

theorem acceptExisting_run (hentry : input.attachments ≠ [] → owner ≠ none) :
    (acceptExisting input owner row).run ⟨j, [], fresh⟩ =
      (retryAnswer j input owner row, ⟨j, [], fresh⟩) := by
  have hpayload : (do
      Sql.require (row.payload = input) .requestConflict
      return { record := row.record, fresh := false } : Tx Accepted).run ⟨j, [], fresh⟩ =
      (if row.payload = input then .ok { record := row.record, fresh := false }
        else .error .requestConflict, ⟨j, [], fresh⟩) := by
    by_cases hsame : row.payload = input <;> simp [Sql.bind_run, hsame]
  by_cases hfiles : input.attachments = []
  · simp only [acceptExisting, retryAnswer, hfiles, ne_eq, not_true_eq_false, if_false, false_and]
    exact hpayload
  · obtain ⟨device, hdevice⟩ := Option.ne_none_iff_exists'.mp (hentry hfiles)
    subst hdevice
    cases howner : j.sendOwners.get? input.requestId with
    | none => simp [acceptExisting, retryAnswer, hfiles, Sql.bind_run, howner]
    | some owner' =>
      by_cases hsame : owner' = device
      · by_cases hpay : row.payload = input <;>
          simp [acceptExisting, retryAnswer, hfiles, Sql.bind_run, howner, hsame, hpay]
      · simp [acceptExisting, retryAnswer, hfiles, Sql.bind_run, howner, hsame]

theorem acceptImpl_run {answer : Except Error Accepted} (hvalid : validate input = .ok ())
    (h : answer = .error .resyncRequired ∧ input.serverEpoch ≠ j.epoch ∨
      input.serverEpoch = j.epoch ∧ ∃ row, j.sendRequests.get? input.requestId = some row ∧
        (acceptExisting input owner row).run ⟨j, [], fresh⟩ = (answer, ⟨j, [], fresh⟩)) :
    (acceptImpl now input ready owner).run ⟨j, [], fresh⟩ = (answer, ⟨j, [], fresh⟩) := by
  rcases h with ⟨rfl, hstale⟩ | ⟨hcurrent, row, hrow, hexisting⟩
  · simp [acceptImpl, hvalid, Except.mapError, Sql.bind_run, Sql.transaction_run_calm, hstale]
  · simp only [acceptImpl, hvalid, Except.mapError, Sql.bind_run, Sql.lift_run,
      Sql.transaction_run_calm, Sql.query_run_calm, Sql.require_run, hcurrent, decide_true, if_true,
      hrow, hexisting]
    cases answer <;> rfl

/-- Without a storage failure the call gives the answer and writes nothing. -/
theorem acceptBy_run {a : Except Error Accepted} (h : answer j input owner = some a) :
    (acceptBy now input ready owner).run ⟨j, [], fresh⟩ = (a, ⟨j, [], fresh⟩) := by
  unfold answer at h
  by_cases hentry : owner = none ∧ input.attachments ≠ []
  · rw [if_pos hentry, Option.some.injEq] at h
    obtain ⟨rfl, hfiles⟩ := hentry
    rw [← h]
    simp [acceptBy, accept, hfiles, Sql.bind_run]
  · rw [if_neg hentry] at h
    have hentry : input.attachments ≠ [] → owner ≠ none := fun hfiles howner =>
      hentry ⟨howner, hfiles⟩
    have himpl : (acceptBy now input ready owner).run ⟨j, [], fresh⟩ =
        (acceptImpl now input ready owner).run ⟨j, [], fresh⟩ := by
      cases owner with
      | none =>
        have hfiles : input.attachments = [] := by
          by_contra hfiles
          exact hentry hfiles rfl
        simp [acceptBy, accept, hfiles, Sql.bind_run]
      | some owner => rfl
    rw [himpl]
    cases hvalid : validate input with
    | error e =>
      rw [hvalid] at h
      dsimp only at h
      rw [Option.some.injEq] at h
      rw [← h]
      simp [acceptImpl, hvalid, Except.mapError, Sql.bind_run]
    | ok u =>
      rw [hvalid] at h
      dsimp only at h
      by_cases hepoch : input.serverEpoch ≠ j.epoch
      · rw [if_pos hepoch, Option.some.injEq] at h
        exact acceptImpl_run hvalid (Or.inl ⟨h.symm, hepoch⟩)
      · rw [if_neg hepoch, Option.map_eq_some_iff] at h
        obtain ⟨row, hrow, h⟩ := h
        refine acceptImpl_run hvalid (Or.inr ⟨not_not.mp hepoch, row, hrow, ?_⟩)
        rw [acceptExisting_run hentry, h]

end Calm

variable {c c' : Conn Journal Bytes} {now : Int} {input : SendInput} {ready : Bool}
  {owner : Option Bytes}

theorem acceptBy_aborts : Sql.Aborts (acceptBy now input ready owner) := by
  cases owner with
  | none => exact .bind .require fun _ => acceptImpl_aborts input ready none
  | some owner => exact acceptImpl_aborts input ready (some owner)

/-- The answer to a request that is not new, with any storage failure. -/
theorem acceptBy_answers {a : Except Error Accepted} (h : answer c.db input owner = some a) :
    ((acceptBy now input ready owner).run c).2.db = c.db ∧
      (((acceptBy now input ready owner).run c).1 = a ∨
        ((acceptBy now input ready owner).run c).1 = .error .databaseFailure) := by
  have hcalm : (acceptBy now input ready owner).run c.calm = (a, c.calm) := acceptBy_run h
  exact acceptBy_aborts.answers hcalm

theorem inserted_known {enc : Encoding} {p : Process} {actions before after : List Action}
    {env : Env} {owner : Bytes} (h : p.Valid)
    (hactions : actions = before ++ .critical env (.post input ready owner) :: after)
    (hw : .inserted input.requestId ∈ (relay enc).out ((relay enc).run p before)
      (.critical env (.post input ready owner))) :
    ∃ row, ((relay enc).run p actions).journal.sendRequests.get? input.requestId = some row ∧
      row.payload = input ∧ (input.attachments ≠ [] →
        ((relay enc).run p actions).journal.sendOwners.get? input.requestId = some owner) := by
  have hbefore : ((relay enc).run p before).Valid := run_valid h before
  rcases mem_out hw with ⟨invocation, work, heq, -⟩ | ⟨env', s, c', id, heq, hrun, -, -, hjournal⟩
  · exact nomatch heq
  · rw [Action.critical.injEq] at heq
    rw [← heq.1, ← heq.2] at hrun
    obtain ⟨a, c₁, haccept, hrun⟩ := Sql.bind_ok hrun
    obtain ⟨hinserted, hc'⟩ := Sql.pure_ok hrun
    have hfresh : a.fresh = true := by
      by_contra hfresh
      rw [if_neg hfresh] at hinserted
      exact nomatch hinserted
    obtain ⟨-, -, hcase⟩ := accepting_ok haccept
    rcases hcase with ⟨-, -, haccepted⟩ | ⟨-, row, -, -, ha, -⟩
    · obtain ⟨route, time, hrows⟩ := haccepted.rows
      have hrow := hrows input.requestId
      have howner := haccepted.owners input.requestId
      rw [if_pos rfl] at hrow
      have he : Evolves c₁.db ((relay enc).run p actions).journal := by
        have hj : c₁.db = ((relay enc).step ((relay enc).run p before)
            (.critical env (.post input ready owner))).journal := by
          rw [← hc']
          exact hjournal.symm
        rw [hj, hactions, Machine.run_append, Machine.run_cons]
        exact run_evolves (hbefore.step _).1 after
      obtain ⟨row', hrow', -, hpayload, -⟩ := he.rows _ _ hrow
      refine ⟨row', hrow', hpayload, fun hfiles => he.owners _ _ ?_⟩
      rw [howner, if_pos ⟨rfl, hfiles⟩, if_neg hfiles]
    · rw [ha] at hfresh
      exact nomatch hfresh

/-- Over every run, a request is inserted at most once and keeps its payload and
its device; a failed call writes nothing; and a call for an invalid, a stale or
a known request gives its answer, or the storage's failure, and writes nothing. -/
theorem accept_idempotent (enc : Encoding) {p : Process} (initial : p.Initial)
    (actions : List Action) :
    (∀ id, ((relay enc).emitted p actions).count (.inserted id) ≤ 1) ∧
    (∀ before env input ready owner after,
      actions = before ++ .critical env (.post input ready owner) :: after →
      .inserted input.requestId ∈ (relay enc).out ((relay enc).run p before)
        (.critical env (.post input ready owner)) →
      ∃ row, ((relay enc).run p actions).journal.sendRequests.get? input.requestId = some row ∧
        row.payload = input ∧ (input.attachments ≠ [] →
          ((relay enc).run p actions).journal.sendOwners.get? input.requestId = some owner)) ∧
    ∀ (env : Env) input ready owner,
      let j := ((relay enc).run p actions).journal
      let r := (acceptBy env.now input ready owner).run (((relay enc).run p actions).conn env)
      (∀ e, r.1 = .error e → r.2.db = j) ∧
      ∀ a, answer j input owner = some a →
        r.2.db = j ∧ (r.1 = a ∨ r.1 = .error .databaseFailure) := by
  refine ⟨fun id => ?_, fun before env input ready owner after hactions hw => ?_,
    fun env input ready owner => ⟨fun e he => ?_, fun a ha => ?_⟩⟩
  · exact List.nodup_iff_count_le_one.mp (emitted_nodup initial.valid actions) _
  · exact inserted_known initial.valid hactions hw
  · exact acceptBy_aborts _ e _ (Prod.ext he rfl)
  · exact acceptBy_answers ha

namespace Sample

def nextEpoch : Bytes := text "CAAAAAAAAAAAAAAAAAAAAA"

def file : Upload where
  id := text "DAAAAAAAAAAAAAAAAAAAAA"
  name := text "photo.png"
  mimeType := text "image/png"
  bytes := text "1"
  sha256 := List.replicate 64 48

def emptyStale : SendInput := { hello with serverEpoch := nextEpoch, text := [] }

def helloFile : SendInput := { hello with attachments := [file] }

end Sample

/-- A stale call that is invalid is told so, and a different payload with a file
is answered as an unknown upload. -/
theorem accept_idempotent_order :
    let q := (relay Sample.encoding).run (.new Sample.epoch) Sample.markHello
    Sample.emptyStale.serverEpoch ≠ q.journal.epoch ∧
    ((acceptBy 3 Sample.emptyStale true none).run { db := q.journal }).1 =
      .error .invalidRequest ∧
    ((q.journal.sendRequests.get? Sample.helloFile.requestId).any fun row =>
      decide (row.payload ≠ Sample.helloFile)) = true ∧
    ((acceptBy 3 Sample.helloFile true (some [1])).run { db := q.journal }).1 =
      .error .uploadNotFound := by
  refine ⟨by decide +kernel, ?_, by decide +kernel, ?_⟩
  · rfl
  · rfl

theorem accept_idempotent_hello :
    let q := (relay Sample.encoding).run (.new Sample.epoch) Sample.markHello
    ((acceptBy 3 Sample.hello false none).run (q.conn { now := 3 })).2.db = q.journal := by
  intro q
  have hknown : (q.journal.sendRequests.get? Sample.requestId).isSome = true := by decide +kernel
  obtain ⟨row, hrow⟩ := Option.isSome_iff_exists.mp hknown
  have hanswer : answer q.journal Sample.hello none = some (retryAnswer q.journal Sample.hello none row) := by
    have hvalid : validate Sample.hello = .ok () := rfl
    have hepoch : Sample.hello.serverEpoch = q.journal.epoch := by decide +kernel
    rw [answer, if_neg (by decide), hvalid]
    dsimp only
    rw [if_neg (not_not.mpr hepoch)]
    change (q.journal.sendRequests.get? Sample.requestId).map _ = _
    rw [hrow]
    rfl
  exact ((accept_idempotent Sample.encoding (Process.new_initial Sample.epoch)
    Sample.markHello).2.2 { now := 3 } Sample.hello false none).2 _ hanswer |>.1

end Zimbr.Relay
