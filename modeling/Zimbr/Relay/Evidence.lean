import Zimbr.Relay.MessagesDb
import Zimbr.Relay.Observation

set_option autoImplicit false

/-!
# The evidence of an observation

The worker reads the source twice and the original files, outside the journal
lock, and publishes the only echo both reads know.
-/
namespace Zimbr.Relay.Observation
open Library MessagesDb

/-- A chat that a message is joined to, with the addresses of its handles. -/
structure JoinedChat where
  guid : Bytes
  service : Bytes
  handles : List Bytes
  deriving DecidableEq, Repr

structure SourceRow where
  row : Int
  columns : MessageColumns
  chats : List JoinedChat := []
  deriving DecidableEq, Repr

structure Reading where
  identity : Bytes
  features : Features := {}
  rows : List SourceRow := []
  deriving DecidableEq, Repr

/-- Inspect 64 send candidates per pass. -/
def maxRows : Nat := 64

def maxSourceRows : Nat := 4096

def JoinedChat.onRoute (c : JoinedChat) (mode : Mode) (route : Bytes) : Bool :=
  c.service = Zimbr.text "iMessage" && match mode with
    | .chat => c.guid = route
    | .direct => c.handles.length = 1 && c.handles.contains route

/-- An outgoing row of the window, on the route or not joined to a chat yet. -/
def eligible (work : Work) (r : SourceRow) : Bool :=
  work.floor < r.row && r.columns.isFromMe = 1 && r.columns.service = Zimbr.text "iMessage" &&
    inWindow r.columns.date work.time &&
    (r.chats = [] || r.chats.any fun c => c.onRoute work.mode work.route)

def undecodable : Decoding → Bool
  | .plain | .attributed | .empty => false
  | .unsupported | .malformed | .oversized => true

def candidateOf (m : SourceMessage) : Candidate where
  row := m.row
  date := m.date
  guid := m.source
  text := m.value.text.getD []
  hasAttachments := m.value.attachments ≠ []
  status := m.value.observedStatus

inductive Verdict where
  | other
  | doubtful
  | candidate (echo : Candidate) (filename : Option Bytes)
  deriving DecidableEq, Repr

/-- A file is selected by its name; its length and content are proved later. -/
def judge (work : Work) (m : SourceMessage) : Verdict :=
  if m.value.kind = .reaction || m.value.kind = .system then .other
  else if m.pending || undecodable m.value.decoding ||
      m.value.enrichment.any fun e => e.state = .oversized then .doubtful
  else match fileFor work with
    | none =>
      if m.value.text.getD [] = work.request.text then .candidate (candidateOf m) none else .other
    | some expected =>
      match m.value.attachments with
      | [attachment] =>
        if attachment.name ≠ expected.name then .other
        else match m.attachmentSources with
          | [source] => .candidate (candidateOf m) (some source.filename)
          | _ => .doubtful
      | attachments =>
        if attachments.any fun a => a.name = expected.name then .doubtful else .other

structure Snapshot where
  fingerprint : Bytes
  candidates : List (Candidate × Option Bytes)
  complete : Bool
  deriving DecidableEq, Repr

def Verdict.found : Verdict → Option (Candidate × Option Bytes)
  | .candidate echo filename => some (echo, filename)
  | .other | .doubtful => none

/-- Read every eligible row; `digest` is the hash of the decoded messages. -/
def snapshot (d : Decoders) (digest : List SourceMessage → Bytes) (work : Work)
    (reading : Reading) : Except Error (Option Snapshot) :=
  if reading.identity ≠ work.sourceIdentity then .ok none
  else if maxSourceRows < (reading.rows.filter fun r => work.floor < r.row).length then .ok none
  else do
    let rows := reading.rows.filter (eligible work)
    let messages ← (rows.take maxRows).mapM fun r =>
      decodeMessage d reading.features r.row r.columns
    return if maxRows < rows.length then none
      else some {
        fingerprint := digest messages
        candidates := messages.filterMap fun m => (judge work m).found
        complete := messages.all fun m => judge work m != .doubtful }

/-- What the worker finds in the attachment root: the length and the hash of the
file at a path, and whether the matched file is still the same at the end. -/
structure FileChecks where
  verify : Bytes → Option (Nat × Bytes)
  unmoved : Bool

inductive Comparison where
  | same | different | doubtful
  deriving DecidableEq, Repr

def compare (work : Work) (checks : FileChecks) (found : Candidate × Option Bytes) :
    Except Error Comparison :=
  match fileFor work, found.2 with
  | none, _ => .ok .same
  | some _, none => .error .panic
  | some file, some filename =>
    match checks.verify filename with
    | none => .ok .doubtful
    | some (bytes, sha256) => do
      let size ← (Attachments.validate file).mapError Error.ofFiles
      return if bytes = size && sha256 = file.sha256 then .same else .different

def only (candidates : List (Candidate × Option Bytes)) (results : List Comparison) :
    Option Candidate :=
  match (candidates.zip results).filter fun r => r.2 = .same with
  | [(found, _)] => if results.contains .doubtful then none else some found.1
  | _ => none

/-- The second snapshot, after the files were read, must agree with the first. -/
def confirm (d : Decoders) (digest : List SourceMessage → Bytes) (work : Work) (after : Reading)
    (checks : FileChecks) (first : Snapshot) (echo : Candidate) :
    Except Error (Option Candidate) := do
  let second ← snapshot d digest work after
  return if (second.any fun s => s.fingerprint = first.fingerprint) &&
      ((fileFor work).isNone || checks.unmoved) then some echo else none

def observe (d : Decoders) (digest : List SourceMessage → Bytes) (work : Work)
    (before after : Reading) (checks : FileChecks) : Except Error (Option Candidate) := do
  let first ← snapshot d digest work before
  match first with
  | none => return none
  | some first =>
    let results ← first.candidates.mapM (compare work checks)
    match only first.candidates results with
    | none => return none
    | some echo => if first.complete then confirm d digest work after checks first echo else return none

def receipt (d : Decoders) (work : Work) (anchor : Bytes × Int) (reading : Reading) :
    Except Error (Option Candidate) :=
  if reading.identity ≠ work.sourceIdentity then .ok none
  else match reading.rows.find? fun r => r.row = anchor.2 with
    | none => .ok none
    | some r => do
      let m ← decodeMessage d reading.features r.row r.columns
      return if m.source = anchor.1 && m.value.direction = .outgoing &&
          m.value.service = Zimbr.text "imessage" then some (candidateOf m) else none

/-- What the worker can publish for its work; a failed read publishes nothing. -/
def Publishable (d : Decoders) (digest : List SourceMessage → Bytes) (work : Work)
    (candidate : Option Candidate) : Prop :=
  (∃ part, work.request.parts[work.position]? = some part ∧ part.messageId = none ∧
    ∃ before after checks, observe d digest work before after checks = .ok candidate) ∨
  ∃ part mid, work.request.parts[work.position]? = some part ∧ part.messageId = some mid ∧
    ∃ anchor reading echo, receipt d work anchor reading = .ok (some echo) ∧ candidate = some echo

section Findings

variable {d : Decoders} {digest : List SourceMessage → Bytes} {work : Work}

def Shows (work : Work) (echo : Candidate) : Prop :=
  match fileFor work with
  | none => echo.text = work.request.text
  | some _ => echo.hasAttachments = true

theorem judge_candidate {m : SourceMessage} {echo : Candidate} {filename : Option Bytes}
    (h : judge work m = .candidate echo filename) : echo = candidateOf m ∧ Shows work echo := by
  unfold judge at h
  unfold Shows
  split at h
  · exact nomatch h
  split at h
  · exact nomatch h
  cases hfile : fileFor work with
  | none =>
    simp only [hfile] at h ⊢
    split_ifs at h with htext
    rw [Verdict.candidate.injEq] at h
    rw [← h.1]
    exact ⟨rfl, htext⟩
  | some expected =>
    simp only [hfile] at h ⊢
    split at h
    · next attachment hattachments =>
      split_ifs at h
      split at h
      · rw [Verdict.candidate.injEq] at h
        rw [← h.1]
        exact ⟨rfl, by simp [candidateOf, hattachments]⟩
      · exact nomatch h
    · split_ifs at h

theorem snapshot_ok {reading : Reading} {s : Snapshot}
    (h : snapshot d digest work reading = .ok (some s)) :
    reading.identity = work.sourceIdentity ∧ ∃ messages,
      (reading.rows.filter (eligible work)).mapM
        (fun r => decodeMessage d reading.features r.row r.columns) = .ok messages ∧
      s.fingerprint = digest messages ∧
      s.candidates = messages.filterMap (fun m => (judge work m).found) ∧
      s.complete = messages.all fun m => judge work m != .doubtful := by
  unfold snapshot at h
  split_ifs at h with hidentity hoverflow
  · simp at h
  · simp at h
  · simp only [ne_eq, not_not] at hidentity
    cases hmessages : ((reading.rows.filter (eligible work)).take maxRows).mapM fun r =>
        decodeMessage d reading.features r.row r.columns with
    | error e => simp [hmessages, bind, Except.bind] at h
    | ok messages =>
      simp only [hmessages, bind, Except.bind, pure, Except.pure, Except.ok.injEq] at h
      split_ifs at h with hrows
      rw [List.take_of_length_le (Nat.le_of_not_lt hrows)] at hmessages
      rw [Option.some.injEq] at h
      rw [← h]
      exact ⟨hidentity, messages, hmessages, rfl, rfl, rfl⟩

theorem mapM_zip {α β : Type} {f : α → Except Error β} {l : List α} {results : List β}
    (h : l.mapM f = .ok results) {a : α} (ha : a ∈ l) :
    ∃ b, f a = .ok b ∧ (a, b) ∈ l.zip results := by
  induction l generalizing results with
  | nil => exact absurd ha List.not_mem_nil
  | cons x rest ih =>
    rw [List.mapM_cons] at h
    cases hx : f x with
    | error e => simp [hx, bind, Except.bind] at h
    | ok y =>
      cases hrest : rest.mapM f with
      | error e => simp [hx, hrest, bind, Except.bind] at h
      | ok ys =>
        simp only [hx, hrest, bind, Except.bind, pure, Except.pure, Except.ok.injEq] at h
        rw [← h, List.zip_cons_cons]
        rcases List.mem_cons.mp ha with rfl | ha
        · exact ⟨y, hx, List.mem_cons_self⟩
        · obtain ⟨b, hb, hmem⟩ := ih hrest ha
          exact ⟨b, hb, List.mem_cons_of_mem _ hmem⟩

theorem mapM_source {α β : Type} {f : α → Except Error β} {l : List α} {results : List β}
    (h : l.mapM f = .ok results) {b : β} (hb : b ∈ results) : ∃ a ∈ l, f a = .ok b := by
  induction l generalizing results with
  | nil =>
    rw [List.mapM_nil] at h
    rw [← Except.ok.inj h] at hb
    exact absurd hb List.not_mem_nil
  | cons x rest ih =>
    rw [List.mapM_cons] at h
    cases hx : f x with
    | error e => simp [hx, bind, Except.bind] at h
    | ok y =>
      cases hrest : rest.mapM f with
      | error e => simp [hx, hrest, bind, Except.bind] at h
      | ok ys =>
        simp only [hx, hrest, bind, Except.bind, pure, Except.pure, Except.ok.injEq] at h
        rw [← h] at hb
        rcases List.mem_cons.mp hb with rfl | hb
        · exact ⟨x, List.mem_cons_self, hx⟩
        · obtain ⟨a, ha, hab⟩ := ih hrest hb
          exact ⟨a, List.mem_cons_of_mem _ ha, hab⟩

theorem only_unique {candidates : List (Candidate × Option Bytes)} {results : List Comparison}
    {echo : Candidate} (h : only candidates results = some echo)
    {found : Candidate × Option Bytes} (hfound : (found, .same) ∈ candidates.zip results) :
    found.1 = echo := by
  unfold only at h
  split at h
  · next found' result hsame =>
    split_ifs at h
    have hmem : (found, Comparison.same) ∈
        (candidates.zip results).filter fun r => decide (r.2 = .same) :=
      List.mem_filter.mpr ⟨hfound, rfl⟩
    rw [hsame, List.mem_singleton, Prod.mk.injEq] at hmem
    rw [hmem.1, Option.some.inj h]
  · exact nomatch h

theorem only_mem {candidates : List (Candidate × Option Bytes)} {results : List Comparison}
    {echo : Candidate} (h : only candidates results = some echo) :
    ∃ filename, (echo, filename) ∈ candidates := by
  unfold only at h
  split at h
  · next found result hsame =>
    split_ifs at h
    rw [Option.some.injEq] at h
    have hmem : (found, result) ∈ candidates.zip results :=
      (List.mem_filter.mp (hsame ▸ List.mem_singleton_self _)).1
    exact ⟨found.2, h ▸ (List.of_mem_zip hmem).1⟩
  · simp at h

theorem observe_ok {before after : Reading} {checks : FileChecks} {echo : Candidate}
    (h : observe d digest work before after checks = .ok (some echo)) :
    ∃ first second results, snapshot d digest work before = .ok (some first) ∧
      snapshot d digest work after = .ok (some second) ∧ first.complete = true ∧
      first.candidates.mapM (compare work checks) = .ok results ∧
      only first.candidates results = some echo ∧ second.fingerprint = first.fingerprint := by
  unfold observe at h
  cases hfirst : snapshot d digest work before with
  | error e => simp [hfirst, bind, Except.bind] at h
  | ok first =>
    simp only [hfirst, bind, Except.bind] at h
    cases first with
    | none => simp [pure, Except.pure] at h
    | some first =>
      cases hresults : first.candidates.mapM (compare work checks) with
      | error e => simp [hresults] at h
      | ok results =>
        simp only [hresults] at h
        cases honly : only first.candidates results with
        | none => simp [honly, pure, Except.pure] at h
        | some echo' =>
          simp only [honly] at h
          split_ifs at h with hcomplete
          · unfold confirm at h
            cases hsecond : snapshot d digest work after with
            | error e => simp [hsecond, bind, Except.bind] at h
            | ok second =>
              simp only [hsecond, bind, Except.bind, pure, Except.pure, Except.ok.injEq] at h
              split_ifs at h with hsame
              rw [Option.some.injEq] at h
              simp only [Bool.and_eq_true] at hsame
              cases second with
              | none => simp at hsame
              | some second =>
                refine ⟨first, second, results, rfl, rfl, hcomplete, hresults, h ▸ honly, ?_⟩
                simpa using hsame.1
          · simp [pure, Except.pure] at h

/-- An observation only finds echoes with the content of its part. -/
theorem observe_shows {before after : Reading} {checks : FileChecks} {echo : Candidate}
    (h : observe d digest work before after checks = .ok (some echo)) : Shows work echo := by
  obtain ⟨first, -, results, hfirst, -, -, -, honly, -⟩ := observe_ok h
  obtain ⟨-, messages, -, -, hcandidates, -⟩ := snapshot_ok hfirst
  obtain ⟨filename, hmem⟩ := only_mem honly
  rw [hcandidates, List.mem_filterMap] at hmem
  obtain ⟨m, -, hm⟩ := hmem
  cases hverdict : judge work m with
  | other => simp [hverdict, Verdict.found] at hm
  | doubtful => simp [hverdict, Verdict.found] at hm
  | candidate echo' filename' =>
    simp only [hverdict, Verdict.found, Option.some.injEq, Prod.mk.injEq] at hm
    exact hm.1 ▸ (judge_candidate hverdict).2

end Findings

end Zimbr.Relay.Observation
