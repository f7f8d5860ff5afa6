import Mathlib.Data.List.Basic
import Mathlib.Tactic.SplitIfs
import Zimbr.Protocol.Types

set_option autoImplicit false

/-!
# Ordered attachment-send operations

A successful automation return allows the next operation, but only observation
can establish submission or delivery. `none` is a failed assertion.
-/
namespace Zimbr.Sends

inductive Outcome where
  | invoked
  | unstarted (code : String)
  | uncertain (code : String)
  deriving DecidableEq, Repr

inductive Observed where
  | submitted | delivered | failed
  deriving DecidableEq, Repr

def init (input : SendInput) : List SendPart :=
  if input.attachments = [] then []
  else (if input.text = [] then [] else [{ kind := .text }]) ++
    input.attachments.map fun file => { kind := .attachment, attachmentId := some file.id }

def nextFrom (i : Nat) : List SendPart → Option Nat
  | [] => none
  | part :: rest =>
    match part.state with
    | .queued => some i
    | .invoked | .submitted | .delivered => nextFrom (i + 1) rest
    | .dispatching | .failed | .unknown | .skipped => none

/-- The next unstarted operation, only when every predecessor can advance. -/
def next (v : SendRequest) : Option Nat := nextFrom 0 v.parts

structure Tally where
  queued : Bool := false
  dispatching : Bool := false
  stopped : Bool := false
  attempted : Bool := false
  unresolvedOrSuccessful : Bool := false
  observed : Nat := 0
  delivered : Nat := 0
  uncertain : Option SafeError := none
  deriving DecidableEq, Repr

def uncertainError (part : SendPart) : Bool :=
  part.errorInfo.any fun err => err.outcome = .uncertain

def Tally.count (t : Tally) (part : SendPart) : Tally :=
  match part.state with
  | .queued => { t with queued := true }
  | .dispatching => { t with dispatching := true }
  | .invoked => { t with attempted := true, unresolvedOrSuccessful := true }
  | .submitted =>
    { t with observed := t.observed + 1, attempted := true, unresolvedOrSuccessful := true }
  | .delivered =>
    { t with
      observed := t.observed + 1, attempted := true, unresolvedOrSuccessful := true,
      delivered := t.delivered + 1 }
  | .failed | .skipped =>
    { t with stopped := true, attempted := t.attempted || uncertainError part }
  | .unknown =>
    { t with attempted := true, unresolvedOrSuccessful := true, uncertain := part.errorInfo }

def tally (parts : List SendPart) : Tally := parts.foldl Tally.count {}

def stoppedError (t : Tally) : SafeError where
  code :=
    if t.unresolvedOrSuccessful then "partial_send"
    else if t.attempted then "observed_failure" else "dispatch_unstarted"
  message :=
    if t.unresolvedOrSuccessful then
      "Some parts were attempted; review their individual outcomes."
    else if t.attempted then "Messages reported failure for every attempted part."
    else "No part of this request was sent."
  outcome := if t.attempted then .uncertain else .unstarted

def awaitingObservation : SafeError where
  code := "awaiting_observation"
  message := "Awaiting unambiguous outgoing Messages records for every part."
  outcome := .uncertain

/-- The request state and error that `parts` determine. -/
def summary (parts : List SendPart) : SendStatus × Option SafeError :=
  let t := tally parts
  if t.dispatching then (.dispatching, none)
  else if t.stopped then
    (if t.unresolvedOrSuccessful then .unknown else .failed, some (stoppedError t))
  else if t.queued then (.queued, none)
  else if t.delivered = parts.length then (.delivered, none)
  else if t.observed = parts.length then (.submitted, none)
  else (.unknown, some (t.uncertain.getD awaitingObservation))

/-- Recompute the request outcome from its ordered parts. -/
def summarize (v : SendRequest) : Option SendRequest :=
  if v.parts = [] then none
  else some { v with
    messageId := none
    candidateMessageId := none
    state := (summary v.parts).1
    errorInfo := (summary v.parts).2 }

def start (v : SendRequest) (position : Nat) : Option SendRequest :=
  if next v = some position then
    summarize { v with parts := v.parts.modify position fun p => { p with state := .dispatching } }
  else none

def skipPart (code : String) (part : SendPart) : SendPart :=
  if part.state = .queued then
    { part with
      state := .skipped
      errorInfo := some { code := code, message := "This part was not attempted." } }
  else part

def skipQueued (parts : List SendPart) (code : String) : List SendPart :=
  parts.map (skipPart code)

def couldNotComplete (code : String) (outcome : ErrorOutcome) : SafeError where
  code := code
  message := "Messages automation could not complete this part."
  outcome := outcome

def finishPart (outcome : Outcome) (part : SendPart) : SendPart :=
  match outcome with
  | .invoked => { part with state := .invoked, errorInfo := none }
  | .unstarted code =>
    { part with state := .failed, errorInfo := some (couldNotComplete code .unstarted) }
  | .uncertain code =>
    { part with state := .unknown, errorInfo := some (couldNotComplete code .uncertain) }

/-- Failure holds all remaining operations: retrying the request never
re-invokes an attempted or uncertain part. -/
def finishParts (parts : List SendPart) (position : Nat) (outcome : Outcome) : List SendPart :=
  let parts := parts.modify position (finishPart outcome)
  if outcome = .invoked then parts else skipQueued parts "preceding_part_stopped"

def finish (v : SendRequest) (position : Nat) (outcome : Outcome) : Option SendRequest :=
  match v.parts[position]? with
  | some part =>
    if part.state = .dispatching then
      summarize { v with parts := finishParts v.parts position outcome }
    else none
  | none => none

def interruptCode (reset : Bool) : String :=
  if reset then "source_reset" else "interrupted_dispatch"

def interruptPart (reset : Bool) (part : SendPart) : SendPart :=
  let part :=
    if part.state = .dispatching then
      { part with
        state := .unknown
        errorInfo := some {
          code := interruptCode reset
          message := "Dispatch was interrupted; this part's outcome is uncertain."
          outcome := .uncertain } }
    else part
  if reset then { part with messageId := none, candidateMessageId := none } else part

def interruptParts (parts : List SendPart) (reset : Bool) : List SendPart :=
  skipQueued (parts.map (interruptPart reset)) (interruptCode reset)

/-- Hold a multipart request after a crash or epoch change. -/
def interrupt (v : SendRequest) (reset : Bool) : Option SendRequest :=
  summarize { v with parts := interruptParts v.parts reset }

def observable (part : SendPart) : Bool :=
  part.state = .invoked || part.state = .unknown || part.state = .submitted

def observePart (messageId : Bytes) (status : Observed) (part : SendPart) : SendPart :=
  { part with
    messageId := some messageId
    candidateMessageId := none
    state := match status with
      | .submitted => .submitted
      | .delivered => .delivered
      | .failed => .failed
    errorInfo :=
      if status = .failed then
        some {
          code := "observed_failure"
          message := "Messages reported failure for this part."
          outcome := .uncertain }
      else none }

def observeParts (parts : List SendPart) (position : Nat) (messageId : Bytes) (status : Observed) :
    List SendPart :=
  let parts := parts.modify position (observePart messageId status)
  if status = .failed then skipQueued parts "preceding_part_stopped" else parts

/-- Record a uniquely matched outgoing message. -/
def observe (v : SendRequest) (position : Nat) (messageId : Bytes) (status : Observed) :
    Option SendRequest :=
  match v.parts[position]? with
  | some part =>
    if observable part then
      summarize { v with parts := observeParts v.parts position messageId status }
    else none
  | none => none

section Steps

variable {v v' : SendRequest}

theorem summarize_eq_some (h : v.parts ≠ []) :
    summarize v = some { v with
      messageId := none
      candidateMessageId := none
      state := (summary v.parts).1
      errorInfo := (summary v.parts).2 } := by
  simp [summarize, h]

/-- What `summarize` leaves as it was, and what it sets. -/
theorem summarize_fields (h : summarize v = some v') :
    v.parts ≠ [] ∧ v'.parts = v.parts ∧ v'.requestId = v.requestId ∧
      v'.serverEpoch = v.serverEpoch ∧ v'.attachments = v.attachments ∧ v'.text = v.text ∧
      v'.target = v.target ∧ v'.messageId = none ∧
      v'.state = (summary v.parts).1 ∧ v'.errorInfo = (summary v.parts).2 := by
  unfold summarize at h
  split_ifs at h with hparts
  simp only [Option.some.injEq] at h
  subst h
  exact ⟨hparts, rfl, rfl, rfl, rfl, rfl, rfl, rfl, rfl, rfl⟩

end Steps

end Zimbr.Sends
