import Zimbr.Relay.SendsSummary

set_option autoImplicit false

/-!
# Multipart sends, call by call

One attachment request under the calls the relay makes on it. The sender holds
at most one part in flight; recovery, a reset and a lost result end that hold.
-/
namespace Zimbr.Sends
open Library

structure Multipart where
  request : SendRequest
  /-- The part whose automation the sender is running. -/
  inflight : Option Nat := none
  /-- Every part whose automation was reported run, timed out or interrupted. -/
  attempts : List Nat := []
  deriving DecidableEq, Repr

inductive Call where
  | start
  | finish (outcome : Outcome)
  | observe (position : Nat) (messageId : Bytes) (status : Observed)
  | interrupt (reset : Bool)
  | abandon
  deriving DecidableEq, Repr

/-- The guard of the caller: the queue and reset queries select by state, the
sender finishes what it started, and publication checks the part it matched. -/
def Multipart.due (s : Multipart) : Call → Bool
  | .start => s.request.state = .queued && s.inflight.isNone
  | .finish _ => s.inflight.isSome
  | .observe position _ _ => s.request.parts[position]?.any observable
  | .interrupt false => s.request.state = .dispatching
  | .interrupt true =>
    s.request.state = .queued || s.request.state = .dispatching ||
      s.request.state = .submitted || s.request.state = .unknown
  | .abandon => true

def interruptedError (reset : Bool) : SafeError where
  code := interruptCode reset
  message :=
    if reset then "Relay state changed; this request is held for review."
    else "Dispatch was interrupted; delivery is uncertain."
  outcome := .uncertain

def Outcome.attempted : Outcome → Bool
  | .unstarted _ => false
  | .invoked | .uncertain _ => true

def dispatchingAt (parts : List SendPart) : List Nat :=
  (List.range parts.length).filter fun i => parts[i]?.any fun p => p.state = .dispatching

/-- One call; `none` is a failed assertion or an unwrapped null. -/
def Multipart.apply (s : Multipart) : Call → Option Multipart
  | .start => do
    let position ← next s.request
    let request ← Sends.start s.request position
    some { s with request := request, inflight := some position }
  | .finish outcome => do
    let position ← s.inflight
    let request ← Sends.finish s.request position outcome
    some {
      request := request
      inflight := none
      attempts := if outcome.attempted then position :: s.attempts else s.attempts }
  | .observe position messageId status => do
    let request ← Sends.observe s.request position messageId status
    some { s with request := request }
  | .interrupt reset => do
    let request ← Sends.interrupt s.request reset
    some {
      request := { request with state := .unknown, errorInfo := some (interruptedError reset) }
      inflight := none
      attempts := dispatchingAt s.request.parts ++ s.attempts }
  | .abandon => some { s with inflight := none }

/-- A call whose guard fails is not made. -/
def Multipart.step (s : Multipart) (c : Call) : Multipart :=
  if s.due c then (s.apply c).getD s else s

def multipart : Machine Multipart Call Unit where
  step := Multipart.step
  out _ _ := []

structure Initial (v : SendRequest) : Prop where
  parts : v.parts ≠ []
  state : v.state = .queued
  error : v.errorInfo = none
  queued : ∀ p ∈ v.parts, p.state = .queued

/-- The stored state is the summary, or the hold a recovery or reset wrote. -/
def Reported (v : SendRequest) : Prop :=
  (v.state = (summary v.parts).1 ∧ v.errorInfo = (summary v.parts).2) ∨
    (v.state = .unknown ∧ (∃ e, v.errorInfo = some e ∧ e.outcome = .uncertain) ∧
      ∃ p ∈ v.parts, p.state ≠ .delivered)

structure Multipart.Valid (s : Multipart) : Prop where
  nonempty : s.request.parts ≠ []
  ordered : Ordered s.request.parts
  reported : Reported s.request
  inflight : ∀ i, s.inflight = some i →
    ∃ p, s.request.parts[i]? = some p ∧ p.state = .dispatching
  attempts : ∀ i ∈ s.attempts, ∃ p, s.request.parts[i]? = some p ∧ possiblyExecuted p = true

theorem ordered_of_queued {parts : List SendPart} (h : ∀ p ∈ parts, p.state = .queued) :
    Ordered parts := by
  have hq {i : Nat} {p : SendPart} (hp : parts[i]? = some p) : p.state = .queued :=
    h p (List.mem_of_getElem? hp)
  refine ⟨?_, ?_, ?_, ?_⟩
  · intro i j p q hi _ hd _
    simp [hq hi] at hd
  · intro i j p q _ hi _ _
    exact Or.inl (hq hi)
  · intro i j p q _ _ hj _
    exact hq hj
  · intro i p hi
    simp [Explained, hq hi]

theorem summary_of_queued {parts : List SendPart} (hne : parts ≠ [])
    (h : ∀ p ∈ parts, p.state = .queued) : summary parts = (.queued, none) := by
  have hdispatching : (parts.any fun p => p.state = .dispatching) = false :=
    not_any fun p hp => by simp [h p hp]
  have hstopped : parts.any stopped = false := not_any fun p hp => by simp [stopped, h p hp]
  have hqueued : (parts.any fun p => p.state = .queued) = true := by
    obtain ⟨p, rest, rfl⟩ := List.exists_cons_of_ne_nil hne
    exact List.any_eq_true.mpr ⟨p, List.mem_cons_self, by simpa using h p List.mem_cons_self⟩
  simp [summary_eq, hdispatching, hstopped, hqueued]

theorem Initial.valid {v : SendRequest} (h : Initial v) : Multipart.Valid { request := v } where
  nonempty := h.parts
  ordered := ordered_of_queued h.queued
  reported := Or.inl (by rw [summary_of_queued h.parts h.queued, h.state, h.error]; exact ⟨rfl, rfl⟩)
  inflight := nofun
  attempts := nofun

section Steps

variable {s : Multipart}

theorem Reported.queued_next {v : SendRequest} (ho : Ordered v.parts) (h : (summary v.parts).1 = .queued) :
    ∃ i, next v = some i :=
  ho.next_isSome (summary_queued h).1 (summary_queued h).2

/-- A request stored as queued has a next part: the sender's unwrap succeeds. -/
theorem Multipart.Valid.next_isSome (h : s.Valid) (hs : s.request.state = .queued) :
    ∃ i, next s.request = some i := by
  rcases h.reported with ⟨hstate, -⟩ | ⟨hstate, -⟩
  · exact Reported.queued_next h.ordered (hstate ▸ hs)
  · simp [hstate] at hs

/-- Each operation that succeeds stores the summary of the parts it leaves. -/
theorem summarize_reported {v v' : SendRequest} (h : summarize v = some v') : Reported v' := by
  obtain ⟨-, hparts, -, -, -, -, -, -, hstate, herror⟩ := summarize_fields h
  exact Or.inl (by rw [hparts]; exact ⟨hstate, herror⟩)

theorem parts_ne_nil_of_get {parts parts' : List SendPart} {f : Nat → SendPart → SendPart}
    (hget : ∀ k, parts'[k]? = (parts[k]?).map (f k)) (h : parts ≠ []) : parts' ≠ [] := by
  rintro rfl
  obtain ⟨p, rest, rfl⟩ := List.exists_cons_of_ne_nil h
  simpa using hget 0

theorem finishAt_executed {position k : Nat} {outcome : Outcome} {p : SendPart}
    (hp : possiblyExecuted p = true) (hk : position ≠ k) :
    possiblyExecuted (finishAt position outcome k p) = true := by
  have hne : p.state ≠ .queued := by
    intro hq
    simp [possiblyExecuted, hq] at hp
  simp [finishAt, hk, skipPart_of_ne hne, hp]

theorem observeAt_executed {position k : Nat} {messageId : Bytes} {status : Observed} {p : SendPart}
    (hp : possiblyExecuted p = true) :
    possiblyExecuted (observeAt position messageId status k p) = true := by
  have hne : p.state ≠ .queued := by
    intro hq
    simp [possiblyExecuted, hq] at hp
  by_cases hk : position = k
  · cases status <;> simp [observeAt, hk, observePart, possiblyExecuted, uncertainError, skipPart]
  · simp [observeAt, hk, skipPart_of_ne hne, hp]

theorem interruptPart_executed {reset : Bool} {p : SendPart}
    (hp : possiblyExecuted p = true ∨ p.state = .dispatching) :
    possiblyExecuted (interruptAt reset p) = true := by
  have hstate := interruptPart_state reset p
  have hne : (interruptPart reset p).state ≠ .queued := by
    rw [hstate]
    split_ifs with hd
    · nofun
    · intro hq
      rcases hp with hp | hp
      · simp [possiblyExecuted, hq] at hp
      · exact hd hp
  rw [interruptAt, skipPart_of_ne hne]
  by_cases hd : p.state = .dispatching
  · simp [possiblyExecuted, hstate, hd]
  · have hexecuted := hp.resolve_right hd
    cases reset <;> simpa [interruptPart, hd, possiblyExecuted, uncertainError] using hexecuted

theorem summarize_some {v : SendRequest} (h : v.parts ≠ []) :
    ∃ v', summarize v = some v' ∧ v'.parts = v.parts ∧ Reported v' := by
  refine ⟨_, summarize_eq_some h, rfl, ?_⟩
  exact summarize_reported (summarize_eq_some h)

theorem start_some {v : SendRequest} {i : Nat} (hne : v.parts ≠ []) (hi : next v = some i) :
    ∃ v', start v i = some v' ∧
      v'.parts = v.parts.modify i (fun p => { p with state := .dispatching }) ∧ Reported v' := by
  have hmod := parts_ne_nil_of_get
    (fun k => getElem?_modify_ite v.parts i k fun p => { p with state := .dispatching }) hne
  simpa [start, hi] using summarize_some
    (v := { v with parts := v.parts.modify i fun p => { p with state := .dispatching } }) hmod

theorem finish_some {v : SendRequest} {i : Nat} {p : SendPart} (outcome : Outcome)
    (hp : v.parts[i]? = some p) (hd : p.state = .dispatching) :
    ∃ v', finish v i outcome = some v' ∧ v'.parts = finishParts v.parts i outcome ∧
      Reported v' := by
  have hne : v.parts ≠ [] := by
    rintro h
    simp [h] at hp
  have hmod := parts_ne_nil_of_get (finishParts_get v.parts i outcome) hne
  simpa [finish, hp, hd] using
    summarize_some (v := { v with parts := finishParts v.parts i outcome }) hmod

theorem observe_some {v : SendRequest} {i : Nat} {p : SendPart} (messageId : Bytes)
    (status : Observed) (hp : v.parts[i]? = some p) (ho : observable p = true) :
    ∃ v', observe v i messageId status = some v' ∧
      v'.parts = observeParts v.parts i messageId status ∧ Reported v' := by
  have hne : v.parts ≠ [] := by
    rintro h
    simp [h] at hp
  have hmod := parts_ne_nil_of_get (observeParts_get v.parts i messageId status) hne
  simpa [observe, hp, ho] using
    summarize_some (v := { v with parts := observeParts v.parts i messageId status }) hmod

theorem interrupt_some {v : SendRequest} (reset : Bool) (hne : v.parts ≠ []) :
    ∃ v', interrupt v reset = some v' ∧ v'.parts = interruptParts v.parts reset ∧ Reported v' := by
  have hmod := parts_ne_nil_of_get (f := fun _ => interruptAt reset)
    (interruptParts_get v.parts reset) hne
  exact summarize_some (v := { v with parts := interruptParts v.parts reset }) hmod

theorem interruptParts_delivered {parts : List SendPart} {reset : Bool}
    (h : ∀ p ∈ interruptParts parts reset, p.state = .delivered) :
    ∀ p ∈ parts, p.state = .delivered := by
  intro p hp
  have hmem : interruptAt reset p ∈ interruptParts parts reset := by
    simp only [interruptParts, skipQueued, List.map_map]
    exact List.mem_map_of_mem hp
  have hd := h _ hmem
  rw [interruptAt, skipPart_state, interruptPart_state] at hd
  split_ifs at hd
  exact hd

/-- A request that a recovery or a reset selects is not fully delivered. -/
theorem Reported.interrupted {v : SendRequest} (h : Reported v) (hs : v.state ≠ .delivered) :
    ∃ p ∈ v.parts, p.state ≠ .delivered := by
  rcases h with ⟨hstate, -⟩ | ⟨-, -, hp⟩
  · by_contra hall
    push Not at hall
    exact hs (hstate.trans ((summary_delivered_iff v.parts).mpr hall))
  · exact hp

/-- Every call the relay makes succeeds and keeps the request valid. -/
theorem Multipart.Valid.apply (h : s.Valid) {c : Call} (hc : s.due c = true) :
    ∃ s', s.apply c = some s' ∧ s'.Valid := by
  cases c with
  | start =>
    simp only [Multipart.due, Bool.and_eq_true, decide_eq_true_eq] at hc
    obtain ⟨i, hi⟩ := h.next_isSome hc.1
    obtain ⟨p, hp, hq, hpre⟩ := next_spec hi
    obtain ⟨v', hv', hparts, hreported⟩ := start_some h.nonempty hi
    have hget (k : Nat) : v'.parts[k]? =
        (s.request.parts[k]?).map fun p => if i = k then { p with state := .dispatching } else p := by
      rw [hparts, getElem?_modify_ite]
    refine ⟨{ s with request := v', inflight := some i }, by simp [Multipart.apply, hi, hv'],
      parts_ne_nil_of_get hget h.nonempty, ?_, hreported, ?_, ?_⟩
    · rw [hparts]
      exact h.ordered.started ⟨p, hp, hq, hpre⟩
    · rintro j ⟨⟩
      exact ⟨{ p with state := .dispatching }, by simp [hget, hp], rfl⟩
    · intro j hj
      obtain ⟨q, hget_j, hexecuted⟩ := h.attempts j hj
      have hij : i ≠ j := by
        rintro rfl
        rw [hp, Option.some.injEq] at hget_j
        simp [← hget_j, possiblyExecuted, hq] at hexecuted
      exact ⟨q, by simp [hget, hget_j, hij], hexecuted⟩
  | finish outcome =>
    obtain ⟨i, hi⟩ := Option.isSome_iff_exists.mp hc
    obtain ⟨p, hp, hd⟩ := h.inflight i hi
    obtain ⟨v', hv', hparts, hreported⟩ := finish_some outcome hp hd
    have hget (k : Nat) : v'.parts[k]? = (s.request.parts[k]?).map (finishAt i outcome k) := by
      rw [hparts, finishParts_get]
    refine ⟨⟨v', none, if outcome.attempted then i :: s.attempts else s.attempts⟩, by simp [Multipart.apply, hi, hv'],
      parts_ne_nil_of_get hget h.nonempty, ?_, hreported, fun _ habsurd => (by cases habsurd), ?_⟩
    · rw [hparts]
      exact h.ordered.finished hp hd
    · have kept : ∀ j ∈ s.attempts, ∃ q, v'.parts[j]? = some q ∧ possiblyExecuted q = true := by
        intro j hj
        obtain ⟨q, hget_j, hexecuted⟩ := h.attempts j hj
        have hij : i ≠ j := by
          rintro rfl
          rw [hp, Option.some.injEq] at hget_j
          simp [← hget_j, possiblyExecuted, hd] at hexecuted
        exact ⟨finishAt i outcome j q, by simp [hget, hget_j], finishAt_executed hexecuted hij⟩
      have current (ho : possiblyExecuted (finishAt i outcome i p) = true) :
          ∀ j ∈ i :: s.attempts, ∃ q, v'.parts[j]? = some q ∧ possiblyExecuted q = true := by
        intro j hj
        rcases List.mem_cons.mp hj with rfl | hj
        · exact ⟨_, by rw [hget, hp]; rfl, ho⟩
        · exact kept j hj
      cases outcome with
      | invoked => exact current (by simp [finishAt, finishPart, possiblyExecuted])
      | unstarted code => exact kept
      | uncertain code =>
        exact current (by simp [finishAt, finishPart, skipPart, possiblyExecuted])
  | observe position messageId status =>
    obtain ⟨p, hp, ho⟩ := (Option.any_eq_true _ _).mp hc
    obtain ⟨v', hv', hparts, hreported⟩ := observe_some messageId status hp ho
    have hget (k : Nat) :
        v'.parts[k]? = (s.request.parts[k]?).map (observeAt position messageId status k) := by
      rw [hparts, observeParts_get]
    refine ⟨{ s with request := v' }, by simp [Multipart.apply, hv'],
      parts_ne_nil_of_get hget h.nonempty, ?_, hreported, ?_, ?_⟩
    · rw [hparts]
      exact h.ordered.observed hp ho
    · intro i hi
      obtain ⟨q, hq, hd⟩ := h.inflight i hi
      have hne : position ≠ i := by
        rintro rfl
        rw [hp, Option.some.injEq] at hq
        simp [observable, hq, hd] at ho
      refine ⟨q, ?_, hd⟩
      have hskip : skipPart "preceding_part_stopped" q = q := skipPart_of_ne (by simp [hd])
      simp [hget, hq, observeAt, hne, hskip]
    · intro j hj
      obtain ⟨q, hq, hexecuted⟩ := h.attempts j hj
      exact ⟨_, by rw [hget, hq]; rfl, observeAt_executed hexecuted⟩
  | interrupt reset =>
    obtain ⟨v', hv', hparts, hreported⟩ := interrupt_some reset h.nonempty
    have hget (k : Nat) : v'.parts[k]? = (s.request.parts[k]?).map (interruptAt reset) := by
      rw [hparts, interruptParts_get]
    have hstate : s.request.state ≠ .delivered := by
      intro hdelivered
      cases reset <;> simp [Multipart.due, hdelivered] at hc
    refine ⟨⟨{ v' with state := .unknown, errorInfo := some (interruptedError reset) }, none,
        dispatchingAt s.request.parts ++ s.attempts⟩, by simp [Multipart.apply, hv'],
      parts_ne_nil_of_get (f := fun _ => interruptAt reset) hget h.nonempty, ?_,
      Or.inr ⟨rfl, ⟨_, rfl, rfl⟩, ?_⟩, fun _ habsurd => (by cases habsurd), ?_⟩
    · change Ordered v'.parts
      rw [hparts]
      exact h.ordered.interrupted reset
    · change ∃ p ∈ v'.parts, p.state ≠ .delivered
      obtain ⟨p, hp, hne⟩ := h.reported.interrupted hstate
      by_contra hall
      push Not at hall
      rw [hparts] at hall
      exact hne (interruptParts_delivered hall p hp)
    · intro j hj
      obtain ⟨q, hq, hexecuted⟩ : ∃ q, s.request.parts[j]? = some q ∧
          (possiblyExecuted q = true ∨ q.state = .dispatching) := by
        rcases List.mem_append.mp hj with hj | hj
        · obtain ⟨q, hq, hd⟩ := (Option.any_eq_true _ _).mp (List.mem_filter.mp hj).2
          exact ⟨q, hq, Or.inr (by simpa using hd)⟩
        · obtain ⟨q, hq, hexecuted⟩ := h.attempts j hj
          exact ⟨q, hq, Or.inl hexecuted⟩
      exact ⟨_, by rw [hget, hq]; rfl, interruptPart_executed hexecuted⟩
  | abandon =>
    exact ⟨_, rfl, h.nonempty, h.ordered, h.reported, fun _ habsurd => (by cases habsurd), h.attempts⟩

theorem Multipart.Valid.step (h : s.Valid) (c : Call) : (s.step c).Valid := by
  unfold Multipart.step
  split_ifs with hc
  · obtain ⟨s', hs', hvalid⟩ := h.apply hc
    rwa [hs', Option.getD_some]
  · exact h

theorem Multipart.Valid.run (h : s.Valid) (calls : List Call) : (multipart.run s calls).Valid :=
  multipart.run_invariant (I := Multipart.Valid) (fun _ c hs => hs.step c) s calls h

def withdrawn (p : SendPart) : SendPart :=
  { p with messageId := none, candidateMessageId := none }

theorem Multipart.Valid.step_delivered (h : s.Valid) (c : Call) {i : Nat} {p : SendPart}
    (hp : s.request.parts[i]? = some p) (hd : p.state = .delivered) :
    ∃ q, (s.step c).request.parts[i]? = some q ∧
      (q = p ∨ (c = .interrupt true ∧ q = withdrawn p)) := by
  have hskip (code : String) : skipPart code p = p := skipPart_of_ne (by simp [hd])
  unfold Multipart.step
  split_ifs with hc
  swap
  · exact ⟨p, hp, Or.inl rfl⟩
  cases c with
  | start =>
    simp only [Multipart.due, Bool.and_eq_true, decide_eq_true_eq] at hc
    obtain ⟨j, hj⟩ := h.next_isSome hc.1
    obtain ⟨q, hq, hqueued, -⟩ := next_spec hj
    obtain ⟨v', hv', hparts, -⟩ := start_some h.nonempty hj
    have hne : j ≠ i := by
      rintro rfl
      rw [hp, Option.some.injEq] at hq
      simp [hq, hqueued] at hd
    refine ⟨p, ?_, Or.inl rfl⟩
    simp [Multipart.apply, hj, hv', hparts, hp, hne]
  | finish outcome =>
    obtain ⟨j, hj⟩ := Option.isSome_iff_exists.mp hc
    obtain ⟨q, hq, hdispatching⟩ := h.inflight j hj
    obtain ⟨v', hv', hparts, -⟩ := finish_some outcome hq hdispatching
    have hne : j ≠ i := by
      rintro rfl
      rw [hp, Option.some.injEq] at hq
      simp [hq, hdispatching] at hd
    refine ⟨p, ?_, Or.inl rfl⟩
    simp [Multipart.apply, hj, hv', hparts, finishParts_get, hp, finishAt, hne, hskip]
  | observe position messageId status =>
    obtain ⟨q, hq, ho⟩ := (Option.any_eq_true _ _).mp hc
    obtain ⟨v', hv', hparts, -⟩ := observe_some messageId status hq ho
    have hne : position ≠ i := by
      rintro rfl
      rw [hp, Option.some.injEq] at hq
      simp [← hq, observable, hd] at ho
    refine ⟨p, ?_, Or.inl rfl⟩
    simp [Multipart.apply, hv', hparts, observeParts_get, hp, observeAt, hne, hskip]
  | interrupt reset =>
    obtain ⟨v', hv', hparts, -⟩ := interrupt_some reset h.nonempty
    have hget : v'.parts[i]? = some (interruptAt reset p) := by
      rw [hparts, interruptParts_get, hp]
      rfl
    refine ⟨interruptAt reset p, by simpa [Multipart.apply, hv'] using hget, ?_⟩
    cases reset with
    | false => exact Or.inl (by simp [interruptAt, interruptPart, hd, hskip])
    | true =>
      have hskip' : skipPart (interruptCode true) (withdrawn p) = withdrawn p :=
        skipPart_of_ne (by simp [withdrawn, hd])
      exact Or.inr ⟨rfl, by simpa [interruptAt, interruptPart, hd, withdrawn] using hskip'⟩
  | abandon => exact ⟨p, hp, Or.inl rfl⟩

theorem Multipart.Valid.run_delivered (h : s.Valid) (calls : List Call) {i : Nat} {p : SendPart}
    (hp : s.request.parts[i]? = some p) (hd : p.state = .delivered) :
    ∃ q, (multipart.run s calls).request.parts[i]? = some q ∧
      (q = p ∨ (Call.interrupt true ∈ calls ∧ q = withdrawn p)) := by
  induction calls generalizing s p with
  | nil => exact ⟨p, hp, Or.inl rfl⟩
  | cons c rest ih =>
    obtain ⟨q, hq, hcase⟩ := h.step_delivered c hp hd
    have hqd : q.state = .delivered := by
      rcases hcase with rfl | ⟨-, rfl⟩ <;> exact hd
    obtain ⟨r, hr, hlater⟩ := ih (h.step c) hq hqd
    refine ⟨r, hr, ?_⟩
    rcases hcase with rfl | ⟨rfl, rfl⟩
    · rcases hlater with rfl | ⟨hmem, rfl⟩
      · exact Or.inl rfl
      · exact Or.inr ⟨List.mem_cons_of_mem c hmem, rfl⟩
    · refine Or.inr ⟨List.mem_cons_self, ?_⟩
      rcases hlater with rfl | ⟨-, rfl⟩ <;> rfl

end Steps

section Results

variable {v : SendRequest}

theorem Ordered.queued_none {parts : List SendPart} (h : Ordered parts)
    (hstop : ∃ p ∈ parts, p.state = .failed ∨ p.state = .unknown ∨ p.state = .skipped) :
    ∀ q ∈ parts, q.state ≠ .queued := by
  obtain ⟨p, hp, hstate⟩ := hstop
  intro q hq hqueued
  obtain ⟨i, hi⟩ := List.mem_iff_getElem?.mp hp
  obtain ⟨j, hj⟩ := List.mem_iff_getElem?.mp hq
  rcases Nat.lt_trichotomy i j with hij | rfl | hij
  · rcases h.pending i j p q hij hi hj hqueued with hs | (hs | hs | hs) | hs <;> simp_all
  · rw [hi, Option.some.injEq] at hj
    simp_all
  · have := h.tail j i q p hij hj hi hqueued
    simp_all

/-- The parts of a multipart send stay in order under every sequence of calls,
and no call the relay makes fails an assertion. -/
theorem multipart_run_ordered (hv : Initial v) (calls : List Call) :
    let s := multipart.run { request := v } calls
    let parts := s.request.parts
    (∀ c, s.due c = true → (s.apply c).isSome = true) ∧
    (∀ (i j : Nat) (p q : SendPart), parts[i]? = some p → parts[j]? = some q →
      p.state = .dispatching → q.state = .dispatching → i = j) ∧
    (∀ (i j : Nat) (p q : SendPart), i < j → parts[i]? = some p → parts[j]? = some q →
      q.state = .queued →
        p.state = .queued ∨ p.state = .invoked ∨ p.state = .submitted ∨ p.state = .delivered ∨
          p.state = .dispatching) ∧
    ((∃ p ∈ parts, p.state = .failed ∨ p.state = .unknown ∨ p.state = .skipped) →
      ∀ q ∈ parts, q.state ≠ .queued) ∧
    (∀ (later : List Call) (i : Nat) (p : SendPart), parts[i]? = some p → p.state = .delivered →
      ∃ q, (multipart.run s later).request.parts[i]? = some q ∧ q.state = .delivered ∧
        (q = p ∨ (Call.interrupt true ∈ later ∧ q = withdrawn p))) ∧
    ((s.request.state = .queued ∨ (summary parts).1 = .queued) → ∃ i, next s.request = some i) := by
  intro s parts
  have hs : s.Valid := hv.valid.run calls
  refine ⟨?_, hs.ordered.single, ?_, hs.ordered.queued_none, ?_, ?_⟩
  · intro c hc
    obtain ⟨s', hs', -⟩ := hs.apply hc
    rw [hs']
    rfl
  · intro i j p q hij hi hj hq
    rcases hs.ordered.pending i j p q hij hi hj hq with h | (h | h | h) | h <;> simp [h]
  · intro later i p hp hd
    obtain ⟨q, hq, hcase⟩ := hs.run_delivered later hp hd
    refine ⟨q, hq, ?_, hcase⟩
    rcases hcase with rfl | ⟨-, rfl⟩ <;> exact hd
  · rintro (h | h)
    · exact hs.next_isSome h
    · exact Reported.queued_next hs.ordered h

def photo (id : UInt8) : SendPart := { kind := .attachment, attachmentId := some [id] }

def twoPhotos : SendRequest where
  requestId := text "request"
  serverEpoch := text "epoch"
  target := {}
  text := []
  parts := [photo 1, photo 2]

theorem twoPhotos_initial : Initial twoPhotos where
  parts := by decide
  state := rfl
  error := rfl
  queued := by decide

theorem multipart_run_ordered_twoPhotos :
    let s := multipart.run { request := twoPhotos } [.start, .finish .invoked, .start]
    (∀ c, s.due c = true → (s.apply c).isSome = true) ∧
      ∀ (i j : Nat) (p q : SendPart), s.request.parts[i]? = some p →
        s.request.parts[j]? = some q → p.state = .dispatching → q.state = .dispatching → i = j := by
  have h := multipart_run_ordered twoPhotos_initial [.start, .finish .invoked, .start]
  exact ⟨h.1, h.2.1⟩

/-- Before anything starts, the predecessor of a queued part is itself queued. -/
theorem twoPhotos_predecessor_queued :
    ¬ ∀ (v : SendRequest), Initial v → ∀ (calls : List Call) (i j : Nat) (p q : SendPart), i < j →
      (multipart.run { request := v } calls).request.parts[i]? = some p →
      (multipart.run { request := v } calls).request.parts[j]? = some q → q.state = .queued →
      p.state = .invoked ∨ p.state = .submitted ∨ p.state = .delivered ∨ p.state = .dispatching := by
  intro h
  have := h twoPhotos twoPhotos_initial [] 0 1 (photo 1) (photo 2) (by decide) rfl rfl rfl
  revert this
  decide

/-- The stored summary of a multipart send never overstates or understates what
its parts went through, under every sequence of calls. -/
theorem multipart_run_reported (hv : Initial v) (calls : List Call) :
    let s := multipart.run { request := v } calls
    let parts := s.request.parts
    (s.request.state = .delivered ↔ ∀ p ∈ parts, p.state = .delivered) ∧
    ((summary parts).1 = .delivered ↔ ∀ p ∈ parts, p.state = .delivered) ∧
    (s.request.state = .failed ∨ (summary parts).1 = .failed → ∀ p ∈ parts,
      p.state ≠ .invoked ∧ p.state ≠ .submitted ∧ p.state ≠ .delivered ∧ p.state ≠ .unknown ∧
        p.state ≠ .dispatching) ∧
    (∀ e, s.request.errorInfo = some e ∨ (summary parts).2 = some e → e.outcome = .unstarted →
      s.attempts = [] ∧ ∀ p ∈ parts, (p.state = .failed ∨ p.state = .skipped) ∧
        ∃ e', p.errorInfo = some e' ∧ e'.outcome = .unstarted) ∧
    ((∀ p ∈ parts, p.state ≠ .queued ∧ p.state ≠ .dispatching) →
      (s.attempts ≠ [] ∨ ∃ p ∈ parts, possiblyExecuted p = true) →
      (¬ ∀ p ∈ parts, p.state = .submitted ∨ p.state = .delivered) →
      (∃ e, s.request.errorInfo = some e ∧ e.outcome = .uncertain) ∧
        ∃ e, (summary parts).2 = some e ∧ e.outcome = .uncertain) := by
  intro s parts
  have hs : s.Valid := hv.valid.run calls
  have hattempts : s.attempts ≠ [] → ∃ p ∈ parts, possiblyExecuted p = true := by
    intro hne
    obtain ⟨i, rest, hi⟩ := List.exists_cons_of_ne_nil hne
    obtain ⟨p, hp, hexecuted⟩ := hs.attempts i (by rw [hi]; exact List.mem_cons_self)
    exact ⟨p, List.mem_of_getElem? hp, hexecuted⟩
  have hfailed (h : (summary parts).1 = .failed) : ∀ p ∈ parts,
      p.state ≠ .invoked ∧ p.state ≠ .submitted ∧ p.state ≠ .delivered ∧ p.state ≠ .unknown ∧
        p.state ≠ .dispatching := by
    intro p hp
    obtain ⟨hdispatching, hresolved⟩ := summary_failed h p hp
    simp only [unresolvedOrSuccessful, Bool.or_eq_false_iff, decide_eq_false_iff_not] at hresolved
    exact ⟨hresolved.1.1.1, hresolved.1.1.2, hresolved.1.2, hresolved.2, hdispatching⟩
  have hunstarted (e : SafeError) (he : (summary parts).2 = some e) (ho : e.outcome = .unstarted) :
      s.attempts = [] ∧ ∀ p ∈ parts, (p.state = .failed ∨ p.state = .skipped) ∧
        ∃ e', p.errorInfo = some e' ∧ e'.outcome = .unstarted := by
    refine ⟨?_, fun p hp => ?_⟩
    · by_contra hne
      obtain ⟨p, hp, hexecuted⟩ := hattempts hne
      have := List.any_eq_false.mp (summary_unstarted_any hs.ordered he ho).2.2 p hp
      exact this hexecuted
    · obtain ⟨hstopped, herror⟩ := summary_unstarted hs.ordered he ho p hp
      exact ⟨by simpa [stopped] using hstopped, herror⟩
  refine ⟨?_, summary_delivered_iff parts, ?_, ?_, ?_⟩
  · rcases hs.reported with ⟨hstate, -⟩ | ⟨hstate, -, p, hp, hne⟩
    · rw [hstate]
      exact summary_delivered_iff parts
    · simp only [hstate, reduceCtorEq, false_iff]
      exact fun hall => hne (hall p hp)
  · rintro (h | h)
    · rcases hs.reported with ⟨hstate, -⟩ | ⟨hstate, -⟩
      · exact hfailed (hstate ▸ h)
      · simp [hstate] at h
    · exact hfailed h
  · rintro e (he | he) ho
    · rcases hs.reported with ⟨-, herror⟩ | ⟨-, ⟨e', he', ho'⟩, -⟩
      · exact hunstarted e (herror ▸ he) ho
      · rw [he, Option.some.injEq] at he'
        simp [he', ho'] at ho
    · exact hunstarted e he ho
  · intro hresolved hexecuted hopen
    have huncertain := summary_uncertain hs.ordered hresolved (hexecuted.elim hattempts id) hopen
    refine ⟨?_, huncertain⟩
    rcases hs.reported with ⟨-, herror⟩ | ⟨-, herror, -⟩
    · rw [herror]
      exact huncertain
    · exact herror

theorem multipart_run_reported_twoPhotos :
    let s := multipart.run { request := twoPhotos } [.start, .finish .invoked, .interrupt true]
    s.request.state = .delivered ↔ ∀ p ∈ s.request.parts, p.state = .delivered :=
  (multipart_run_reported twoPhotos_initial [.start, .finish .invoked, .interrupt true]).1

end Results

end Zimbr.Sends
