import Zimbr.Relay.SendsOrder

set_option autoImplicit false

/-!
# What a request summary says about its parts
-/
namespace Zimbr.Sends

/-- The part's automation was, or may have been, executed. -/
def possiblyExecuted (p : SendPart) : Bool :=
  match p.state with
  | .invoked | .submitted | .delivered | .unknown => true
  | .failed | .skipped => uncertainError p
  | .queued | .dispatching => false

def unresolvedOrSuccessful (p : SendPart) : Bool :=
  p.state = .invoked || p.state = .submitted || p.state = .delivered || p.state = .unknown

def stopped (p : SendPart) : Bool := p.state = .failed || p.state = .skipped

section Tally

variable (t : Tally) (parts : List SendPart)

theorem foldl_queued :
    (parts.foldl Tally.count t).queued = (t.queued || parts.any fun p => p.state = .queued) := by
  induction parts generalizing t with
  | nil => simp
  | cons p rest ih =>
    rw [List.foldl_cons, ih, List.any_cons]
    cases h : p.state <;> simp [Tally.count, h]

theorem foldl_dispatching :
    (parts.foldl Tally.count t).dispatching =
      (t.dispatching || parts.any fun p => p.state = .dispatching) := by
  induction parts generalizing t with
  | nil => simp
  | cons p rest ih =>
    rw [List.foldl_cons, ih, List.any_cons]
    cases h : p.state <;> simp [Tally.count, h]

theorem foldl_stopped :
    (parts.foldl Tally.count t).stopped = (t.stopped || parts.any stopped) := by
  induction parts generalizing t with
  | nil => simp
  | cons p rest ih =>
    rw [List.foldl_cons, ih, List.any_cons]
    cases h : p.state <;> simp [Tally.count, stopped, h]

theorem foldl_attempted :
    (parts.foldl Tally.count t).attempted = (t.attempted || parts.any possiblyExecuted) := by
  induction parts generalizing t with
  | nil => simp
  | cons p rest ih =>
    rw [List.foldl_cons, ih, List.any_cons]
    cases h : p.state <;> simp [Tally.count, possiblyExecuted, h, Bool.or_assoc]

theorem foldl_unresolvedOrSuccessful :
    (parts.foldl Tally.count t).unresolvedOrSuccessful =
      (t.unresolvedOrSuccessful || parts.any unresolvedOrSuccessful) := by
  induction parts generalizing t with
  | nil => simp
  | cons p rest ih =>
    rw [List.foldl_cons, ih, List.any_cons]
    cases h : p.state <;> simp [Tally.count, unresolvedOrSuccessful, h]

theorem foldl_delivered :
    (parts.foldl Tally.count t).delivered =
      t.delivered + parts.countP fun p => p.state = .delivered := by
  induction parts generalizing t with
  | nil => simp
  | cons p rest ih =>
    rw [List.foldl_cons, ih, List.countP_cons]
    cases h : p.state <;> simp [Tally.count, h]
    omega

theorem foldl_observed :
    (parts.foldl Tally.count t).observed =
      t.observed + parts.countP fun p => p.state = .submitted || p.state = .delivered := by
  induction parts generalizing t with
  | nil => simp
  | cons p rest ih =>
    rw [List.foldl_cons, ih, List.countP_cons]
    cases h : p.state <;> simp [Tally.count, h] <;> omega

theorem foldl_uncertain {P : SafeError → Prop}
    (hparts : ∀ p ∈ parts, p.state = .unknown → ∀ e, p.errorInfo = some e → P e)
    (ht : ∀ e, t.uncertain = some e → P e) :
    ∀ e, (parts.foldl Tally.count t).uncertain = some e → P e := by
  induction parts generalizing t with
  | nil => exact ht
  | cons p rest ih =>
    rw [List.foldl_cons]
    refine ih _ (fun q hq => hparts q (List.mem_cons_of_mem p hq)) ?_
    intro e he
    cases h : p.state with
    | unknown => exact hparts p List.mem_cons_self h e (by simpa [Tally.count, h] using he)
    | _ => exact ht e (by simpa [Tally.count, h] using he)

end Tally

section Summary

variable {parts : List SendPart}

theorem mem_explained (h : Ordered parts) {p : SendPart} (hp : p ∈ parts) : Explained p := by
  obtain ⟨i, hi⟩ := List.mem_iff_getElem?.mp hp
  exact h.explained i p hi

theorem summary_eq (parts : List SendPart) :
    summary parts =
      if parts.any fun p => p.state = .dispatching then (.dispatching, none)
      else if parts.any stopped then
        (if parts.any unresolvedOrSuccessful then .unknown else .failed,
          some (stoppedError (tally parts)))
      else if parts.any fun p => p.state = .queued then (.queued, none)
      else if (parts.countP fun p => p.state = .delivered) = parts.length then (.delivered, none)
      else if (parts.countP fun p => p.state = .submitted || p.state = .delivered) = parts.length
        then (.submitted, none)
      else (.unknown, some ((tally parts).uncertain.getD awaitingObservation)) := by
  simp only [summary, tally, foldl_dispatching, foldl_stopped, foldl_queued, foldl_delivered,
    foldl_observed, foldl_unresolvedOrSuccessful, Bool.false_or, Nat.zero_add]

theorem stoppedError_outcome (parts : List SendPart) :
    (stoppedError (tally parts)).outcome =
      if parts.any possiblyExecuted then .uncertain else .unstarted := by
  simp [stoppedError, tally, foldl_attempted]

theorem summary_queued (h : (summary parts).1 = .queued) :
    (∃ p ∈ parts, p.state = .queued) ∧ ∀ p ∈ parts, p.state ≠ .dispatching := by
  rw [summary_eq] at h
  split_ifs at h with hd hs hu hq hq hq
  all_goals try simp at h
  refine ⟨by simpa using hq, fun p hp hdis => hd ?_⟩
  exact List.any_eq_true.mpr ⟨p, hp, by simpa using hdis⟩

theorem not_any {P : SendPart → Bool} (h : ∀ p ∈ parts, P p = false) : parts.any P = false :=
  List.any_eq_false.mpr fun p hp => by simp [h p hp]

theorem summary_delivered_iff (parts : List SendPart) :
    (summary parts).1 = .delivered ↔ ∀ p ∈ parts, p.state = .delivered := by
  constructor
  · intro h
    rw [summary_eq] at h
    split_ifs at h with hd hs hu hq hc ho
    all_goals try simp at h
    simpa [List.countP_eq_length] using hc
  · intro h
    have hcount : (parts.countP fun p => p.state = .delivered) = parts.length :=
      List.countP_eq_length.mpr fun p hp => by simpa using h p hp
    have hdispatching : (parts.any fun p => p.state = .dispatching) = false :=
      not_any fun p hp => by simp [h p hp]
    have hstopped : parts.any stopped = false := not_any fun p hp => by simp [stopped, h p hp]
    have hqueued : (parts.any fun p => p.state = .queued) = false :=
      not_any fun p hp => by simp [h p hp]
    simp [summary_eq, hcount, hdispatching, hstopped, hqueued]

theorem summary_failed (h : (summary parts).1 = .failed) :
    ∀ p ∈ parts, p.state ≠ .dispatching ∧ unresolvedOrSuccessful p = false := by
  rw [summary_eq] at h
  split_ifs at h with hd hs hu
  all_goals try simp at h
  intro p hp
  refine ⟨fun hdis => hd (List.any_eq_true.mpr ⟨p, hp, by simpa using hdis⟩), ?_⟩
  simpa using List.any_eq_false.mp (Bool.eq_false_iff.mpr hu) p hp

theorem uncertain_outcome (h : Ordered parts) :
    ((tally parts).uncertain.getD awaitingObservation).outcome = .uncertain := by
  have huncertain : ∀ e, (tally parts).uncertain = some e → e.outcome = .uncertain := by
    refine foldl_uncertain {} parts (fun p hp hu e he => ?_) (by simp)
    obtain ⟨e', he', ho⟩ := (mem_explained h hp).2.2 hu
    rw [he, Option.some.injEq] at he'
    rw [he', ho]
  cases hu : (tally parts).uncertain with
  | none => rfl
  | some e => exact huncertain e hu

/-- An unstarted summary is the stopped branch with nothing attempted. -/
theorem summary_unstarted_any (h : Ordered parts) {e : SafeError}
    (he : (summary parts).2 = some e) (ho : e.outcome = .unstarted) :
    (parts.any fun p => p.state = .dispatching) = false ∧ parts.any stopped = true ∧
      parts.any possiblyExecuted = false := by
  rw [summary_eq] at he
  by_cases hd : parts.any fun p => p.state = .dispatching
  · simp [hd] at he
  rw [if_neg hd] at he
  by_cases hs : parts.any stopped
  · rw [if_pos hs, Option.some.injEq] at he
    subst he
    refine ⟨Bool.eq_false_iff.mpr hd, hs, ?_⟩
    by_contra hne
    rw [stoppedError_outcome, if_pos (by simpa using hne)] at ho
    exact absurd ho (by decide)
  · rw [if_neg hs] at he
    split_ifs at he
    · simp only [Option.some.injEq] at he
      rw [← he, uncertain_outcome h] at ho
      exact absurd ho (by decide)

theorem summary_unstarted (h : Ordered parts) {e : SafeError} (he : (summary parts).2 = some e)
    (ho : e.outcome = .unstarted) :
    ∀ p ∈ parts, stopped p = true ∧ ∃ e', p.errorInfo = some e' ∧ e'.outcome = .unstarted := by
  obtain ⟨hdispatching, hany, hexecuted⟩ := summary_unstarted_any h he ho
  obtain ⟨s, hmem, hs⟩ := List.any_eq_true.mp hany
  obtain ⟨i, hi⟩ := List.mem_iff_getElem?.mp hmem
  have hclosed : s.state ≠ .queued ∧ ¬ s.state.opened := by
    cases hst : s.state <;> simp [stopped, hst, PartState.opened, PartState.advanced] at hs ⊢
  intro p hp
  have hnot : possiblyExecuted p = false := by
    simpa using List.any_eq_false.mp hexecuted p hp
  have hne : p.state ≠ .dispatching := by
    simpa using List.any_eq_false.mp hdispatching p hp
  have hnq : p.state ≠ .queued := by
    -- a queued part has only open parts before it, and only queued parts after it
    intro hpq
    obtain ⟨j, hj⟩ := List.mem_iff_getElem?.mp hp
    rcases Nat.lt_trichotomy i j with hij | rfl | hij
    · exact hclosed.2 (h.pending i j s p hij hi hj hpq)
    · rw [hi, Option.some.injEq] at hj
      exact hclosed.1 (hj ▸ hpq)
    · exact hclosed.1 (h.tail j i p s hij hj hi hpq)
  obtain ⟨hfailed, hskipped, -⟩ := mem_explained h hp
  cases hst : p.state with
  | queued => exact absurd hst hnq
  | dispatching => exact absurd hst hne
  | failed =>
    obtain ⟨e', he'⟩ := hfailed hst
    refine ⟨by simp [stopped, hst], e', he', ?_⟩
    cases hoe : e'.outcome with
    | unstarted => rfl
    | uncertain => simp [possiblyExecuted, hst, uncertainError, he', hoe] at hnot
  | skipped => exact ⟨by simp [stopped, hst], hskipped hst⟩
  | _ => simp [possiblyExecuted, hst] at hnot

/-- A resolved list with a possibly executed part never claims to be unstarted. -/
theorem summary_uncertain (h : Ordered parts)
    (hresolved : ∀ p ∈ parts, p.state ≠ .queued ∧ p.state ≠ .dispatching)
    (hexecuted : ∃ p ∈ parts, possiblyExecuted p = true)
    (hopen : ¬ ∀ p ∈ parts, p.state = .submitted ∨ p.state = .delivered) :
    ∃ e, (summary parts).2 = some e ∧ e.outcome = .uncertain := by
  have hdispatching : (parts.any fun p => p.state = .dispatching) = false :=
    not_any fun p hp => by simp [(hresolved p hp).2]
  have hqueued : (parts.any fun p => p.state = .queued) = false :=
    not_any fun p hp => by simp [(hresolved p hp).1]
  have hobserved : (parts.countP fun p => p.state = .submitted || p.state = .delivered) ≠
      parts.length := by
    intro hc
    rw [List.countP_eq_length] at hc
    exact hopen fun p hp => by simpa using hc p hp
  have hdelivered : (parts.countP fun p => p.state = .delivered) ≠ parts.length := by
    intro hc
    rw [List.countP_eq_length] at hc
    exact hopen fun p hp => Or.inr (by simpa using hc p hp)
  have hany : parts.any possiblyExecuted = true := List.any_eq_true.mpr hexecuted
  rw [summary_eq]
  simp only [hdispatching, hqueued, hobserved, hdelivered, if_false, Bool.false_eq_true]
  by_cases hs : parts.any stopped
  · rw [if_pos hs]
    exact ⟨_, rfl, by rw [stoppedError_outcome, hany]; rfl⟩
  · rw [if_neg hs]
    exact ⟨_, rfl, uncertain_outcome h⟩

end Summary

end Zimbr.Sends
