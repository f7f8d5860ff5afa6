import Mathlib.Data.Nat.Find
import Zimbr.Library.Machine
import Zimbr.Relay.Sends

set_option autoImplicit false

/-!
# The order of the parts of a multipart send

Every operation moves each part by one of few steps; `Ordered` is preserved
because an operation either keeps every queued part queued or leaves none.
-/
namespace Zimbr

def PartState.advanced (s : PartState) : Prop := s = .invoked ∨ s = .submitted ∨ s = .delivered

instance (s : PartState) : Decidable s.advanced := by
  unfold PartState.advanced
  infer_instance

/-- A state in which no predecessor of a queued part can be outside. -/
def PartState.opened (s : PartState) : Prop := s = .queued ∨ s.advanced ∨ s = .dispatching

namespace Sends

def Explained (p : SendPart) : Prop :=
  (p.state = .failed → ∃ e, p.errorInfo = some e) ∧
  (p.state = .skipped → ∃ e, p.errorInfo = some e ∧ e.outcome = .unstarted) ∧
  (p.state = .unknown → ∃ e, p.errorInfo = some e ∧ e.outcome = .uncertain)

structure Ordered (parts : List SendPart) : Prop where
  single : ∀ (i j : Nat) (p q : SendPart), parts[i]? = some p → parts[j]? = some q →
    p.state = .dispatching → q.state = .dispatching → i = j
  pending : ∀ (i j : Nat) (p q : SendPart), i < j → parts[i]? = some p → parts[j]? = some q →
    q.state = .queued → p.state.opened
  tail : ∀ (i j : Nat) (p q : SendPart), i < j → parts[i]? = some p → parts[j]? = some q →
    p.state = .queued → q.state = .queued
  explained : ∀ (i : Nat) (p : SendPart), parts[i]? = some p → Explained p

section Next

theorem nextFrom_eq_some {k i : Nat} {parts : List SendPart} (h : nextFrom k parts = some i) :
    ∃ n p, i = k + n ∧ parts[n]? = some p ∧ p.state = .queued ∧
      ∀ m q, m < n → parts[m]? = some q → q.state.advanced := by
  induction parts generalizing k with
  | nil => simp [nextFrom] at h
  | cons part rest ih =>
    have advance (ha : part.state.advanced) (h : nextFrom (k + 1) rest = some i) :
        ∃ n p, i = k + n ∧ (part :: rest)[n]? = some p ∧ p.state = .queued ∧
          ∀ m q, m < n → (part :: rest)[m]? = some q → q.state.advanced := by
      obtain ⟨n, p, hi, hp, hq, hpre⟩ := ih h
      refine ⟨n + 1, p, by omega, by simpa using hp, hq, ?_⟩
      intro m q hm hget
      cases m with
      | zero =>
        obtain rfl : part = q := by simpa using hget
        exact ha
      | succ m => exact hpre m q (by omega) (by simpa using hget)
    simp only [nextFrom] at h
    split at h
    · next hs =>
      exact ⟨0, part, by simpa using h.symm, rfl, hs, fun m q hm _ => absurd hm (by omega)⟩
    · next hs => exact advance (Or.inl hs) h
    · next hs => exact advance (Or.inr (Or.inl hs)) h
    · next hs => exact advance (Or.inr (Or.inr hs)) h
    all_goals simp at h

theorem nextFrom_isSome {k n : Nat} {parts : List SendPart} {p : SendPart}
    (hp : parts[n]? = some p) (hq : p.state = .queued)
    (hpre : ∀ m q, m < n → parts[m]? = some q → q.state.advanced) :
    nextFrom k parts = some (k + n) := by
  induction n generalizing k parts with
  | zero =>
    cases parts with
    | nil => simp at hp
    | cons part rest =>
      obtain rfl : part = p := by simpa using hp
      simp [nextFrom, hq]
  | succ n ih =>
    cases parts with
    | nil => simp at hp
    | cons part rest =>
      have hrest : nextFrom (k + 1) rest = some (k + 1 + n) :=
        ih (by simpa using hp) fun m q hm hget => hpre (m + 1) q (by omega) (by simpa using hget)
      have hpart : part.state.advanced := hpre 0 part (by omega) rfl
      rcases hpart with hs | hs | hs <;> simp only [nextFrom, hs, hrest] <;> congr 1 <;> omega

theorem next_spec {v : SendRequest} {i : Nat} (h : next v = some i) :
    ∃ p, v.parts[i]? = some p ∧ p.state = .queued ∧
      ∀ m q, m < i → v.parts[m]? = some q → q.state.advanced := by
  obtain ⟨n, p, hi, hp, hq, hpre⟩ := nextFrom_eq_some h
  obtain rfl : i = n := by omega
  exact ⟨p, hp, hq, hpre⟩

/-- In an ordered list with a queued part and none dispatching, the first
queued part is next. -/
theorem Ordered.next_isSome {v : SendRequest} (h : Ordered v.parts)
    (hqueued : ∃ p ∈ v.parts, p.state = .queued)
    (hidle : ∀ p ∈ v.parts, p.state ≠ .dispatching) : ∃ i, next v = some i := by
  classical
  have hex : ∃ n : Nat, ∃ p : SendPart, v.parts[n]? = some p ∧ p.state = .queued := by
    obtain ⟨p, hp, hq⟩ := hqueued
    obtain ⟨n, hn⟩ := List.mem_iff_getElem?.mp hp
    exact ⟨n, p, hn, hq⟩
  obtain ⟨p, hp, hq⟩ := Nat.find_spec hex
  refine ⟨Nat.find hex, ?_⟩
  have hpre : ∀ m q, m < Nat.find hex → v.parts[m]? = some q → q.state.advanced := by
    intro m q hm hget
    rcases h.pending m _ q p hm hget hp hq with hs | hs | hs
    · exact absurd ⟨q, hget, hs⟩ (Nat.find_min hex hm)
    · exact hs
    · exact absurd hs (hidle q (List.mem_of_getElem? hget))
  simpa [next] using nextFrom_isSome (k := 0) hp hq hpre

end Next

section Preserve

variable {parts parts' : List SendPart} {f : Nat → SendPart → SendPart}

theorem Ordered.hold (h : Ordered parts) (hget : ∀ k, parts'[k]? = (parts[k]?).map (f k))
    (hmove : ∀ k p, parts[k]? = some p → (f k p).state ≠ .queued ∧ Explained (f k p) ∧
      ((f k p).state = .dispatching → p.state = .dispatching)) : Ordered parts' := by
  have back {k : Nat} {q : SendPart} (hq : parts'[k]? = some q) :
      ∃ p, parts[k]? = some p ∧ f k p = q := by
    rw [hget k, Option.map_eq_some_iff] at hq
    exact hq
  refine ⟨?_, ?_, ?_, ?_⟩
  · intro i j p q hi hj hp hq
    obtain ⟨p, hi', rfl⟩ := back hi
    obtain ⟨q, hj', rfl⟩ := back hj
    exact h.single i j p q hi' hj' ((hmove i p hi').2.2 hp) ((hmove j q hj').2.2 hq)
  · intro i j p q _ _ hj hq
    obtain ⟨q, hj', rfl⟩ := back hj
    exact absurd hq (hmove j q hj').1
  · intro i j p q _ hi _ hp
    obtain ⟨p, hi', rfl⟩ := back hi
    exact absurd hp (hmove i p hi').1
  · intro i p hi
    obtain ⟨p, hi', rfl⟩ := back hi
    exact (hmove i p hi').2.1

/-- An operation that keeps queued parts queued and open parts open keeps the
order, if it dispatches nothing new. -/
theorem Ordered.advance (h : Ordered parts) (hget : ∀ k, parts'[k]? = (parts[k]?).map (f k))
    (hmove : ∀ k p, parts[k]? = some p → ((f k p).state = .queued ↔ p.state = .queued) ∧
      Explained (f k p) ∧ (p.state.opened → (f k p).state.opened) ∧
      ((f k p).state = .dispatching → p.state = .dispatching)) : Ordered parts' := by
  have back {k : Nat} {q : SendPart} (hq : parts'[k]? = some q) :
      ∃ p, parts[k]? = some p ∧ f k p = q := by
    rw [hget k, Option.map_eq_some_iff] at hq
    exact hq
  refine ⟨?_, ?_, ?_, ?_⟩
  · intro i j p q hi hj hp hq
    obtain ⟨p, hi', rfl⟩ := back hi
    obtain ⟨q, hj', rfl⟩ := back hj
    exact h.single i j p q hi' hj' ((hmove i p hi').2.2.2 hp) ((hmove j q hj').2.2.2 hq)
  · intro i j p q hij hi hj hq
    obtain ⟨p, hi', rfl⟩ := back hi
    obtain ⟨q, hj', rfl⟩ := back hj
    exact (hmove i p hi').2.2.1 (h.pending i j p q hij hi' hj' ((hmove j q hj').1.mp hq))
  · intro i j p q hij hi hj hp
    obtain ⟨p, hi', rfl⟩ := back hi
    obtain ⟨q, hj', rfl⟩ := back hj
    exact (hmove j q hj').1.mpr (h.tail i j p q hij hi' hj' ((hmove i p hi').1.mp hp))
  · intro i p hi
    obtain ⟨p, hi', rfl⟩ := back hi
    exact (hmove i p hi').2.1

end Preserve

section Operations

theorem skipPart_state (code : String) (p : SendPart) :
    (skipPart code p).state = if p.state = .queued then .skipped else p.state := by
  unfold skipPart
  split_ifs <;> rfl

theorem skipPart_of_ne {code : String} {p : SendPart} (h : p.state ≠ .queued) :
    skipPart code p = p := by
  simp [skipPart, h]

theorem skipPart_explained {code : String} {p : SendPart} (h : Explained p) :
    Explained (skipPart code p) := by
  unfold skipPart
  split_ifs with hq
  · exact ⟨nofun, fun _ => ⟨_, rfl, rfl⟩, nofun⟩
  · exact h

theorem skipPart_ne_queued (code : String) (p : SendPart) :
    (skipPart code p).state ≠ .queued := by
  rw [skipPart_state]
  split_ifs with h
  · nofun
  · exact h

theorem getElem?_modify_ite (parts : List SendPart) (i k : Nat) (f : SendPart → SendPart) :
    (parts.modify i f)[k]? = (parts[k]?).map fun p => if i = k then f p else p := by
  rw [List.getElem?_modify]
  rfl

/-- How `finish` changes the part at index `k`. -/
def finishAt (position : Nat) (outcome : Outcome) (k : Nat) (p : SendPart) : SendPart :=
  let p := if position = k then finishPart outcome p else p
  if outcome = .invoked then p else skipPart "preceding_part_stopped" p

theorem finishParts_get (parts : List SendPart) (position : Nat) (outcome : Outcome) (k : Nat) :
    (finishParts parts position outcome)[k]? = (parts[k]?).map (finishAt position outcome k) := by
  unfold finishParts finishAt
  by_cases h : outcome = .invoked
  · simp [h, getElem?_modify_ite]
  · simp [h, skipQueued, getElem?_modify_ite, Function.comp_def]

/-- How `observe` changes the part at index `k`. -/
def observeAt (position : Nat) (messageId : Bytes) (status : Observed) (k : Nat) (p : SendPart) :
    SendPart :=
  let p := if position = k then observePart messageId status p else p
  if status = .failed then skipPart "preceding_part_stopped" p else p

theorem observeParts_get (parts : List SendPart) (position : Nat) (messageId : Bytes)
    (status : Observed) (k : Nat) :
    (observeParts parts position messageId status)[k]? =
      (parts[k]?).map (observeAt position messageId status k) := by
  unfold observeParts observeAt
  by_cases h : status = .failed
  · simp [h, skipQueued, getElem?_modify_ite, Function.comp_def]
  · simp [h, getElem?_modify_ite]

/-- How `interrupt` changes every part. -/
def interruptAt (reset : Bool) (p : SendPart) : SendPart :=
  skipPart (interruptCode reset) (interruptPart reset p)

theorem interruptParts_get (parts : List SendPart) (reset : Bool) (k : Nat) :
    (interruptParts parts reset)[k]? = (parts[k]?).map (interruptAt reset) := by
  simp [interruptParts, skipQueued, Function.comp_def]
  rfl

theorem finishPart_explained (outcome : Outcome) (p : SendPart) :
    Explained (finishPart outcome p) := by
  cases outcome with
  | invoked => exact ⟨nofun, nofun, nofun⟩
  | unstarted code => exact ⟨fun _ => ⟨_, rfl⟩, nofun, nofun⟩
  | uncertain code => exact ⟨nofun, nofun, fun _ => ⟨_, rfl, rfl⟩⟩

theorem observePart_explained (messageId : Bytes) (status : Observed) (p : SendPart) :
    Explained (observePart messageId status p) := by
  cases status with
  | submitted => exact ⟨nofun, nofun, nofun⟩
  | delivered => exact ⟨nofun, nofun, nofun⟩
  | failed => exact ⟨fun _ => ⟨_, rfl⟩, nofun, nofun⟩

theorem interruptPart_state (reset : Bool) (p : SendPart) :
    (interruptPart reset p).state = if p.state = .dispatching then .unknown else p.state := by
  cases reset <;> by_cases h : p.state = .dispatching <;> simp [interruptPart, h]

theorem interruptPart_explained (reset : Bool) {p : SendPart} (h : Explained p) :
    Explained (interruptPart reset p) := by
  by_cases hd : p.state = .dispatching
  · cases reset <;> simp [interruptPart, hd, Explained]
  · cases reset <;> simpa [interruptPart, hd, Explained] using h

theorem Ordered.started {parts : List SendPart} {i : Nat} (h : Ordered parts)
    (hnext : ∃ p, parts[i]? = some p ∧ p.state = .queued ∧
      ∀ m q, m < i → parts[m]? = some q → q.state.advanced) :
    Ordered (parts.modify i fun p => { p with state := .dispatching }) := by
  obtain ⟨p₀, hp₀, hq₀, hpre⟩ := hnext
  have idle {k : Nat} {p : SendPart} (hk : parts[k]? = some p) : p.state ≠ .dispatching := by
    intro hd
    rcases Nat.lt_trichotomy k i with hlt | rfl | hlt
    · rcases hpre k p hlt hk with hs | hs | hs <;> simp [hs] at hd
    · rw [hp₀, Option.some.injEq] at hk
      rw [← hk, hq₀] at hd
      exact absurd hd (by decide)
    · have := h.tail i k p₀ p hlt hp₀ hk hq₀
      simp [this] at hd
  have back {k : Nat} {q : SendPart}
      (hq : (parts.modify i fun p => { p with state := .dispatching })[k]? = some q) :
      ∃ p, parts[k]? = some p ∧ (if i = k then { p with state := .dispatching } else p) = q := by
    rw [getElem?_modify_ite, Option.map_eq_some_iff] at hq
    exact hq
  refine ⟨?_, ?_, ?_, ?_⟩
  · intro j k p q hj hk hp hq
    obtain ⟨p, hj', rfl⟩ := back hj
    obtain ⟨q, hk', rfl⟩ := back hk
    by_cases hij : i = j
    · by_cases hik : i = k
      · omega
      · rw [if_neg hik] at hq
        exact absurd hq (idle hk')
    · rw [if_neg hij] at hp
      exact absurd hp (idle hj')
  · intro j k p q hjk hj hk hq
    obtain ⟨p, hj', rfl⟩ := back hj
    obtain ⟨q, hk', rfl⟩ := back hk
    have hik : i ≠ k := by
      rintro rfl
      simp at hq
    rw [if_neg hik] at hq
    split_ifs with hij
    · exact Or.inr (Or.inr rfl)
    · exact h.pending j k p q hjk hj' hk' hq
  · intro j k p q hjk hj hk hp
    obtain ⟨p, hj', rfl⟩ := back hj
    obtain ⟨q, hk', rfl⟩ := back hk
    have hij : i ≠ j := by
      rintro rfl
      simp at hp
    rw [if_neg hij] at hp
    have hik : i ≠ k := by
      -- a queued part before the next one would itself be next
      rintro rfl
      rcases hpre j p hjk hj' with hs | hs | hs <;> simp [hs] at hp
    rw [if_neg hik]
    exact h.tail j k p q hjk hj' hk' hp
  · intro k q hk
    obtain ⟨p, hk', rfl⟩ := back hk
    split_ifs
    · exact ⟨nofun, nofun, nofun⟩
    · exact h.explained k p hk'

theorem Ordered.finished {parts : List SendPart} {i : Nat} {outcome : Outcome} {p₀ : SendPart}
    (h : Ordered parts) (hp₀ : parts[i]? = some p₀) (hd : p₀.state = .dispatching) :
    Ordered (finishParts parts i outcome) := by
  by_cases hinv : outcome = .invoked
  · subst hinv
    refine h.advance (finishParts_get parts i .invoked) fun k p hk => ?_
    unfold finishAt
    by_cases hik : i = k
    · subst hik
      obtain rfl : p₀ = p := by simpa [hp₀] using hk
      simp [finishPart, hd, Explained, PartState.opened, PartState.advanced]
    · simpa [hik] using h.explained k p hk
  · refine h.hold (finishParts_get parts i outcome) fun k p hk => ?_
    simp only [finishAt, hinv, if_false]
    refine ⟨skipPart_ne_queued _ _, ?_, ?_⟩
    · split_ifs
      · exact skipPart_explained (finishPart_explained outcome p)
      · exact skipPart_explained (h.explained k p hk)
    · rw [skipPart_state]
      split_ifs with hik hq hq
      · nofun
      · cases outcome <;> simp [finishPart] at hinv ⊢
      · nofun
      · exact id

theorem Ordered.observed {parts : List SendPart} {i : Nat} {messageId : Bytes} {status : Observed}
    {p₀ : SendPart} (h : Ordered parts) (hp₀ : parts[i]? = some p₀)
    (ho : observable p₀ = true) : Ordered (observeParts parts i messageId status) := by
  by_cases hfail : status = .failed
  · refine h.hold (observeParts_get parts i messageId status) fun k p hk => ?_
    simp only [observeAt, hfail, if_true]
    refine ⟨skipPart_ne_queued _ _, ?_, ?_⟩
    · split_ifs
      · exact skipPart_explained (observePart_explained messageId .failed p)
      · exact skipPart_explained (h.explained k p hk)
    · rw [skipPart_state]
      split_ifs with hik hq hq
      · nofun
      · simp [observePart]
      · nofun
      · exact id
  · refine h.advance (observeParts_get parts i messageId status) fun k p hk => ?_
    simp only [observeAt, hfail, if_false]
    by_cases hik : i = k
    · subst hik
      obtain rfl : p₀ = p := by simpa [hp₀] using hk
      have hne : p₀.state ≠ .queued := by
        intro hq
        simp [observable, hq] at ho
      rw [if_pos rfl]
      refine ⟨?_, observePart_explained messageId status p₀, fun _ => ?_, ?_⟩
      · cases status <;> simp_all [observePart]
      · cases status <;> simp_all [observePart, PartState.opened, PartState.advanced]
      · cases status <;> simp_all [observePart]
    · rw [if_neg hik]
      exact ⟨Iff.rfl, h.explained k p hk, id, id⟩

theorem Ordered.interrupted {parts : List SendPart} (h : Ordered parts) (reset : Bool) :
    Ordered (interruptParts parts reset) := by
  refine h.hold (f := fun _ => interruptAt reset) (interruptParts_get parts reset) fun k p hk => ?_
  refine ⟨skipPart_ne_queued _ _,
    skipPart_explained (interruptPart_explained reset (h.explained k p hk)), ?_⟩
  rw [interruptAt, skipPart_state, interruptPart_state]
  by_cases hd : p.state = .dispatching
  · simp [hd]
  · rw [if_neg hd]
    split_ifs
    · nofun
    · exact id

end Operations

end Sends

end Zimbr
