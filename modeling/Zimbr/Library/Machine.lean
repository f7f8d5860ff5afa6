import Mathlib.Data.List.Nodup

set_option autoImplicit false

/-!
# Deterministic machines that emit outputs

All nondeterminism of a modelled system is in its list of actions. The rules
below lift what one step preserves to what every run preserves.
-/
namespace Library

/-- One step computes the next state and the outputs visible outside. -/
structure Machine (σ α ω : Type) where
  step : σ → α → σ
  out : σ → α → List ω

namespace Machine

variable {σ α ω : Type} (m : Machine σ α ω)

def run (s : σ) (actions : List α) : σ := actions.foldl m.step s

def emitted : σ → List α → List ω
  | _, [] => []
  | s, a :: rest => m.out s a ++ emitted (m.step s a) rest

@[simp] theorem run_nil (s : σ) : m.run s [] = s := rfl

@[simp] theorem run_cons (s : σ) (a : α) (rest : List α) :
    m.run s (a :: rest) = m.run (m.step s a) rest := rfl

theorem run_append (s : σ) (first second : List α) :
    m.run s (first ++ second) = m.run (m.run s first) second := by
  simp [run, List.foldl_append]

@[simp] theorem emitted_nil (s : σ) : m.emitted s [] = [] := rfl

@[simp] theorem emitted_cons (s : σ) (a : α) (rest : List α) :
    m.emitted s (a :: rest) = m.out s a ++ m.emitted (m.step s a) rest := rfl

/-- A property that every step preserves holds at the end of every run. -/
theorem run_invariant {I : σ → Prop} (step : ∀ s a, I s → I (m.step s a))
    (s : σ) (actions : List α) (initial : I s) : I (m.run s actions) := by
  induction actions generalizing s with
  | nil => exact initial
  | cons a rest ih => exact ih _ (step s a initial)

/-- A property that every step preserves under its condition holds at the end of
every run whose steps all meet theirs. -/
theorem run_invariant_when {I : σ → Prop} {C : σ → α → Prop}
    (step : ∀ s a, I s → C s a → I (m.step s a)) (s : σ) (actions : List α) (initial : I s)
    (meets : ∀ before a after, actions = before ++ a :: after → C (m.run s before) a) :
    I (m.run s actions) := by
  induction actions generalizing s with
  | nil => exact initial
  | cons a rest ih =>
    refine ih _ (step s a initial (meets [] a rest rfl)) fun before b after hrest => ?_
    exact meets (a :: before) b after (by rw [hrest]; rfl)

theorem meets_nil {C : σ → α → Prop} {s : σ} (before : List α) (b : α) (after : List α)
    (h : [] = before ++ b :: after) : C (m.run s before) b := by
  cases before <;> exact nomatch h

/-- Every step of a run meets its condition when the first one and those after it do. -/
theorem meets_cons {C : σ → α → Prop} {s : σ} {a : α} {rest : List α} (first : C s a)
    (others : ∀ before b after, rest = before ++ b :: after → C (m.run (m.step s a) before) b)
    (before : List α) (b : α) (after : List α) (h : a :: rest = before ++ b :: after) :
    C (m.run s before) b := by
  cases before with
  | nil =>
    obtain ⟨rfl, -⟩ := List.cons.inj h
    exact first
  | cons a' before =>
    obtain ⟨rfl, hrest⟩ := List.cons.inj h
    exact others before b after hrest

theorem run_emitted_invariant {I : σ → List ω → Prop}
    (step : ∀ s outs a, I s outs → I (m.step s a) (outs ++ m.out s a))
    (s : σ) (outs : List ω) (actions : List α) (initial : I s outs) :
    I (m.run s actions) (outs ++ m.emitted s actions) := by
  induction actions generalizing s outs with
  | nil =>
    rw [emitted_nil, List.append_nil]
    exact initial
  | cons a rest ih =>
    rw [emitted_cons, ← List.append_assoc]
    exact ih _ _ (step s outs a initial)

/-- A preorder that every step respects relates the two ends of every run. -/
theorem run_related {I : σ → Prop} {R : σ → σ → Prop} (refl : ∀ s, R s s)
    (trans : ∀ s t u, R s t → R t u → R s u)
    (step : ∀ s a, I s → I (m.step s a)) (related : ∀ s a, I s → R s (m.step s a))
    (s : σ) (actions : List α) (initial : I s) : R s (m.run s actions) := by
  induction actions generalizing s with
  | nil => exact refl s
  | cons a rest ih => exact trans _ _ _ (related s a initial) (ih _ (step s a initial))

/-- What no step raises and every turn of one party lowers, a run lowers as often as
that party has its turn. -/
theorem run_lowers {I : σ → Prop} (left : σ → Nat) (turn : α → Bool)
    (step : ∀ s a, I s → I (m.step s a))
    (lowers : ∀ s a, I s → left (m.step s a) ≤ left s - (turn a).toNat)
    (s : σ) (actions : List α) (initial : I s) :
    left (m.run s actions) ≤ left s - actions.countP turn := by
  induction actions generalizing s with
  | nil => simp
  | cons a rest ih =>
    have hfirst := lowers s a initial
    have hrest := ih _ (step s a initial)
    rw [run_cons, List.countP_cons]
    cases hturn : turn a with
    | false =>
      rw [hturn, Bool.toNat_false] at hfirst
      simp only [Bool.false_eq_true, if_false]
      omega
    | true =>
      rw [hturn, Bool.toNat_true] at hfirst
      simp only [if_true]
      omega

/-- Every output of a run is emitted by one step, from a state of the run. -/
theorem mem_emitted {s : σ} {actions : List α} {w : ω} (h : w ∈ m.emitted s actions) :
    ∃ first a rest, actions = first ++ a :: rest ∧ w ∈ m.out (m.run s first) a := by
  induction actions generalizing s with
  | nil => simp at h
  | cons a rest ih =>
    rcases List.mem_append.mp h with h | h
    · exact ⟨[], a, rest, rfl, h⟩
    · obtain ⟨first, b, tail, hrest, hb⟩ := ih h
      exact ⟨a :: first, b, tail, by rw [hrest]; rfl, hb⟩

/-- What holds at the end of a run and not at its start was brought about by a
step, and what that step established held right after it. -/
theorem established {I P Q : σ → Prop} (step : ∀ s a, I s → I (m.step s a))
    (establishes : ∀ s a, I s → P (m.step s a) → P s ∨ Q (m.step s a))
    (s : σ) (actions : List α) (initial : I s) (before : ¬ P s) (h : P (m.run s actions)) :
    ∃ earlier later, actions = earlier ++ later ∧ Q (m.run s earlier) := by
  induction actions generalizing s with
  | nil => exact absurd h before
  | cons a rest ih =>
    by_cases hp : P (m.step s a)
    · exact ⟨[a], rest, rfl, (establishes s a initial hp).resolve_left before⟩
    · obtain ⟨earlier, later, hrest, hq⟩ := ih _ (step s a initial) hp h
      exact ⟨a :: earlier, later, by rw [hrest]; rfl, hq⟩

section AtMostOnce

variable {I : σ → Prop} {spent : σ → ω → Prop}
  (step : ∀ s a, I s → I (m.step s a))
  (stays : ∀ s a w, I s → spent s w → spent (m.step s a) w)
  (unspent : ∀ s a w, I s → w ∈ m.out s a → ¬ spent s w)
include step stays unspent

theorem not_mem_emitted_of_spent (s : σ) (actions : List α) (w : ω) (initial : I s)
    (h : spent s w) : w ∉ m.emitted s actions := by
  induction actions generalizing s with
  | nil => simp
  | cons a rest ih =>
    rw [emitted_cons, List.mem_append]
    rintro (hw | hw)
    · exact unspent s a w initial hw h
    · exact ih _ (step s a initial) (stays s a w initial h) hw

/-- When emitting an output spends it, no run emits an output twice. -/
theorem emitted_nodup (once : ∀ s a, I s → (m.out s a).Nodup)
    (spends : ∀ s a w, I s → w ∈ m.out s a → spent (m.step s a) w)
    (s : σ) (actions : List α) (initial : I s) : (m.emitted s actions).Nodup := by
  induction actions generalizing s with
  | nil => exact List.nodup_nil
  | cons a rest ih =>
    rw [emitted_cons]
    refine (once s a initial).append (ih _ (step s a initial)) ?_
    intro w hw
    exact m.not_mem_emitted_of_spent step stays unspent _ rest w (step s a initial)
      (spends s a w initial hw)

end AtMostOnce

end Machine

end Library
