import Mathlib.Algebra.Group.Int.Defs
import Mathlib.Algebra.Group.Nat.Defs
import Mathlib.Algebra.GroupWithZero.Nat
import Mathlib.Data.List.Basic
import Mathlib.Data.List.Forall2
import Mathlib.Logic.IsEmpty.Basic

set_option autoImplicit false

/-!
# Computations that fail or trap

A trap is what a checked build stops at: an index out of bounds, an overflow, or
a loop past the turns it was given. A state survives what stopped the computation.
-/
namespace Library

theorem forall₂_getElem? {α β : Type} {R : α → β → Prop} {as : List α} {bs : List β}
    (h : List.Forall₂ R as bs) {i : Nat} {a : α} (ha : as[i]? = some a) :
    ∃ b, bs[i]? = some b ∧ R a b := by
  induction h generalizing i with
  | nil => exact absurd ha (by simp)
  | cons hfirst _ ih =>
    cases i with
    | zero =>
      cases ha
      exact ⟨_, rfl, hfirst⟩
    | succ i => exact ih ha

inductive Stop (ε : Type) where
  | error (e : ε)
  | trap
  deriving DecidableEq, Repr

def Checked (ε σ α : Type) : Type := σ → Except (Stop ε) α × σ

namespace Checked

variable {ε σ α β : Type}

protected def pure (a : α) : Checked ε σ α := fun s => (.ok a, s)

protected def bind (m : Checked ε σ α) (k : α → Checked ε σ β) : Checked ε σ β := fun s =>
  match m s with
  | (.ok a, s') => k a s'
  | (.error e, s') => (.error e, s')

instance : Monad (Checked ε σ) where
  pure := Checked.pure
  bind := Checked.bind

def fail (e : ε) : Checked ε σ α := fun s => (.error (.error e), s)

def trap : Checked ε σ α := fun s => (.error .trap, s)

def get (f : σ → α) : Checked ε σ α := fun s => (.ok (f s), s)

def modify (f : σ → σ) : Checked ε σ Unit := fun s => (.ok (), f s)

/-- `if (!ok) return error`. -/
def require (ok : Bool) (e : ε) : Checked ε σ Unit := if ok then Checked.pure () else fail e

def orFail (e : ε) : Option α → Checked ε σ α
  | some a => Checked.pure a
  | none => fail e

def ofExcept : Except ε α → Checked ε σ α
  | .ok a => Checked.pure a
  | .error e => fail e

def orTrap : Option α → Checked ε σ α
  | some a => Checked.pure a
  | none => trap

/-- `std.debug.assert`. -/
def assert (ok : Bool) : Checked ε σ Unit := if ok then Checked.pure () else trap

/-- `items[i]`. -/
def index (items : List α) (i : Nat) : Checked ε σ α := orTrap items[i]?

/-- `items[start..][0..length]`. -/
def slice (items : List α) (start length : Nat) : Checked ε σ (List α) :=
  if start + length ≤ items.length then Checked.pure ((items.drop start).take length) else trap

/-- A sum of unsigned 64-bit numbers. -/
def add (a b : Nat) : Checked ε σ Nat := if a + b < 2 ^ 64 then Checked.pure (a + b) else trap

def sub (a b : Nat) : Checked ε σ Nat := if b ≤ a then Checked.pure (a - b) else trap

def mul (a b : Nat) : Checked ε σ Nat := if a * b < 2 ^ 64 then Checked.pure (a * b) else trap

/-- A signed 64-bit number. -/
def int64 (n : Int) : Checked ε σ Int :=
  if -(2 ^ 63) ≤ n ∧ n < 2 ^ 63 then Checked.pure n else trap

/-- `defer`: the state is changed however the computation ends. -/
def after (m : Checked ε σ α) (f : σ → σ) : Checked ε σ α := fun s => ((m s).1, f (m s).2)

/-- `errdefer`: the state is changed if the computation fails. -/
def errdefer (m : Checked ε σ α) (f : σ → σ) : Checked ε σ α := fun s =>
  match m s with
  | (.error (.error e), s') => (.error (.error e), f s')
  | done => done

def each (f : α → Checked ε σ β) : List α → Checked ε σ (List β)
  | [] => Checked.pure []
  | a :: rest => Checked.bind (f a) fun b => Checked.bind (each f rest) fun bs =>
    Checked.pure (b :: bs)

/-- From a state in `P` the computation does not trap: it returns a value and a
state in `Q`, or fails in a state in `E`. -/
def Meets (P : σ → Prop) (E : ε → σ → Prop) (m : Checked ε σ α) (Q : α → σ → Prop) : Prop :=
  ∀ s, P s → match m s with
    | (.ok a, s') => Q a s'
    | (.error (.error e), s') => E e s'
    | (.error .trap, _) => False

namespace Meets

variable {P P' : σ → Prop} {E : ε → σ → Prop} {Q : α → σ → Prop} {R : β → σ → Prop}
  {m : Checked ε σ α} {k : α → Checked ε σ β}

theorem pure {a : α} (h : ∀ s, P s → Q a s) : Meets P E (Pure.pure a : Checked ε σ α) Q := h

theorem fail {e : ε} (h : ∀ s, P s → E e s) : Meets P E (Checked.fail e : Checked ε σ α) Q := h

theorem bind (hm : Meets P E m Q) (hk : ∀ a, Meets (Q a) E (k a) R) : Meets P E (m >>= k) R := by
  intro s hs
  have hfirst := hm s hs
  change match Checked.bind m k s with
    | (.ok a, s') => R a s'
    | (.error (.error e), s') => E e s'
    | (.error .trap, _) => False
  unfold Checked.bind
  rcases hrun : m s with ⟨(e | _) | a, s'⟩
  · rw [hrun] at hfirst
    exact hfirst
  · rw [hrun] at hfirst
    exact hfirst
  · rw [hrun] at hfirst
    exact hk a s' hfirst

theorem mono {Q' : α → σ → Prop} (hm : Meets P E m Q) (hp : ∀ s, P' s → P s)
    (hq : ∀ a s, Q a s → Q' a s) : Meets P' E m Q' := by
  intro s hs
  have hfirst := hm s (hp s hs)
  rcases hrun : m s with ⟨(e | _) | a, s'⟩
  · rw [hrun] at hfirst
    exact hfirst
  · rw [hrun] at hfirst
    exact hfirst
  · rw [hrun] at hfirst
    exact hq a s' hfirst

theorem weaken {Q' : α → σ → Prop} (hm : Meets P E m Q) (hq : ∀ a s, Q a s → Q' a s) :
    Meets P E m Q' := hm.mono (fun _ h => h) hq

theorem fails {F : ε → σ → Prop} (hm : Meets P E m Q) (he : ∀ e s, E e s → F e s) :
    Meets P F m Q := by
  intro s hs
  have hrun := hm s hs
  rcases hfirst : m s with ⟨(e | _) | a, s'⟩
  · rw [hfirst] at hrun
    exact he e s' hrun
  · rw [hfirst] at hrun
    exact hrun
  · rw [hfirst] at hrun
    exact hrun

theorem and {F : ε → σ → Prop} {Q' : α → σ → Prop} (hm : Meets P E m Q) (hm' : Meets P F m Q') :
    Meets P (fun e s => E e s ∧ F e s) m fun a s => Q a s ∧ Q' a s := by
  intro s hs
  have hrun := hm s hs
  have hrun' := hm' s hs
  rcases hfirst : m s with ⟨(e | _) | a, s'⟩
  · rw [hfirst] at hrun hrun'
    exact ⟨hrun, hrun'⟩
  · rw [hfirst] at hrun
    exact hrun
  · rw [hfirst] at hrun hrun'
    exact ⟨hrun, hrun'⟩

theorem of_fact {F : Prop} (hf : ∀ s, P s → F) (hm : F → Meets P E m Q) : Meets P E m Q :=
  fun s hs => hm (hf s hs) s hs

theorem get {f : σ → α} (h : ∀ s, P s → Q (f s) s) : Meets P E (Checked.get f) Q := h

theorem modify {f : σ → σ} {Q : Unit → σ → Prop} (h : ∀ s, P s → Q () (f s)) :
    Meets P E (Checked.modify f) Q := h

theorem require {ok : Bool} {e : ε} (he : ∀ s, P s → E e s) :
    Meets P E (Checked.require ok e) fun _ s => ok = true ∧ P s := by
  cases ok with
  | false => exact fail he
  | true => exact fun s hs => ⟨rfl, hs⟩

theorem orFail {o : Option α} {e : ε} (he : ∀ s, P s → E e s) :
    Meets P E (Checked.orFail e o) fun a s => o = some a ∧ P s := by
  cases o with
  | none => exact fail he
  | some a => exact fun s hs => ⟨rfl, hs⟩

theorem index {items : List α} {i : Nat} (h : ∀ s, P s → i < items.length) :
    Meets P E (Checked.index items i) fun a s => items[i]? = some a ∧ P s := by
  intro s hs
  unfold Checked.index
  rw [List.getElem?_eq_getElem (h s hs)]
  exact ⟨rfl, hs⟩

theorem slice {items : List α} {start length : Nat}
    (h : ∀ s, P s → start + length ≤ items.length) :
    Meets P E (Checked.slice items start length) fun a s =>
      a = (items.drop start).take length ∧ a.length = length ∧ P s := by
  intro s hs
  have hbound := h s hs
  unfold Checked.slice
  rw [if_pos hbound]
  refine ⟨rfl, ?_, hs⟩
  rw [List.length_take, List.length_drop]
  omega

theorem add {a b : Nat} (h : ∀ s, P s → a + b < 2 ^ 64) :
    Meets P E (Checked.add a b) fun n s => n = a + b ∧ P s := by
  intro s hs
  unfold Checked.add
  rw [if_pos (h s hs)]
  exact ⟨rfl, hs⟩

theorem sub {a b : Nat} (h : ∀ s, P s → b ≤ a) :
    Meets P E (Checked.sub a b) fun n s => n = a - b ∧ P s := by
  intro s hs
  unfold Checked.sub
  rw [if_pos (h s hs)]
  exact ⟨rfl, hs⟩

theorem mul {a b : Nat} (h : ∀ s, P s → a * b < 2 ^ 64) :
    Meets P E (Checked.mul a b) fun n s => n = a * b ∧ P s := by
  intro s hs
  unfold Checked.mul
  rw [if_pos (h s hs)]
  exact ⟨rfl, hs⟩

theorem int64 {n : Int} (h : ∀ s, P s → -(2 ^ 63) ≤ n ∧ n < 2 ^ 63) :
    Meets P E (Checked.int64 n) fun m s => m = n ∧ P s := by
  intro s hs
  unfold Checked.int64
  rw [if_pos (h s hs)]
  exact ⟨rfl, hs⟩

/-- A loop whose turns each spend one of a credit, and keep what is left of it. -/
theorem each_spend {f : α → Checked ε σ β} {items : List α} {I : Nat → σ → Prop}
    {R : α → β → Prop} (h : ∀ a ∈ items, ∀ n, Meets (I (n + 1)) E (f a) fun b s => R a b ∧ I n s)
    (left : Nat) :
    Meets (I (left + items.length)) E (Checked.each f items) fun bs s =>
      List.Forall₂ R items bs ∧ I left s := by
  induction items with
  | nil => exact fun s hs => ⟨.nil, hs⟩
  | cons a rest ih =>
    have hrest := ih fun b hb => h b (List.mem_cons_of_mem a hb)
    refine bind (h a List.mem_cons_self (left + rest.length)) fun b => ?_
    refine of_fact (fun s hs => hs.1) fun hb => ?_
    refine bind (hrest.mono (fun s hs => hs.2) fun _ _ hbs => hbs) fun bs => ?_
    exact pure fun s hs => ⟨.cons hb hs.1, hs.2⟩

/-- A loop whose turns each add the weight of what they return. -/
theorem each_sum {f : α → Checked ε σ β} {items : List α} {I : Nat → σ → Prop} {weight : β → Nat}
    (h : ∀ a ∈ items, ∀ n, Meets (I n) E (f a) fun b s => I (n + weight b) s) (n : Nat) :
    Meets (I n) E (Checked.each f items) fun bs s => I (n + (bs.map weight).sum) s := by
  induction items generalizing n with
  | nil => exact fun s hs => hs
  | cons a rest ih =>
    have hrest := ih fun b hb => h b (List.mem_cons_of_mem a hb)
    refine bind (h a List.mem_cons_self n) fun b => bind (hrest (n + weight b)) fun bs => ?_
    refine pure fun s hs => ?_
    rwa [List.map_cons, List.sum_cons, ← Nat.add_assoc]

theorem after {f : σ → σ} {Q' : α → σ → Prop} (hm : Meets P E m Q)
    (hq : ∀ a s, Q a s → Q' a (f s)) (he : ∀ e s, E e s → E e (f s)) :
    Meets P E (Checked.after m f) Q' := by
  intro s hs
  have hrun := hm s hs
  unfold Checked.after
  rcases hfirst : m s with ⟨(e | _) | a, s'⟩
  · rw [hfirst] at hrun
    exact he e s' hrun
  · rw [hfirst] at hrun
    exact hrun
  · rw [hfirst] at hrun
    exact hq a s' hrun

theorem assert {ok : Bool} {Q : Unit → σ → Prop} (h : ok = true) (hq : ∀ s, P s → Q () s) :
    Meets P E (Checked.assert ok) Q := by
  subst h
  exact hq

theorem passed {ok : Bool} {e : ε} (h : ok = true) :
    Meets P E (Checked.require ok e) fun _ => P := by
  subst h
  exact fun _ hs => hs

theorem ofExcept {x : Except ε α} (he : ∀ e, x = .error e → ∀ s, P s → E e s) :
    Meets P E (Checked.ofExcept x) fun a s => x = .ok a ∧ P s := by
  cases x with
  | ok a => exact pure fun s hs => ⟨rfl, hs⟩
  | error e => exact fail (he e rfl)

theorem errdefer {F : ε → σ → Prop} {f : σ → σ} (hm : Meets P F m Q)
    (he : ∀ e s, F e s → E e (f s)) : Meets P E (Checked.errdefer m f) Q := by
  intro s hs
  have hrun := hm s hs
  unfold Checked.errdefer
  rcases hfirst : m s with ⟨(e | _) | a, s'⟩
  · rw [hfirst] at hrun
    exact he e s' hrun
  · rw [hfirst] at hrun
    exact hrun
  · rw [hfirst] at hrun
    exact hrun

theorem each {f : α → Checked ε σ β} {items : List α}
    (h : ∀ a ∈ items, Meets P E (f a) fun _ s => P s) :
    Meets P E (Checked.each f items) fun bs s => bs.length = items.length ∧ P s := by
  have hspend := each_spend (I := fun _ => P) (R := fun _ _ => True)
    (fun a ha _ => (h a ha).weaken fun _ _ hs => ⟨trivial, hs⟩) 0
  exact hspend.weaken fun bs s hs => ⟨hs.1.length_eq.symm, hs.2⟩

theorem of_returns (h : ∀ s, P s → ∃ a s', m s = (.ok a, s') ∧ Q a s') : Meets P E m Q := by
  intro s hs
  obtain ⟨a, s', hrun, hdone⟩ := h s hs
  rw [hrun]
  exact hdone

theorem returns [IsEmpty ε] (h : Meets P E m Q) {s : σ} (hs : P s) :
    ∃ a s', m s = (.ok a, s') ∧ Q a s' := by
  have hrun := h s hs
  rcases hfirst : m s with ⟨(e | _) | a, s'⟩
  · exact isEmptyElim e
  · rw [hfirst] at hrun
    exact absurd hrun not_false
  · rw [hfirst] at hrun
    exact ⟨a, s', rfl, hrun⟩

/-- What a computation leaves behind, whether it returns or fails. -/
theorem leaves (h : Meets P E m Q) {s : σ} (hs : P s) {B : σ → Prop} (hq : ∀ a s, Q a s → B s)
    (he : ∀ e s, E e s → B s) : (m s).1 ≠ .error .trap ∧ B (m s).2 := by
  have hrun := h s hs
  rcases hm : m s with ⟨(e | _) | a, s'⟩
  · rw [hm] at hrun
    exact ⟨nofun, he e s' hrun⟩
  · rw [hm] at hrun
    exact hrun.elim
  · rw [hm] at hrun
    exact ⟨nofun, hq a s' hrun⟩

/-- What a computation that returned has established. -/
theorem returned (h : Meets P E m Q) {s s' : σ} (hs : P s) {a : α} (hm : m s = (.ok a, s')) :
    Q a s' := by
  have hrun := h s hs
  rwa [hm] at hrun

/-- A count goes up by one, and stops past its bound or where something else forbids it. -/
theorem count {counter : σ → Nat} {set : Nat → σ → σ} {most : Nat} {deep : Bool} {e : ε}
    {Q : σ → Prop} (hmost : most + 1 < 2 ^ 64) (hle : ∀ s, P s → counter s ≤ most)
    (hlast : ∀ s, P s → deep = true ∨ counter s = most → E e (set (counter s + 1) s))
    (hnext : ∀ s, P s → counter s < most → Q (set (counter s + 1) s)) :
    Meets P E (do
      let n ← Checked.get counter
      let n ← Checked.add n 1
      Checked.modify (set n)
      Checked.require (!deep && n ≤ most) e) fun _ s => deep = false ∧ Q s := by
  refine bind (Q := fun n s => n = counter s ∧ P s) (.get fun s hs => ⟨rfl, hs⟩) fun n => ?_
  refine bind (.add fun s hs => ?_) fun after => ?_
  · have hcounter := hle s hs.2
    omega
  refine bind (Q := fun _ s' => ∃ s, P s ∧ after = counter s + 1 ∧ s' = set after s)
    (.modify fun s hs => ⟨s, hs.2.2, by rw [hs.1, hs.2.1], rfl⟩) fun _ => ?_
  rintro s' ⟨s, hs, rfl, rfl⟩
  have hcounter := hle s hs
  cases deep with
  | true => exact hlast s hs (Or.inl rfl)
  | false =>
    by_cases hfull : counter s + 1 ≤ most
    · rw [decide_eq_true hfull]
      exact ⟨rfl, hnext s hs hfull⟩
    · rw [decide_eq_false hfull]
      exact hlast s hs (Or.inr (by omega))

end Meets

/-- The computation keeps an invariant, and returns values in `Q`. -/
abbrev Keeps (I : σ → Prop) (E : ε → σ → Prop) (m : Checked ε σ α) (Q : α → Prop) : Prop :=
  Meets I E m fun a s => Q a ∧ I s

namespace Keeps

variable {I : σ → Prop} {E : ε → σ → Prop} {Q : α → Prop} {R : β → Prop}
  {m : Checked ε σ α} {k : α → Checked ε σ β}

theorem andThen {R : β → σ → Prop} (hm : Keeps I E m Q)
    (hk : ∀ a, Q a → Meets I E (k a) R) : Meets I E (m >>= k) R :=
  Meets.bind hm fun a => .of_fact (fun _ h => h.1) fun ha =>
    (hk a ha).mono (fun _ h => h.2) fun _ _ h => h

theorem bind (hm : Keeps I E m Q) (hk : ∀ a, Q a → Keeps I E (k a) R) : Keeps I E (m >>= k) R :=
  hm.andThen hk

theorem pure {a : α} (h : Q a) : Keeps I E (Pure.pure a : Checked ε σ α) Q :=
  Meets.pure fun _ hs => ⟨h, hs⟩

theorem weaken {Q' : α → Prop} (hm : Keeps I E m Q) (hq : ∀ a, Q a → Q' a) : Keeps I E m Q' :=
  Meets.weaken hm fun _ _ h => ⟨hq _ h.1, h.2⟩

theorem slice {items : List α} {start length : Nat} (h : start + length ≤ items.length) :
    Keeps I E (Checked.slice items start length) fun a =>
      a = (items.drop start).take length ∧ a.length = length :=
  (Meets.slice fun _ _ => h).weaken fun _ _ h => ⟨⟨h.1, h.2.1⟩, h.2.2⟩

theorem index {items : List α} {i : Nat} (h : i < items.length) :
    Keeps I E (Checked.index items i) fun a => items[i]? = some a := Meets.index fun _ _ => h

theorem add {a b : Nat} (h : a + b < 2 ^ 64) : Keeps I E (Checked.add a b) fun n => n = a + b :=
  Meets.add fun _ _ => h

theorem sub {a b : Nat} (h : b ≤ a) : Keeps I E (Checked.sub a b) fun n => n = a - b :=
  Meets.sub fun _ _ => h

theorem mul {a b : Nat} (h : a * b < 2 ^ 64) : Keeps I E (Checked.mul a b) fun n => n = a * b :=
  Meets.mul fun _ _ => h

theorem get {f : σ → α} (h : ∀ s, I s → Q (f s)) : Keeps I E (Checked.get f) Q :=
  Meets.get fun s hs => ⟨h s hs, hs⟩

variable (he : ∀ e s, I s → E e s)

include he

theorem fail {e : ε} : Keeps I E (Checked.fail e : Checked ε σ α) Q := Meets.fail fun _ => he _ _

theorem require {ok : Bool} {e : ε} : Keeps I E (Checked.require ok e) fun _ => ok = true :=
  Meets.require fun _ => he _ _

theorem orFail {o : Option α} {e : ε} : Keeps I E (Checked.orFail e o) fun a => o = some a :=
  Meets.orFail fun _ => he _ _

theorem ofExcept {x : Except ε α} : Keeps I E (Checked.ofExcept x) fun a => x = .ok a := by
  cases x with
  | ok a => exact pure rfl
  | error e => exact fail he

end Keeps

/-! What a computation that returned has done. -/

section Returned

variable {s s' : σ} {a : α}

theorem bind_ok {m : Checked ε σ α} {k : α → Checked ε σ β} {b : β} :
    (m >>= k) s = (.ok b, s') ↔ ∃ a s₁, m s = (.ok a, s₁) ∧ k a s₁ = (.ok b, s') := by
  change Checked.bind m k s = _ ↔ _
  unfold Checked.bind
  rcases m s with ⟨e | a, s₁⟩
  · simp
  · simp

theorem bind_eq {m : Checked ε σ α} {k : α → Checked ε σ β} {s₁ : σ} (h : m s = (.ok a, s₁)) :
    (m >>= k) s = k a s₁ := by
  change Checked.bind m k s = _
  unfold Checked.bind
  rw [h]

theorem bind_error {m : Checked ε σ α} {k : α → Checked ε σ β} {s₁ : σ} {e : Stop ε}
    (h : m s = (.error e, s₁)) : (m >>= k) s = (.error e, s₁) := by
  change Checked.bind m k s = _
  unfold Checked.bind
  rw [h]

theorem require_bind (ok : Bool) (e : ε) (k : Unit → Checked ε σ α) :
    require ok e >>= k = if ok then k () else fail e := by
  cases ok <;> rfl

theorem bind_stopped {m : Checked ε σ α} (h : ∀ s a s', m s ≠ (.ok a, s'))
    (k k' : α → Checked ε σ β) : m >>= k = m >>= k' := by
  funext s
  change Checked.bind m k s = Checked.bind m k' s
  unfold Checked.bind
  rcases hrun : m s with ⟨e | a, s'⟩
  · rfl
  · exact absurd hrun (h s a s')

theorem pure_ok {b : α} : (pure b : Checked ε σ α) s = (.ok a, s') ↔ b = a ∧ s = s' := by
  change (Except.ok b, s) = _ ↔ _
  simp

@[simp] theorem fail_ok {e : ε} : (fail e : Checked ε σ α) s ≠ (.ok a, s') := nofun

@[simp] theorem trap_ok : (trap : Checked ε σ α) s ≠ (.ok a, s') := nofun

theorem get_ok {f : σ → α} : get (ε := ε) f s = (.ok a, s') ↔ f s = a ∧ s = s' := by
  unfold get
  simp

theorem bind_get (f : σ → α) (k : α → Checked ε σ β) (s : σ) : (get f >>= k) s = k (f s) s := rfl

theorem modify_ok {f : σ → σ} {x : Unit} : modify (ε := ε) f s = (.ok x, s') ↔ f s = s' := by
  unfold modify
  simp

theorem require_ok {ok : Bool} {e : ε} {x : Unit} :
    require ok e s = (.ok x, s') ↔ ok = true ∧ s = s' := by
  cases ok
  · simp [require]
  · exact pure_ok.trans (by simp)

theorem orFail_ok {o : Option α} {e : ε} : orFail e o s = (.ok a, s') ↔ o = some a ∧ s = s' := by
  cases o
  · simp [orFail]
  · exact pure_ok.trans (by simp)

theorem ofExcept_ok {x : Except ε α} : ofExcept x s = (.ok a, s') ↔ x = .ok a ∧ s = s' := by
  cases x
  · simp [ofExcept]
  · exact pure_ok.trans (by simp)

theorem orTrap_ok {o : Option α} :
    orTrap (ε := ε) o s = (.ok a, s') ↔ o = some a ∧ s = s' := by
  cases o
  · simp [orTrap]
  · exact pure_ok.trans (by simp)

theorem index_ok {items : List α} {i : Nat} :
    index (ε := ε) items i s = (.ok a, s') ↔ items[i]? = some a ∧ s = s' := orTrap_ok

theorem slice_ok {items : List α} {start length : Nat} {taken : List α} :
    slice (ε := ε) items start length s = (.ok taken, s') ↔
      start + length ≤ items.length ∧ (items.drop start).take length = taken ∧ s = s' := by
  unfold slice
  split_ifs with h
  · exact pure_ok.trans (by simp [h])
  · simp [h]

theorem add_ok {a b n : Nat} : add (ε := ε) a b s = (.ok n, s') ↔
    a + b < 2 ^ 64 ∧ a + b = n ∧ s = s' := by
  unfold add
  split_ifs with h
  · exact pure_ok.trans (and_iff_right h).symm
  · exact iff_of_false trap_ok fun hr => h hr.1

theorem sub_ok {a b n : Nat} :
    sub (ε := ε) a b s = (.ok n, s') ↔ b ≤ a ∧ a - b = n ∧ s = s' := by
  unfold sub
  split_ifs with h
  · exact pure_ok.trans (by simp [h])
  · simp [h]

theorem after_ok {m : Checked ε σ α} {f : σ → σ} :
    after m f s = (.ok a, s') ↔ ∃ s₁, m s = (.ok a, s₁) ∧ f s₁ = s' := by
  unfold after
  rcases m s with ⟨r, s₁⟩
  simp

theorem each_ok {f : α → Checked ε σ β} {items : List α} {bs : List β} {s s' : σ}
    (h : each f items s = (.ok bs, s')) {a : α} (ha : a ∈ items) :
    ∃ s₁ b s₂, f a s₁ = (.ok b, s₂) := by
  induction items generalizing s s' bs with
  | nil => exact absurd ha List.not_mem_nil
  | cons first rest ih =>
    obtain ⟨b, s₁, hfirst, htail⟩ := bind_ok.mp h
    obtain ⟨bs, s₂, hrest, -⟩ := bind_ok.mp htail
    rcases List.mem_cons.mp ha with rfl | hmem
    · exact ⟨s, b, s₁, hfirst⟩
    · exact ih hrest hmem

end Returned

/-- Two computations return the same from whatever states, if both return: the state
decides only whether they fail. -/
def Agree (m m' : Checked ε σ α) : Prop :=
  ∀ s s' a a' t t', m s = (.ok a, t) → m' s' = (.ok a', t') → a = a'

namespace Agree

variable {m m' : Checked ε σ α} {k k' : α → Checked ε σ β}

theorem pure (a : α) : Agree (Pure.pure a : Checked ε σ α) (Pure.pure a) := by
  intro s s' x x' t t' h h'
  exact (pure_ok.mp h).1.symm.trans (pure_ok.mp h').1

theorem unit (m m' : Checked ε σ Unit) : Agree m m' := fun _ _ _ _ _ _ _ _ => rfl

theorem fail {e : ε} : Agree (Checked.fail e) m := fun _ _ _ _ _ _ h _ => absurd h fail_ok

theorem orFail (e : ε) (o : Option α) :
    Agree (Checked.orFail e o : Checked ε σ α) (Checked.orFail e o) := by
  intro s s' x x' t t' h h'
  exact Option.some.inj ((orFail_ok.mp h).1.symm.trans (orFail_ok.mp h').1)

theorem index (items : List α) (i : Nat) :
    Agree (Checked.index items i : Checked ε σ α) (Checked.index items i) := by
  intro s s' x x' t t' h h'
  exact Option.some.inj ((index_ok.mp h).1.symm.trans (index_ok.mp h').1)

theorem bind (hm : Agree m m') (hk : ∀ a, Agree (k a) (k' a)) : Agree (m >>= k) (m' >>= k') := by
  intro s s' b b' t t' h h'
  obtain ⟨a, s₁, hfirst, hrest⟩ := bind_ok.mp h
  obtain ⟨a', s₁', hfirst', hrest'⟩ := bind_ok.mp h'
  cases hm _ _ _ _ _ _ hfirst hfirst'
  exact hk a _ _ _ _ _ _ hrest hrest'

theorem after {f f' : σ → σ} (hm : Agree m m') : Agree (Checked.after m f) (Checked.after m' f') := by
  intro s s' a a' t t' h h'
  obtain ⟨s₁, hrun, -⟩ := after_ok.mp h
  obtain ⟨s₁', hrun', -⟩ := after_ok.mp h'
  exact hm _ _ _ _ _ _ hrun hrun'

theorem each {f f' : α → Checked ε σ β} (h : ∀ a, Agree (f a) (f' a)) (items : List α) :
    Agree (Checked.each f items) (Checked.each f' items) := by
  induction items with
  | nil => exact pure []
  | cons a rest ih => exact bind (h a) fun b => bind ih fun bs => pure (b :: bs)

end Agree

end Checked

end Library
