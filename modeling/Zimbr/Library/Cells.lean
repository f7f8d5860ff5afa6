import Mathlib.Algebra.BigOperators.Group.List.Basic
import Mathlib.Tactic.Abel

set_option autoImplicit false

/-!
# A fixed row of cells

An array of optional entries whose length never changes. A sweep visits every
entry in order, keeps or replaces it, and emits outputs.
-/
namespace Library

structure Cells (α : Type) (n : Nat) where
  cells : List (Option α)
  length_eq : cells.length = n

namespace Cells

variable {α ω M : Type} {n : Nat}

def empty (n : Nat) : Cells α n := ⟨List.replicate n none, List.length_replicate⟩

def entry (c : Cells α n) (i : Nat) : Option α := c.cells[i]?.join

/-- The cell `i` holds `a`. -/
def put (c : Cells α n) (i : Nat) (a : α) : Cells α n :=
  ⟨c.cells.set i (some a), List.length_set.trans c.length_eq⟩

def sweep (f : α → Option α × List ω) (c : Cells α n) : Cells α n × List ω :=
  (⟨c.cells.map fun x => x.bind fun a => (f a).1, (List.length_map _).trans c.length_eq⟩,
    c.cells.flatMap fun x => x.elim [] fun a => (f a).2)

instance instMembership : Membership α (Cells α n) := ⟨fun c a => some a ∈ c.cells⟩

section Members

variable {c : Cells α n} {f : α → Option α × List ω} {a b : α} {i : Nat}

theorem mem_def : a ∈ c ↔ some a ∈ c.cells := Iff.rfl

theorem not_mem_empty : a ∉ (empty n : Cells α n) := by
  intro h
  have hnone := List.eq_of_mem_replicate (mem_def.mp h)
  cases hnone

theorem mem_put (h : b ∈ c.put i a) : b ∈ c ∨ b = a := by
  rcases List.mem_or_eq_of_mem_set h with hold | hnew
  · exact Or.inl hold
  · exact Or.inr (Option.some.inj hnew)

theorem mem_sweep (h : b ∈ (sweep f c).1) : ∃ a ∈ c, (f a).1 = some b := by
  obtain ⟨x, hx, hbind⟩ := List.mem_map.mp h
  obtain ⟨a, rfl, hb⟩ := Option.bind_eq_some_iff.mp hbind
  exact ⟨a, hx, hb⟩

theorem mem_sweep_out {w : ω} (h : w ∈ (sweep f c).2) : ∃ a ∈ c, w ∈ (f a).2 := by
  obtain ⟨x, hx, hw⟩ := List.mem_flatMap.mp h
  cases x with
  | none => cases hw
  | some a => exact ⟨a, hx, hw⟩

end Members

section Totals

variable [AddCommMonoid M] (weight : α → M) (emits : ω → M)

def total (c : Cells α n) : M := (c.cells.map fun x => x.elim 0 weight).sum

variable {weight emits} {c : Cells α n} {f : α → Option α × List ω}

theorem sum_set (weight : α → M) {cells : List (Option α)} {i : Nat} (h : i < cells.length)
    (a : α) :
    weight a + (cells.map fun x => x.elim 0 weight).sum =
      ((cells.set i (some a)).map fun x => x.elim 0 weight).sum +
        cells[i]?.join.elim 0 weight := by
  induction cells generalizing i with
  | nil => cases h
  | cons x rest ih =>
    cases i with
    | zero =>
      simp only [List.map_cons, List.sum_cons, List.set_cons_zero, List.getElem?_cons_zero,
        Option.join_some, Option.elim_some]
      abel
    | succ i =>
      have hrest := ih (Nat.lt_of_succ_lt_succ h)
      simp only [List.map_cons, List.sum_cons, List.set_cons_succ, List.getElem?_cons_succ]
      rw [add_assoc, ← hrest]
      abel

/-- Putting an entry gains it and loses the one it takes the cell of. -/
theorem total_put (weight : α → M) (c : Cells α n) {i : Nat} (h : i < n) (a : α) :
    weight a + total weight c = total weight (c.put i a) + (c.entry i).elim 0 weight :=
  sum_set weight (h.trans_eq c.length_eq.symm) a

/-- A sweep that accounts for every entry accounts for all of them. -/
theorem total_sweep (h : ∀ a ∈ c, weight a = (f a).1.elim 0 weight + ((f a).2.map emits).sum) :
    total weight c = total weight (sweep f c).1 + ((sweep f c).2.map emits).sum := by
  have hcells (cells : List (Option α))
      (hs : ∀ a, some a ∈ cells → weight a = (f a).1.elim 0 weight + ((f a).2.map emits).sum) :
      (cells.map fun x => x.elim 0 weight).sum =
        ((cells.map fun x => x.bind fun a => (f a).1).map fun x => x.elim 0 weight).sum +
          ((cells.flatMap fun x => x.elim [] fun a => (f a).2).map emits).sum := by
    induction cells with
    | nil => simp
    | cons x rest ih =>
      have hrest := ih fun a ha => hs a (List.mem_cons_of_mem _ ha)
      simp only [List.map_cons, List.sum_cons, List.flatMap_cons, List.map_append,
        List.sum_append]
      rw [hrest]
      cases x with
      | none => simp
      | some a =>
        rw [Option.elim_some, hs a List.mem_cons_self]
        simp only [Option.bind_some, Option.elim_some]
        abel
  exact hcells c.cells h

end Totals

end Cells
end Library
