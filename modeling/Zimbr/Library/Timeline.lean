import Mathlib.Data.List.Basic
import Mathlib.Logic.Function.Iterate

set_option autoImplicit false

/-!
# Bounded history

A value with those before it and those undone, newest first. A change saves a value to
come back to and drops what was undone.
-/
namespace Library

structure Timeline (α : Type) where
  past : List α
  here : α
  future : List α

namespace Timeline

variable {α : Type} {t : Timeline α}

def back (t : Timeline α) : Timeline α :=
  match t.past with
  | [] => t
  | v :: past => ⟨past, v, t.here :: t.future⟩

def forth (t : Timeline α) : Timeline α :=
  match t.future with
  | [] => t
  | v :: future => ⟨t.here :: t.past, v, future⟩

/-- A change to `next` after which `saved` is gone back to. -/
def record (limit : Nat) (t : Timeline α) (saved next : α) : Timeline α :=
  ⟨(saved :: t.past).take limit, next, []⟩

theorem forth_back (h : t.past ≠ []) : forth (back t) = t := by
  obtain ⟨past, here, future⟩ := t
  cases past with
  | nil => exact absurd rfl h
  | cons v past => rfl

theorem back_length (t : Timeline α) : (back t).past.length = t.past.length - 1 := by
  obtain ⟨past, here, future⟩ := t
  cases past <;> rfl

theorem forth_back_iterate (n : Nat) (h : n ≤ t.past.length) : forth^[n] (back^[n] t) = t := by
  induction n generalizing t with
  | zero => rfl
  | succ n ih =>
    have hne : t.past ≠ [] := List.ne_nil_of_length_pos (by omega)
    have hrest : n ≤ (back t).past.length := by
      rw [back_length]
      omega
    rw [Function.iterate_succ_apply' forth, Function.iterate_succ_apply back, ih hrest,
      forth_back hne]

/-- Going back over saved values ends at the oldest of them. -/
theorem back_iterate {saved rest : List α} {v : α} (h : t.past = saved ++ v :: rest) :
    (back^[saved.length + 1] t).here = v := by
  induction saved generalizing t with
  | nil =>
    obtain ⟨past, here, future⟩ := t
    cases h
    rfl
  | cons first saved ih =>
    obtain ⟨past, here, future⟩ := t
    cases h
    rw [List.length_cons, Function.iterate_succ_apply]
    exact ih rfl

def records (limit : Nat) (t : Timeline α) (edits : List (α × α)) : Timeline α :=
  edits.foldl (fun t edit => t.record limit edit.1 edit.2) t

theorem take_append_take (limit : Nat) (xs ys : List α) :
    (xs ++ ys.take limit).take limit = (xs ++ ys).take limit := by
  rw [List.take_append, List.take_append, List.take_take, Nat.min_eq_left (Nat.sub_le _ _)]

theorem records_past {limit : Nat} (h : t.past.length ≤ limit) (edits : List (α × α)) :
    (records limit t edits).past = ((edits.map Prod.fst).reverse ++ t.past).take limit := by
  induction edits generalizing t with
  | nil => exact (List.take_of_length_le h).symm
  | cons edit rest ih =>
    have hkept : (t.record limit edit.1 edit.2).past.length ≤ limit := List.length_take_le _ _
    have hrest := ih hkept
    change (records limit (t.record limit edit.1 edit.2) rest).past = _
    rw [hrest, record, take_append_take, List.map_cons, List.reverse_cons, List.append_assoc,
      List.singleton_append]

/-- Going back over as many changes as were made, and no more than are kept, ends at what
the first of them saved. -/
theorem back_records {limit : Nat} (h : t.past.length ≤ limit) {saved next : α}
    {rest : List (α × α)} (hlength : rest.length + 1 ≤ limit) :
    (back^[rest.length + 1] (records limit t ((saved, next) :: rest))).here = saved := by
  have hpast : (records limit t ((saved, next) :: rest)).past =
      (rest.map Prod.fst).reverse ++ saved :: t.past.take (limit - rest.length - 1) := by
    obtain ⟨room, hroom⟩ := Nat.exists_eq_add_of_le hlength
    rw [records_past h, List.map_cons, List.reverse_cons, List.append_assoc, List.singleton_append,
      List.take_append, List.length_reverse, List.length_map,
      List.take_of_length_le (by simp; omega), hroom]
    have hleft : rest.length + 1 + room - rest.length = room + 1 := by omega
    have hkept : rest.length + 1 + room - rest.length - 1 = room := by omega
    rw [hkept, hleft, List.take_succ_cons]
  have hback := back_iterate hpast
  rwa [List.length_reverse, List.length_map] at hback

end Timeline

end Library
