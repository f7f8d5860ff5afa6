import Mathlib.Data.List.Basic
import Mathlib.Data.List.DropRight
import Mathlib.Data.Nat.ModEq
import Mathlib.Logic.Function.Basic

set_option autoImplicit false

/-!
# Ring buffers

A fixed number of slots holds the newest items. A new one overwrites the oldest
once all slots are taken.
-/
namespace Library

/-- The newest items of a list, at most `n`. -/
def newest {α : Type} (n : Nat) (items : List α) : List α := items.drop (items.length - n)

section Newest

variable {α : Type} {n : Nat}

@[simp] theorem newest_nil : newest n ([] : List α) = [] := List.drop_nil

theorem newest_of_le {items : List α} (h : items.length ≤ n) : newest n items = items := by
  rw [newest, Nat.sub_eq_zero_of_le h, List.drop_zero]

theorem newest_append (items later : List α) :
    newest n (newest n items ++ later) = newest n (items ++ later) := by
  have hsplit : newest n items ++ later = (items ++ later).drop (items.length - n) := by
    rw [newest, List.drop_append_of_le_length (Nat.sub_le _ _)]
  rw [newest, hsplit, newest, List.drop_drop, List.length_drop, List.length_append]
  congr 1
  omega

theorem newest_map {β : Type} (f : α → β) (items : List α) :
    (newest n items).map f = newest n (items.map f) := by
  rw [newest, newest, List.map_drop, List.length_map]

end Newest

/-- A slot that was not written holds anything. -/
structure RingBuffer (α : Type) where
  slots : Nat → α
  start : Nat
  count : Nat

namespace RingBuffer

variable {α : Type} (capacity : Nat) (r : RingBuffer α)

def push (a : α) : RingBuffer α where
  slots := Function.update r.slots ((r.start + r.count) % capacity) a
  start := if r.count < capacity then r.start else (r.start + 1) % capacity
  count := if r.count < capacity then r.count + 1 else r.count

def contents : List α := (List.range r.count).map fun i => r.slots ((r.start + i) % capacity)

structure Valid : Prop where
  start : r.start < capacity
  count : r.count ≤ capacity

variable {capacity r} {a : α}

@[simp] theorem contents_length : (contents capacity r).length = r.count := by
  rw [contents, List.length_map, List.length_range]

theorem Valid.push (h : Valid capacity r) : Valid capacity (r.push capacity a) := by
  obtain ⟨hstart, hcount⟩ := h
  unfold RingBuffer.push
  constructor
  · dsimp only
    split_ifs
    · exact hstart
    · exact Nat.mod_lt _ (by omega)
  · dsimp only
    split_ifs <;> omega

theorem index_injective {start i j : Nat} (hij : i < j) (hj : j < i + capacity) :
    (start + i) % capacity ≠ (start + j) % capacity := by
  intro hsame
  have hdvd : capacity ∣ (start + j) - (start + i) := (Nat.modEq_iff_dvd' (by omega)).mp hsame
  have hle := Nat.le_of_dvd (by omega) hdvd
  omega

/-- A push appends an item, and drops the oldest if the ring was full. -/
theorem push_contents (h : Valid capacity r) :
    contents capacity (r.push capacity a) = newest capacity (contents capacity r ++ [a]) := by
  obtain ⟨hstart, hcount⟩ := h
  have hkept : ∀ i < r.count, r.count < i + capacity →
      (r.push capacity a).slots ((r.start + i) % capacity) = r.slots ((r.start + i) % capacity) :=
    fun i hi hturn => Function.update_of_ne (index_injective hi hturn) _ _
  have hnew : (r.push capacity a).slots ((r.start + r.count) % capacity) = a :=
    Function.update_self _ _ _
  by_cases hroom : r.count < capacity
  · have hpushed : contents capacity (r.push capacity a) = contents capacity r ++ [a] := by
      unfold contents
      rw [show (r.push capacity a).count = r.count + 1 from if_pos hroom,
        show (r.push capacity a).start = r.start from if_pos hroom, List.range_succ, List.map_append,
        List.map_singleton, hnew]
      congr 1
      refine List.map_congr_left fun i hi => hkept i (List.mem_range.mp hi) ?_
      omega
    rw [hpushed, newest_of_le (by simp; omega)]
  · have hfull : r.count = capacity := by omega
    have hstart' : (r.push capacity a).start = (r.start + 1) % capacity := if_neg hroom
    have hcount' : (r.push capacity a).count = r.count := if_neg hroom
    have hshift : ∀ i, ((r.push capacity a).start + i) % capacity = (r.start + (i + 1)) % capacity := by
      intro i
      rw [hstart', Nat.mod_add_mod, Nat.add_assoc, Nat.add_comm 1 i]
    obtain ⟨k, hk⟩ : ∃ k, r.count = k + 1 := ⟨r.count - 1, by omega⟩
    have hold : contents capacity r = r.slots ((r.start + 0) % capacity) ::
        (List.range k).map fun i => r.slots ((r.start + (i + 1)) % capacity) := by
      rw [contents, hk, List.range_succ_eq_map, List.map_cons, List.map_map]
      rfl
    have hpushed : contents capacity (r.push capacity a) =
        ((List.range k).map fun i => r.slots ((r.start + (i + 1)) % capacity)) ++ [a] := by
      rw [contents, hcount', hk, List.range_succ, List.map_append, List.map_singleton, hshift, ← hk,
        hnew]
      congr 1
      refine List.map_congr_left fun i hi => ?_
      have hlt := List.mem_range.mp hi
      rw [hshift, hkept (i + 1) (by omega) (by omega)]
    have hlength : (contents capacity r ++ [a]).length - capacity = 1 := by
      rw [List.length_append, contents_length, List.length_singleton]
      omega
    rw [newest, hlength, hold, hpushed]
    rfl

end RingBuffer

end Library
