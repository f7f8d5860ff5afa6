import Mathlib.Algebra.GroupWithZero.Nat
import Mathlib.Data.List.Induction
import Mathlib.Data.List.Nodup
import Mathlib.Tactic.SplitIfs

set_option autoImplicit false

/-!
# Grouping a list by a key

One pass over a list keeps a group for each key, in the order of their first
items, and folds the items of a group into its value.
-/
namespace Library

/-- The items of one key, and what they were folded into. -/
structure Group (κ α β : Type) where
  key : κ
  items : List α
  value : β

namespace Group

variable {κ α β : Type} [DecidableEq κ] (key : α → κ) (start : α → β) (join : β → α → β)

def add (groups : List (Group κ α β)) (a : α) : List (Group κ α β) :=
  if groups.any fun g => decide (g.key = key a) then
    groups.map fun g =>
      if g.key = key a then { g with items := g.items ++ [a], value := join g.value a } else g
  else groups ++ [{ key := key a, items := [a], value := start a }]

def collect (items : List α) : List (Group κ α β) := items.foldl (add key start join) []

variable {key start join}

section Step

variable {groups : List (Group κ α β)} {a : α}

theorem add_keys : (add key start join groups a).map Group.key =
    if groups.any fun g => decide (g.key = key a) then groups.map Group.key
    else groups.map Group.key ++ [key a] := by
  unfold add
  split_ifs
  · rw [List.map_map]
    refine List.map_congr_left fun g _ => ?_
    simp only [Function.comp_apply]
    split_ifs <;> rfl
  · rw [List.map_append, List.map_singleton]

/-- A group after a step is as before, took the item, or was started by it. -/
theorem mem_add {g : Group κ α β} (h : g ∈ add key start join groups a) :
    (g ∈ groups ∧ g.key ≠ key a) ∨
    (∃ old ∈ groups, old.key = key a ∧
      g = { old with items := old.items ++ [a], value := join old.value a }) ∨
    (g = { key := key a, items := [a], value := start a } ∧ ∀ old ∈ groups, old.key ≠ key a) := by
  unfold add at h
  split_ifs at h with hfound
  · obtain ⟨old, hold, rfl⟩ := List.mem_map.mp h
    by_cases hkey : old.key = key a
    · rw [if_pos hkey]
      exact Or.inr (Or.inl ⟨old, hold, hkey, rfl⟩)
    · rw [if_neg hkey]
      exact Or.inl ⟨hold, hkey⟩
  · have hnew : ∀ old ∈ groups, old.key ≠ key a := by simpa using hfound
    rcases List.mem_append.mp h with hold | hlast
    · exact Or.inl ⟨hold, hnew g hold⟩
    · exact Or.inr (Or.inr ⟨List.mem_singleton.mp hlast, hnew⟩)

end Step

section Collected

variable {items : List α}

theorem collect_append (items : List α) (a : α) :
    collect key start join (items ++ [a]) = add key start join (collect key start join items) a := by
  simp [collect, List.foldl_append]

theorem keys_nodup (items : List α) : ((collect key start join items).map Group.key).Nodup := by
  induction items using List.reverseRecOn with
  | nil => exact List.nodup_nil
  | append_singleton items a ih =>
    rw [collect_append, add_keys]
    split_ifs with hfound
    · exact ih
    · refine ih.append (List.nodup_singleton _) fun k hk hlast => ?_
      obtain ⟨g, hg, hkey⟩ := List.mem_map.mp hk
      have hsame : g.key = key a := hkey.trans (List.mem_singleton.mp hlast)
      exact hfound (List.any_eq_true.mpr ⟨g, hg, decide_eq_true hsame⟩)

theorem key_mem {k : κ} : k ∈ (collect key start join items).map Group.key ↔ k ∈ items.map key := by
  induction items using List.reverseRecOn with
  | nil => exact Iff.rfl
  | append_singleton items a ih =>
    rw [collect_append, add_keys, List.map_append, List.map_singleton, List.mem_append, ← ih,
      List.mem_singleton]
    split_ifs with hfound
    · obtain ⟨g, hg, hkey⟩ := List.any_eq_true.mp hfound
      refine ⟨Or.inl, fun h => h.elim id ?_⟩
      rintro rfl
      exact List.mem_map.mpr ⟨g, hg, of_decide_eq_true hkey⟩
    · rw [List.mem_append, List.mem_singleton]

theorem items_eq {g : Group κ α β} (h : g ∈ collect key start join items) :
    g.items = items.filter fun a => decide (key a = g.key) := by
  induction items using List.reverseRecOn generalizing g with
  | nil => exact absurd h List.not_mem_nil
  | append_singleton items a ih =>
    rw [collect_append] at h
    rw [List.filter_append]
    rcases mem_add h with ⟨hold, hkey⟩ | ⟨old, hold, hkey, rfl⟩ | ⟨rfl, hnew⟩
    · rw [ih hold, List.filter_singleton, decide_eq_false (Ne.symm hkey), cond_false,
        List.append_nil]
    · dsimp only
      rw [ih hold, List.filter_singleton, decide_eq_true hkey.symm, cond_true]
    · have hnone : items.filter (fun b => decide (key b = key a)) = [] := by
        rw [List.filter_eq_nil_iff]
        intro b hb hkey
        have hmem : key a ∈ (collect key start join items).map Group.key := by
          rw [key_mem, ← of_decide_eq_true hkey]
          exact List.mem_map_of_mem hb
        obtain ⟨old, hold, hsame⟩ := List.mem_map.mp hmem
        exact hnew old hold hsame
      dsimp only
      rw [hnone, List.nil_append, List.filter_singleton, decide_eq_true rfl, cond_true]

/-- What starting fixes by the key and joining keeps is fixed for every group. -/
theorem value_label {γ : Type} (label : β → γ) (of : κ → γ)
    (hstart : ∀ a ∈ items, label (start a) = of (key a))
    (hjoin : ∀ b a, label (join b a) = label b) {g : Group κ α β}
    (h : g ∈ collect key start join items) : label g.value = of g.key := by
  induction items using List.reverseRecOn generalizing g with
  | nil => exact absurd h List.not_mem_nil
  | append_singleton items a ih =>
    have hearlier := fun b hb => hstart b (List.mem_append_left [a] hb)
    rw [collect_append] at h
    rcases mem_add h with ⟨hold, -⟩ | ⟨old, hold, -, rfl⟩ | ⟨rfl, -⟩
    · exact ih hearlier hold
    · exact (hjoin old.value a).trans (ih hearlier hold)
    · exact hstart a (List.mem_append_right items (List.mem_singleton_self a))

theorem value_sum (weight : β → Nat) (of : α → Nat) (hstart : ∀ a, weight (start a) = of a)
    (hjoin : ∀ b a, weight (join b a) = weight b + of a) {g : Group κ α β}
    (h : g ∈ collect key start join items) : weight g.value = (g.items.map of).sum := by
  induction items using List.reverseRecOn generalizing g with
  | nil => exact absurd h List.not_mem_nil
  | append_singleton items a ih =>
    rw [collect_append] at h
    rcases mem_add h with ⟨hold, -⟩ | ⟨old, hold, -, rfl⟩ | ⟨rfl, -⟩
    · exact ih hold
    · dsimp only
      rw [hjoin, ih hold, List.map_append, List.sum_append, List.map_singleton,
        List.sum_singleton]
    · dsimp only
      rw [hstart, List.map_singleton, List.sum_singleton]

end Collected

end Group

end Library
