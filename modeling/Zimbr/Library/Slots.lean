import Mathlib.Data.List.Induction
import Zimbr.Library.Table

set_option autoImplicit false

/-!
# Slots

What a slot holds after a sequence of effects: the last value put there, unless
something later cleared it.
-/
namespace Library

inductive Effect (ν : Type) where
  | put (v : ν)
  /-- Drop the held value if it has the property. -/
  | clear (p : ν → Bool)
  | keep

namespace Effect

variable {ν : Type}

def apply : Effect ν → Option ν → Option ν
  | .put v, _ => some v
  | .clear p, held => held.filter fun v => !p v
  | .keep, held => held

def Spares (v : ν) : Effect ν → Prop
  | .put _ => False
  | .clear p => p v = false
  | .keep => True

def final (effects : List (Effect ν)) : Option ν :=
  effects.foldl (fun held e => e.apply held) none

theorem final_snoc (effects : List (Effect ν)) (e : Effect ν) :
    final (effects ++ [e]) = e.apply (final effects) := by
  rw [final, List.foldl_append]
  rfl

/-- A value held after an effect was just put, or held before and spared. -/
theorem apply_eq_some {e : Effect ν} {held : Option ν} {v : ν} :
    e.apply held = some v ↔ e = .put v ∨ (held = some v ∧ e.Spares v) := by
  cases e with
  | put w =>
    constructor
    · intro h
      rw [show w = v from Option.some.inj h]
      exact Or.inl rfl
    · rintro (h | ⟨-, h⟩)
      · rw [h]
        rfl
      · exact h.elim
  | clear p =>
    simp only [apply, Option.filter_eq_some_iff, Bool.not_eq_true', Spares]
    constructor
    · exact Or.inr
    · rintro (h | h)
      · cases h
      · exact h
  | keep =>
    constructor
    · exact fun h => Or.inr ⟨h, trivial⟩
    · rintro (h | h)
      · cases h
      · exact h.1

/-- A value is held at the end just when it was put and everything after it spared it. -/
theorem final_eq_some {effects : List (Effect ν)} {v : ν} : final effects = some v ↔
    ∃ before after, effects = before ++ .put v :: after ∧ ∀ e ∈ after, e.Spares v := by
  induction effects using List.reverseRecOn with
  | nil =>
    constructor
    · intro h
      cases h
    · rintro ⟨before, after, h, -⟩
      simp at h
  | append_singleton effects e ih =>
    rw [final_snoc, apply_eq_some, ih]
    constructor
    · rintro (rfl | ⟨⟨before, after, rfl, hafter⟩, he⟩)
      · exact ⟨effects, [], rfl, by simp⟩
      · refine ⟨before, after ++ [e], by simp, fun e' he' => ?_⟩
        rcases List.mem_append.mp he' with h | h
        · exact hafter e' h
        · rwa [List.mem_singleton.mp h]
    · rintro ⟨before, after, h, hafter⟩
      rcases List.eq_nil_or_concat after with rfl | ⟨after, last, rfl⟩
      · obtain ⟨-, he⟩ := List.append_inj' h rfl
        exact Or.inl (List.cons.inj he).1
      · rw [List.concat_eq_append] at h hafter
        rw [← List.cons_append, ← List.append_assoc] at h
        obtain ⟨heffects, he⟩ := List.append_inj' h rfl
        rw [(List.cons.inj he).1]
        exact Or.inr ⟨⟨before, after, heffects, fun e' he' => hafter e' (List.mem_append_left _ he')⟩,
          hafter last (List.mem_append_right _ List.mem_cons_self)⟩

/-- The value of the last row that put it, when each later row spares it. -/
theorem final_rows {α : Type} {f : α → Option (Effect ν)} {rows : List α} {v : ν} :
    final (rows.filterMap f) = some v ↔ ∃ before a after, rows = before ++ a :: after ∧
      f a = some (.put v) ∧ ∀ b ∈ after, ∀ e, f b = some e → e.Spares v := by
  rw [final_eq_some]
  constructor
  · rintro ⟨before, after, h, hafter⟩
    obtain ⟨first, rest, rfl, -, hrest⟩ := List.filterMap_eq_append_iff.mp h
    obtain ⟨skipped, a, last, rfl, -, ha, hlast⟩ := List.filterMap_eq_cons_iff.mp hrest
    refine ⟨first ++ skipped, a, last, by rw [List.append_assoc], ha, fun b hb e he => ?_⟩
    exact hafter e (hlast ▸ List.mem_filterMap.mpr ⟨b, hb, he⟩)
  · rintro ⟨before, a, after, rfl, ha, hafter⟩
    refine ⟨before.filterMap f, after.filterMap f, ?_, fun e he => ?_⟩
    · rw [List.filterMap_append, List.filterMap_cons, ha]
    · obtain ⟨b, hb, he⟩ := List.mem_filterMap.mp he
      exact hafter b hb e he

end Effect

namespace Slots

variable {κ ν : Type} [DecidableEq κ]

def step (slots : Table κ (Option ν)) (op : κ × Effect ν) : Table κ (Option ν) :=
  slots.upsert op.1 (op.2.apply none) op.2.apply

def settle (ops : List (κ × Effect ν)) : Table κ (Option ν) := ops.foldl step .empty

def held (slots : Table κ (Option ν)) : List ν := slots.rows.filterMap Prod.snd

def on (k : κ) (ops : List (κ × Effect ν)) : List (Effect ν) :=
  (ops.filter fun op => decide (op.1 = k)).map Prod.snd

theorem get?_settle (ops : List (κ × Effect ν)) (k : κ) :
    ((settle ops).get? k).join = Effect.final (on k ops) := by
  induction ops using List.reverseRecOn with
  | nil => rfl
  | append_singleton ops op ih =>
    have hsettle : settle (ops ++ [op]) = step (settle ops) op := by
      rw [settle, List.foldl_append]
      rfl
    have hon : on k (ops ++ [op]) = on k ops ++ on k [op] := by
      rw [on, List.filter_append, List.map_append]
      rfl
    rw [hsettle, step, Table.get?_upsert, hon]
    by_cases hk : k = op.1
    · have hsingle : on k [op] = [op.2] := by simp [on, hk]
      rw [if_pos hk, hsingle, Effect.final_snoc, ← ih, ← hk]
      cases (settle ops).get? k <;> rfl
    · have hempty : on k [op] = [] := by simp [on, Ne.symm hk]
      rw [if_neg hk, hempty, List.append_nil, ih]

theorem mem_held {ops : List (κ × Effect ν)} {v : ν} :
    v ∈ held (settle ops) ↔ ∃ k, Effect.final (on k ops) = some v := by
  simp only [held, List.mem_filterMap, ← get?_settle]
  constructor
  · rintro ⟨⟨k, w⟩, hmem, hv⟩
    rw [show w = some v from hv] at hmem
    exact ⟨k, by rw [(Table.get?_eq_some_iff _ _ _).mpr hmem]; rfl⟩
  · rintro ⟨k, hv⟩
    obtain hget : (settle ops).get? k = some (some v) := Option.join_eq_some_iff.mp hv
    exact ⟨(k, some v), (Table.get?_eq_some_iff _ _ _).mp hget, rfl⟩

theorem on_filterMap {α : Type} (k : κ) (f : α → Option (κ × Effect ν)) (rows : List α) :
    on k (rows.filterMap f) = rows.filterMap fun a =>
      (f a).bind fun op => if op.1 = k then some op.2 else none := by
  induction rows with
  | nil => rfl
  | cons a rest ih =>
    cases hf : f a with
    | none => simpa [hf, on] using ih
    | some op =>
      by_cases hk : op.1 = k
      · simpa [hf, hk, on] using ih
      · simpa [hf, hk, on] using ih

theorem held_pairwise {ops : List (κ × Effect ν)} {slotOf : ν → κ}
    (h : ∀ k v, Effect.final (on k ops) = some v → slotOf v = k) :
    (held (settle ops)).Pairwise fun v w => slotOf v ≠ slotOf w := by
  have hkeys : (settle ops).rows.Pairwise fun r s => r.1 ≠ s.1 :=
    List.pairwise_map.mp (settle ops).unique
  have hrow (r : κ × Option ν) (hr : r ∈ (settle ops).rows) (v : ν) (hv : r.2 = some v) :
      slotOf v = r.1 := by
    refine h r.1 v ?_
    rw [← get?_settle, (Table.get?_eq_some_iff _ r.1 r.2).mpr hr, hv]
    rfl
  refine List.pairwise_filterMap.mpr ?_
  refine hkeys.imp_of_mem fun {r s} hr hs hne v hv w hw => ?_
  rw [hrow r hr v hv, hrow s hs w hw]
  exact hne

end Slots

end Library
