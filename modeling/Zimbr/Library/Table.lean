import Mathlib.Data.List.Nodup
import Mathlib.Tactic.SplitIfs

set_option autoImplicit false

/-!
# Keyed tables

A table is the list of its rows in insertion order; the primary key of every
row is unique by construction, so no statement can build a duplicate.
-/
namespace Library

structure Table (κ ρ : Type) where
  rows : List (κ × ρ)
  unique : (rows.map Prod.fst).Nodup

namespace Table

variable {κ ρ : Type}

def empty : Table κ ρ := ⟨[], List.nodup_nil⟩

instance : Inhabited (Table κ ρ) := ⟨empty⟩

def single (k : κ) (v : ρ) : Table κ ρ := ⟨[(k, v)], List.nodup_singleton k⟩

/-- `UPDATE … WHERE`: rewrite the columns of every row the predicate selects. -/
def modifyWhere (t : Table κ ρ) (p : κ → ρ → Bool) (f : ρ → ρ) : Table κ ρ where
  rows := t.rows.map fun r => (r.1, if p r.1 r.2 then f r.2 else r.2)
  unique := by
    rw [List.map_map]
    exact t.unique

/-- `DELETE … WHERE`. -/
def deleteWhere (t : Table κ ρ) (p : κ → ρ → Bool) : Table κ ρ where
  rows := t.rows.filter fun r => !p r.1 r.2
  unique := (List.filter_sublist.map Prod.fst).nodup t.unique

def select (t : Table κ ρ) (p : κ → ρ → Bool) : List (κ × ρ) :=
  t.rows.filter fun r => p r.1 r.2

@[simp] theorem modifyWhere_single (k : κ) (v : ρ) (p : κ → ρ → Bool) (f : ρ → ρ) :
    (single k v).modifyWhere p f = single k (if p k v then f v else v) := rfl

theorem deleteWhere_single {k : κ} {v : ρ} {p : κ → ρ → Bool} (h : p k v = true) :
    (single k v).deleteWhere p = empty := by
  simp [single, deleteWhere, empty, h]

theorem select_keys_nodup (t : Table κ ρ) (p : κ → ρ → Bool) :
    ((t.select p).map Prod.fst).Nodup :=
  (List.filter_sublist.map Prod.fst).nodup t.unique

variable [DecidableEq κ]

def get? (t : Table κ ρ) (k : κ) : Option ρ :=
  (t.rows.find? fun r => decide (r.1 = k)).map Prod.snd

def contains (t : Table κ ρ) (k : κ) : Bool := (t.get? k).isSome

def modify (t : Table κ ρ) (k : κ) (f : ρ → ρ) : Table κ ρ :=
  t.modifyWhere (fun k' _ => decide (k' = k)) f

theorem get?_eq_none_iff (t : Table κ ρ) (k : κ) :
    t.get? k = none ↔ ∀ v, (k, v) ∉ t.rows := by
  simp only [get?, Option.map_eq_none_iff, List.find?_eq_none, decide_eq_true_eq]
  exact ⟨fun h v hv => h _ hv rfl, fun h r hr hk => h r.2 (hk ▸ hr)⟩

theorem get?_eq_some_iff (t : Table κ ρ) (k : κ) (v : ρ) :
    t.get? k = some v ↔ (k, v) ∈ t.rows := by
  obtain ⟨rows, unique⟩ := t
  simp only [get?]
  induction rows with
  | nil => simp
  | cons r rest ih =>
    obtain ⟨fresh, tail⟩ := List.nodup_cons.mp unique
    by_cases h : r.1 = k
    · subst h
      have habsent : (r.1, v) ∉ rest := fun hv => fresh (List.mem_map.mpr ⟨_, hv, rfl⟩)
      rw [List.find?_cons_of_pos (by simp), Option.map_some, Option.some.injEq, List.mem_cons]
      constructor
      · rintro rfl
        exact Or.inl rfl
      · rintro (hv | hv)
        · rw [← hv]
        · exact absurd hv habsent
    · have hne : (k, v) ≠ r := fun hr => h (by rw [← hr])
      simp [h, ih tail, hne]

/-- `INSERT`: a row with a key already present violates the primary key. -/
def insert (t : Table κ ρ) (k : κ) (v : ρ) : Option (Table κ ρ) :=
  if h : k ∈ t.rows.map Prod.fst then none
  else some ⟨t.rows ++ [(k, v)], by
    rw [List.map_append, List.map_singleton]
    refine t.unique.append (List.nodup_singleton k) ?_
    intro x hx hk
    rw [List.mem_singleton.mp hk] at hx
    exact h hx⟩

/-- `INSERT … ON CONFLICT(key) DO UPDATE`. -/
def upsert (t : Table κ ρ) (k : κ) (new : ρ) (update : ρ → ρ) : Table κ ρ :=
  (t.insert k new).getD (t.modify k update)

@[simp] theorem get?_empty (k : κ) : (empty : Table κ ρ).get? k = none := rfl

@[simp] theorem get?_single (k : κ) (v : ρ) : (single k v).get? k = some v := by
  simp [single, get?]

@[simp] theorem modify_single (k : κ) (v : ρ) (f : ρ → ρ) :
    (single k v).modify k f = single k (f v) := by
  simp [modify]

theorem get?_modifyWhere (t : Table κ ρ) (p : κ → ρ → Bool) (f : ρ → ρ) (k : κ) :
    (t.modifyWhere p f).get? k = (t.get? k).map fun v => if p k v then f v else v := by
  apply Option.ext
  intro v
  simp only [get?_eq_some_iff, Option.map_eq_some_iff, modifyWhere, List.mem_map, Prod.mk.injEq]
  constructor
  · rintro ⟨r, hr, rfl, rfl⟩
    exact ⟨r.2, hr, rfl⟩
  · rintro ⟨w, hw, rfl⟩
    exact ⟨(k, w), hw, rfl, rfl⟩

theorem modifyWhere_eq_self {t : Table κ ρ} {p : κ → ρ → Bool} {f : ρ → ρ}
    (h : ∀ k v, t.get? k = some v → p k v = false) : t.modifyWhere p f = t := by
  have hrows : (t.rows.map fun r => (r.1, if p r.1 r.2 then f r.2 else r.2)) = t.rows := by
    rw [List.map_congr_left (g := id), List.map_id]
    intro r hr
    rw [h r.1 r.2 ((get?_eq_some_iff t r.1 r.2).mpr hr)]
    rfl
  cases t
  simp only [modifyWhere, mk.injEq]
  exact hrows

@[simp] theorem get?_modify (t : Table κ ρ) (k : κ) (f : ρ → ρ) (k' : κ) :
    (t.modify k f).get? k' = if k' = k then (t.get? k').map f else t.get? k' := by
  rw [modify, get?_modifyWhere]
  by_cases h : k' = k <;> simp [h]

theorem get?_deleteWhere (t : Table κ ρ) (p : κ → ρ → Bool) (k : κ) :
    (t.deleteWhere p).get? k = (t.get? k).filter fun v => !p k v := by
  apply Option.ext
  intro v
  rw [get?_eq_some_iff]
  simp [deleteWhere, Option.filter_eq_some_iff, get?_eq_some_iff]

theorem insert_eq_none_iff (t : Table κ ρ) (k : κ) (v : ρ) :
    t.insert k v = none ↔ (t.get? k).isSome := by
  rw [insert]
  split_ifs with h
  · obtain ⟨r, hr, rfl⟩ := List.mem_map.mp h
    simp [(get?_eq_some_iff t r.1 r.2).mpr hr]
  · have habsent : t.get? k = none :=
      (get?_eq_none_iff t k).mpr fun w hw => h (List.mem_map.mpr ⟨_, hw, rfl⟩)
    simp [habsent]

theorem insert_isSome (t : Table κ ρ) (k : κ) (v : ρ) (h : t.get? k = none) :
    ∃ t', t.insert k v = some t' := by
  rw [← Option.isSome_iff_exists, Option.isSome_iff_ne_none, ne_eq, insert_eq_none_iff, h]
  simp

theorem get?_of_insert {t t' : Table κ ρ} {k : κ} {v : ρ} (h : t.insert k v = some t') :
    t.get? k = none := by
  by_contra hk
  rw [(insert_eq_none_iff t k v).mpr (Option.isSome_iff_ne_none.mpr hk)] at h
  simp at h

theorem rows_insert {t t' : Table κ ρ} {k : κ} {v : ρ} (h : t.insert k v = some t') :
    t'.rows = t.rows ++ [(k, v)] := by
  unfold insert at h
  split at h
  · simp at h
  · simp only [Option.some.injEq] at h
    rw [← h]

theorem get?_insert {t t' : Table κ ρ} {k : κ} {v : ρ} (h : t.insert k v = some t') (k' : κ) :
    t'.get? k' = if k' = k then some v else t.get? k' := by
  have habsent := get?_of_insert h
  rw [get?, rows_insert h, List.find?_append]
  by_cases hk : k' = k
  · subst hk
    have hnone : (t.rows.find? fun r => decide (r.1 = k')) = none := by
      simpa [get?] using habsent
    simp [hnone]
  · have hk' : ¬ k = k' := fun h => hk h.symm
    simp [hk, hk', get?]

/-- What holds of every row still does after an insertion that has it. -/
theorem all_insert {P : κ → ρ → Prop} {t t' : Table κ ρ} {k : κ} {v : ρ}
    (ht : ∀ k v, t.get? k = some v → P k v) (h : t.insert k v = some t') (hnew : P k v) :
    ∀ k v, t'.get? k = some v → P k v := by
  intro k' v' hrow
  rw [get?_insert h] at hrow
  split_ifs at hrow with hk
  · rw [hk, ← Option.some.inj hrow]
    exact hnew
  · exact ht k' v' hrow

theorem all_modify {P : κ → ρ → Prop} {t : Table κ ρ} {k : κ} {f : ρ → ρ}
    (ht : ∀ k v, t.get? k = some v → P k v) (hf : ∀ v, P k v → P k (f v)) :
    ∀ k' v, (t.modify k f).get? k' = some v → P k' v := by
  intro k' v' hrow
  rw [get?_modify] at hrow
  split_ifs at hrow with hk
  · obtain ⟨v, hv, rfl⟩ := Option.map_eq_some_iff.mp hrow
    rw [hk] at hv ⊢
    exact hf v (ht k v hv)
  · exact ht k' v' hrow

theorem get?_upsert (t : Table κ ρ) (k : κ) (new : ρ) (update : ρ → ρ) (k' : κ) :
    (t.upsert k new update).get? k' =
      if k' = k then some ((t.get? k).elim new update) else t.get? k' := by
  unfold upsert
  cases h : t.insert k new with
  | none =>
    obtain ⟨old, hold⟩ := Option.isSome_iff_exists.mp ((insert_eq_none_iff t k new).mp h)
    rw [Option.getD_none, get?_modify]
    by_cases hk : k' = k <;> simp [hk, hold]
  | some t' =>
    rw [Option.getD_some, get?_insert h, get?_of_insert h]
    simp

theorem get?_select {t : Table κ ρ} {p : κ → ρ → Bool} {r : κ × ρ} :
    r ∈ t.select p ↔ t.get? r.1 = some r.2 ∧ p r.1 r.2 = true := by
  simp [select, get?_eq_some_iff]

theorem select_length_le_one {t : Table κ ρ} {p : κ → ρ → Bool} (k : κ)
    (h : ∀ k' v, p k' v = true → k' = k) : (t.select p).length ≤ 1 := by
  have hnodup := t.select_keys_nodup p
  rcases hrows : t.select p with _ | ⟨r, _ | ⟨s, rest⟩⟩
  · exact Nat.zero_le _
  · exact Nat.le_refl _
  · have hkey (q : κ × ρ) (hq : q ∈ t.select p) : q.1 = k := h q.1 q.2 (get?_select.mp hq).2
    rw [hrows] at hnodup hkey
    have hr := hkey r (by simp)
    have hs := hkey s (by simp)
    simp [hr, hs] at hnodup

end Table

end Library
