import Mathlib.Algebra.GroupWithZero.Nat
import Mathlib.Algebra.Order.BigOperators.Group.List
import Mathlib.Algebra.Order.Group.Nat
import Mathlib.Data.List.Perm.Subperm
import Zimbr.Library.Table

set_option autoImplicit false

/-!
# Totals of a table

The number of rows, and the sum of a column over them. Neither grows while every
row has a counterpart of the same weight.
-/
namespace Library
namespace Table

variable {κ ρ : Type} (weight : ρ → Nat)

/-- `SELECT coalesce(sum(column),0)`. -/
def total (t : Table κ ρ) : Nat := (t.rows.map fun r => weight r.2).sum

variable [DecidableEq κ]

/-- Every row has a counterpart of the same weight. -/
def Within (t' t : Table κ ρ) : Prop :=
  ∀ k v', t'.get? k = some v' → ∃ v, t.get? k = some v ∧ weight v' = weight v

variable {weight} {t t' t'' : Table κ ρ}

theorem Within.of_eq (h : t' = t) : Within weight t' t :=
  fun _ v' hv' => ⟨v', h ▸ hv', rfl⟩

theorem Within.trans (h' : Within weight t'' t') (h : Within weight t' t) :
    Within weight t'' t := by
  intro k v'' hv''
  obtain ⟨v', hv', hweight'⟩ := h' k v'' hv''
  obtain ⟨v, hv, hweight⟩ := h k v' hv'
  exact ⟨v, hv, hweight'.trans hweight⟩

theorem Within.modifyWhere {p : κ → ρ → Bool} {f : ρ → ρ} (hf : ∀ v, weight (f v) = weight v) :
    Within weight (t.modifyWhere p f) t := by
  intro k v' hv'
  rw [get?_modifyWhere, Option.map_eq_some_iff] at hv'
  obtain ⟨v, hv, rfl⟩ := hv'
  refine ⟨v, hv, ?_⟩
  split_ifs
  · exact hf v
  · rfl

theorem Within.deleteWhere {p : κ → ρ → Bool} : Within weight (t.deleteWhere p) t := by
  intro k v' hv'
  rw [get?_deleteWhere, Option.filter_eq_some_iff] at hv'
  exact ⟨v', hv'.1, rfl⟩

theorem Within.subperm (h : Within weight t' t) :
    (t'.rows.map fun r => (r.1, weight r.2)).Subperm (t.rows.map fun r => (r.1, weight r.2)) := by
  have hkeys : ((t'.rows.map fun r => (r.1, weight r.2)).map Prod.fst).Nodup := by
    rw [List.map_map]
    exact t'.unique
  refine hkeys.of_map.subperm fun x hx => ?_
  obtain ⟨⟨k, v'⟩, hv', rfl⟩ := List.mem_map.mp hx
  obtain ⟨v, hv, hweight⟩ := h k v' ((get?_eq_some_iff t' k v').mpr hv')
  exact List.mem_map.mpr ⟨(k, v), (get?_eq_some_iff t k v).mp hv, by rw [hweight]⟩

theorem Within.count_le (h : Within weight t' t) : t'.rows.length ≤ t.rows.length := by
  have hlength := h.subperm.length_le
  simpa using hlength

theorem Within.total_le (h : Within weight t' t) : t'.total weight ≤ t.total weight := by
  obtain ⟨rows, hperm, hsublist⟩ := h.subperm
  have hsum : (rows.map Prod.snd).sum = t'.total weight := by
    rw [(hperm.map Prod.snd).sum_eq, List.map_map]
    rfl
  have hle : (rows.map Prod.snd).sum ≤
      ((t.rows.map fun r => (r.1, weight r.2)).map Prod.snd).sum :=
    (hsublist.map Prod.snd).sum_le_sum fun _ _ => Nat.zero_le _
  rw [hsum, List.map_map] at hle
  exact hle

theorem count_insert {k : κ} {v : ρ} (h : t.insert k v = some t') :
    t'.rows.length = t.rows.length + 1 := by
  rw [rows_insert h, List.length_append, List.length_singleton]

variable (weight) in
theorem total_insert {k : κ} {v : ρ} (h : t.insert k v = some t') :
    t'.total weight = t.total weight + weight v := by
  rw [total, rows_insert h, List.map_append, List.sum_append]
  simp [total]

/-- The rows of these keys weigh what the keys weigh, an absent one nothing. -/
theorem sum_select {p : κ → ρ → Bool} {keys : List κ} (hkeys : keys.Nodup)
    (h : ∀ k v, t.get? k = some v → (p k v = true ↔ k ∈ keys)) :
    ((t.select p).map fun r => weight r.2).sum =
      (keys.map fun k => ((t.get? k).map weight).getD 0).sum := by
  let weigh := fun k => ((t.get? k).map weight).getD 0
  have hrows : (t.select p).map (fun r => weight r.2) = ((t.select p).map Prod.fst).map weigh := by
    rw [List.map_map]
    refine List.map_congr_left fun r hr => ?_
    simp only [weigh, Function.comp_apply, (get?_select.mp hr).1, Option.map_some, Option.getD_some]
  have hperm : ((t.select p).map Prod.fst).Perm (keys.filter fun k => (t.get? k).isSome) := by
    rw [List.perm_ext_iff_of_nodup (t.select_keys_nodup p) (hkeys.filter _)]
    intro k
    rw [List.mem_filter, Option.isSome_iff_exists]
    constructor
    · intro hk
      obtain ⟨r, hr, rfl⟩ := List.mem_map.mp hk
      obtain ⟨hget, hp⟩ := get?_select.mp hr
      exact ⟨(h _ _ hget).mp hp, r.2, hget⟩
    · rintro ⟨hk, v, hv⟩
      exact List.mem_map.mpr ⟨(k, v), get?_select.mpr ⟨hv, (h k v hv).mpr hk⟩, rfl⟩
  have habsent (l : List κ) :
      ((l.filter fun k => (t.get? k).isSome).map weigh).sum = (l.map weigh).sum := by
    induction l with
    | nil => rfl
    | cons k rest ih =>
      rw [List.filter_cons, List.map_cons, List.sum_cons, ← ih]
      cases hget : t.get? k with
      | none => simp [weigh, hget]
      | some v => simp
  rw [hrows, (hperm.map weigh).sum_eq, habsent]

variable (weight) in
theorem total_delete {k : κ} {v : ρ} (h : t.get? k = some v) :
    (t.deleteWhere fun k' _ => decide (k' = k)).total weight + weight v = t.total weight := by
  obtain ⟨rows, unique⟩ := t
  have hmem : (k, v) ∈ rows := (get?_eq_some_iff ⟨rows, unique⟩ k v).mp h
  unfold total deleteWhere
  dsimp only
  clear h
  induction rows with
  | nil => exact absurd hmem List.not_mem_nil
  | cons r rest ih =>
    obtain ⟨fresh, tail⟩ := List.nodup_cons.mp unique
    by_cases hr : r.1 = k
    · have hrow : r = (k, v) := by
        rcases List.mem_cons.mp hmem with hsame | hlater
        · exact hsame.symm
        · exact absurd (List.mem_map.mpr ⟨_, hlater, hr.symm⟩) fresh
      have hrest : (rest.filter fun r => !decide (r.1 = k)) = rest := by
        refine List.filter_eq_self.mpr fun other hother => ?_
        have hne : other.1 ≠ k := fun heq => fresh (List.mem_map.mpr ⟨other, hother, heq.trans hr.symm⟩)
        simp [hne]
      rw [List.filter_cons_of_neg (by simp [hr]), hrest, hrow, List.map_cons, List.sum_cons]
      exact Nat.add_comm _ _
    · have hlater : (k, v) ∈ rest := by
        rcases List.mem_cons.mp hmem with hsame | hlater
        · exact absurd (congrArg Prod.fst hsame).symm hr
        · exact hlater
      have hsum := ih tail hlater
      rw [List.filter_cons_of_pos (by simp [hr]), List.map_cons, List.sum_cons, List.map_cons,
        List.sum_cons]
      omega

theorem count_delete {k : κ} {v : ρ} (h : t.get? k = some v) :
    (t.deleteWhere fun k' _ => decide (k' = k)).rows.length + 1 = t.rows.length := by
  have htotal := total_delete (fun _ => 1) h
  unfold total at htotal
  simpa using htotal

variable (weight) in
theorem total_modify {k : κ} {v : ρ} {f : ρ → ρ} (h : t.get? k = some v) :
    (t.modify k f).total weight + weight v = t.total weight + weight (f v) := by
  have hget : (t.modify k f).get? k = some (f v) := by rw [get?_modify, if_pos rfl, h, Option.map_some]
  have hrest : ((t.modify k f).deleteWhere fun k' _ => decide (k' = k)) =
      t.deleteWhere fun k' _ => decide (k' = k) := by
    unfold modify modifyWhere deleteWhere
    congr 1
    dsimp only
    rw [List.filter_map]
    refine (List.map_congr_left fun r hr => ?_).trans (List.map_id _)
    have hne : r.1 ≠ k := by simpa using (List.mem_filter.mp hr).2
    simp [hne]
  have hbefore := total_delete weight h
  have hafter := total_delete weight hget
  rw [hrest] at hafter
  omega

omit [DecidableEq κ] in
theorem total_modifyWhere_le {p : κ → ρ → Bool} {f : ρ → ρ} (hf : ∀ v, weight (f v) ≤ weight v) :
    (t.modifyWhere p f).total weight ≤ t.total weight := by
  unfold total modifyWhere
  rw [List.map_map]
  refine List.sum_le_sum fun r _ => ?_
  rw [Function.comp_apply]
  dsimp only
  split_ifs
  · exact hf r.2
  · exact le_refl _

theorem total_modify_le {k : κ} {f : ρ → ρ} {n : Nat} (hf : ∀ v, weight (f v) ≤ n) :
    (t.modify k f).total weight ≤ t.total weight + n := by
  cases hget : t.get? k with
  | none =>
    have hself : t.modify k f = t := modifyWhere_eq_self fun k' v hv => decide_eq_false fun heq => by
      rw [heq, hget] at hv
      cases hv
    rw [hself]
    exact Nat.le_add_right _ _
  | some v =>
    have htotal := total_modify weight (f := f) hget
    have hweight := hf v
    omega

omit [DecidableEq κ] in
@[simp] theorem count_modifyWhere {p : κ → ρ → Bool} {f : ρ → ρ} :
    (t.modifyWhere p f).rows.length = t.rows.length := List.length_map _

@[simp] theorem count_modify {k : κ} {f : ρ → ρ} : (t.modify k f).rows.length = t.rows.length :=
  List.length_map _

theorem weight_le_total {k : κ} {v : ρ} (h : t.get? k = some v) : weight v ≤ t.total weight := by
  have hmem : (k, v) ∈ t.rows := (get?_eq_some_iff t k v).mp h
  exact List.le_sum_of_mem (List.mem_map.mpr ⟨(k, v), hmem, rfl⟩)

end Table
end Library
