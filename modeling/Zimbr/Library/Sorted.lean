import Mathlib.Data.List.Sort

set_option autoImplicit false

/-!
# Rows in the order of a key

Rows of distinct keys have one order, however they were listed before.
-/
namespace Library

variable {κ α : Type} [LinearOrder κ] {key : α → κ} {rows rows' : List α}

/-- `ORDER BY key`; rows of equal keys stay in their order. -/
def sortBy (key : α → κ) (rows : List α) : List α := rows.insertionSort fun a b => key a ≤ key b

theorem sortBy_perm : (sortBy key rows).Perm rows := List.perm_insertionSort _ _

theorem mem_sortBy {a : α} : a ∈ sortBy key rows ↔ a ∈ rows := sortBy_perm.mem_iff

theorem sortBy_pairwise : (sortBy key rows).Pairwise fun a b => key a ≤ key b := by
  have htotal : Std.Total fun a b : α => key a ≤ key b := ⟨fun a b => le_total (key a) (key b)⟩
  have htrans : IsTrans α fun a b => key a ≤ key b := ⟨fun _ _ _ hab hbc => hab.trans hbc⟩
  exact List.pairwise_insertionSort _ rows

theorem sortBy_strict (h : rows.Pairwise fun a b => key a ≠ key b) :
    (sortBy key rows).Pairwise fun a b => key a < key b := by
  have hdistinct : (sortBy key rows).Pairwise fun a b => key a ≠ key b :=
    (sortBy_perm.pairwise_iff fun h => Ne.symm h).mpr h
  exact (sortBy_pairwise.and hdistinct).imp fun h => lt_of_le_of_ne h.1 h.2

theorem sortBy_eq (h : rows.Pairwise fun a b => key a ≠ key b)
    (h' : rows'.Pairwise fun a b => key a ≠ key b) (hmem : ∀ a, a ∈ rows ↔ a ∈ rows') :
    sortBy key rows = sortBy key rows' := by
  have hnodup : rows.Nodup := h.imp fun hne heq => hne (congrArg key heq)
  have hnodup' : rows'.Nodup := h'.imp fun hne heq => hne (congrArg key heq)
  have hperm : (sortBy key rows).Perm (sortBy key rows') :=
    (sortBy_perm.trans ((List.perm_ext_iff_of_nodup hnodup hnodup').mpr hmem)).trans sortBy_perm.symm
  exact List.Perm.eq_of_pairwise (fun a b _ _ hab hba => absurd hba (lt_asymm hab))
    (sortBy_strict h) (sortBy_strict h') hperm

end Library
