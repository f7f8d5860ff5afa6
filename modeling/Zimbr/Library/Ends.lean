import Mathlib.Data.List.Sort
import Mathlib.Order.Lattice

set_option autoImplicit false

/-!
# The ends of a table

Of a table the rows with the lowest keys and those with the highest are kept. Keeping
them after every insertion is the same as keeping them once at the end.
-/
namespace Library

/-- Where a predicate holds of the first rows alone, it holds of as many in a cut. -/
theorem countP_take {α : Type} {p : α → Bool} {l : List α}
    (h : l.Pairwise fun a b => p b = true → p a = true) (n : Nat) :
    (l.take n).countP p = min (l.countP p) n := by
  induction l generalizing n with
  | nil => simp
  | cons a rest ih =>
    obtain ⟨hfirst, hrest⟩ := List.pairwise_cons.mp h
    cases n with
    | zero => simp
    | succ n =>
      rw [List.take_succ_cons, List.countP_cons, List.countP_cons, ih hrest]
      split_ifs with ha
      · omega
      · have hnone : rest.countP p = 0 :=
          List.countP_eq_zero.mpr fun b hb hpb => ha (hfirst b hb hpb)
        omega

namespace Ends

variable {α κ : Type} [LinearOrder κ] (key : α → κ)

def below (rows : List α) (k : κ) : Nat := rows.countP fun a => key a < k

def above (rows : List α) (k : κ) : Nat := rows.countP fun a => k < key a

/-- Fewer than `low` rows are below the key, or fewer than `high` above it. -/
def Kept (low high : Nat) (rows : List α) (k : κ) : Prop :=
  below key rows k < low ∨ above key rows k < high

instance (low high : Nat) (rows : List α) (k : κ) : Decidable (Kept key low high rows k) :=
  inferInstanceAs (Decidable (_ ∨ _))

/-- The rows with the `low` lowest keys and with the `high` highest. -/
def ends (low high : Nat) (rows : List α) : List α :=
  rows.filter fun a => Kept key low high rows (key a)

section Sorted

variable {key} {rows : List α} {a : α}

theorem below_perm {rows' : List α} (h : rows.Perm rows') (k : κ) :
    below key rows k = below key rows' k := h.countP_eq _

theorem above_perm {rows' : List α} (h : rows.Perm rows') (k : κ) :
    above key rows k = above key rows' k := h.countP_eq _

theorem below_take (h : rows.Pairwise fun a b => key a < key b) (n : Nat) (k : κ) :
    below key (rows.take n) k = min (below key rows k) n :=
  countP_take (h.imp fun hlt hb => decide_eq_true (hlt.trans (of_decide_eq_true hb))) n

/-- The first rows in the order of their keys are those with few below them. -/
theorem mem_take (h : rows.Pairwise fun a b => key a < key b) (ha : a ∈ rows) (n : Nat) :
    a ∈ rows.take n ↔ below key rows (key a) < n := by
  have hcut := below_take h n (key a)
  constructor
  · intro hmem
    have hself : below key (rows.take n) (key a) ≠ (rows.take n).length := fun hall =>
      lt_irrefl _ (of_decide_eq_true (List.countP_eq_length.mp hall a hmem))
    have hfew : below key (rows.take n) (key a) ≤ (rows.take n).length := List.countP_le_length
    have hlength := List.length_take_le n rows
    omega
  · intro hfew
    by_contra hnot
    have hdrop : a ∈ rows.drop n := by
      rw [← List.take_append_drop n rows] at ha
      exact (List.mem_append.mp ha).resolve_left hnot
    have hall : below key (rows.take n) (key a) = (rows.take n).length := by
      refine List.countP_eq_length.mpr fun b hb => decide_eq_true ?_
      rw [← List.take_append_drop n rows] at h
      exact (List.pairwise_append.mp h).2.2 b hb a hdrop
    have hlong := List.length_pos_of_mem hdrop
    rw [List.length_drop] at hlong
    rw [List.length_take] at hall
    omega

variable (key) in
def sorted (rows : List α) : List α := rows.mergeSort fun a b => key a ≤ key b

variable (key) in
theorem sorted_perm (rows : List α) : (sorted key rows).Perm rows := List.mergeSort_perm _ _

theorem sorted_pairwise (h : (rows.map key).Nodup) :
    (sorted key rows).Pairwise fun a b => key a < key b := by
  have hle : (sorted key rows).Pairwise fun a b => key a ≤ key b := by
    have hsorted := @List.pairwise_mergeSort _ (fun a b => decide (key a ≤ key b))
      (fun a b c hab hbc => decide_eq_true
        ((of_decide_eq_true hab).trans (of_decide_eq_true hbc)))
      (fun a b => by simpa using le_total (key a) (key b)) rows
    exact hsorted.imp fun hab => of_decide_eq_true hab
  have hne : (sorted key rows).Pairwise fun a b => key a ≠ key b :=
    List.pairwise_map.mp (((sorted_perm key rows).map key).nodup_iff.mpr h)
  exact hle.imp₂ (fun a b hab hdiff => lt_of_le_of_ne hab hdiff) hne

end Sorted

section Counts

variable {key} {low high : Nat} {rows : List α} {a b : α}

theorem mem_ends : b ∈ ends key low high rows ↔ b ∈ rows ∧ Kept key low high rows (key b) := by
  simp [ends]

theorem below_cons (k : κ) :
    below key (a :: rows) k = below key rows k + if key a < k then 1 else 0 := by
  unfold below
  rw [List.countP_cons]
  simp

theorem above_cons (k : κ) :
    above key (a :: rows) k = above key rows k + if k < key a then 1 else 0 := by
  unfold above
  rw [List.countP_cons]
  simp

theorem below_mono {k k' : κ} (h : k ≤ k') : below key rows k ≤ below key rows k' :=
  List.countP_mono_left fun _ _ ha => decide_eq_true ((of_decide_eq_true ha).trans_le h)

theorem above_mono {k k' : κ} (h : k ≤ k') : above key rows k' ≤ above key rows k :=
  List.countP_mono_left fun _ _ ha => decide_eq_true (h.trans_lt (of_decide_eq_true ha))

theorem kept_perm {rows' : List α} (h : rows.Perm rows') (k : κ) :
    Kept key low high rows k ↔ Kept key low high rows' k := by
  unfold Kept
  rw [below_perm h, above_perm h]

theorem mem_ends_perm {rows' : List α} (h : rows.Perm rows') :
    b ∈ ends key low high rows ↔ b ∈ ends key low high rows' := by
  rw [mem_ends, mem_ends, h.mem_iff, kept_perm h]

variable (low high) in
/-- Up to what counts, the ends have as many rows below a key as the table. -/
theorem below_ends (h : (rows.map key).Nodup) (k : κ) :
    min (below key (ends key low high rows) k) low = min (below key rows k) low := by
  have hperm := sorted_perm key rows
  have hsorted := sorted_pairwise h
  have hfirst : ((sorted key rows).take low).filter
      (fun a => Kept key low high rows (key a)) = (sorted key rows).take low := by
    refine List.filter_eq_self.mpr fun a ha => decide_eq_true (Or.inl ?_)
    rw [← below_perm hperm]
    exact (mem_take hsorted (List.mem_of_mem_take ha) low).mp ha
  have hless : below key ((sorted key rows).take low) k ≤ below key (ends key low high rows) k := by
    rw [← hfirst, ends, ← below_perm (hperm.filter _)]
    exact ((List.take_sublist low _).filter _).countP_le
  have hmore : below key (ends key low high rows) k ≤ below key rows k :=
    List.filter_sublist.countP_le
  rw [below_take hsorted, below_perm hperm] at hless
  omega

variable (low high) in
theorem above_ends (h : (rows.map key).Nodup) (k : κ) :
    min (above key (ends key low high rows) k) high = min (above key rows k) high := by
  -- above in an order is below in its dual
  have hdual := @below_ends α κᵒᵈ _ (OrderDual.toDual ∘ key) high low rows h (OrderDual.toDual k)
  have hends : ends (OrderDual.toDual ∘ key) high low rows = ends key low high rows :=
    List.filter_congr fun a _ => decide_eq_decide.mpr or_comm
  rw [hends] at hdual
  exact hdual

theorem kept_ends (h : (rows.map key).Nodup) (k : κ) :
    Kept key low high (ends key low high rows) k ↔ Kept key low high rows k := by
  have hbelow := below_ends low high h k
  have habove := above_ends low high h k
  unfold Kept
  omega

theorem mem_ends_ends (h : (rows.map key).Nodup) :
    b ∈ ends key low high (ends key low high rows) ↔ b ∈ ends key low high rows := by
  rw [mem_ends, kept_ends h]
  exact and_iff_left_of_imp fun hb => (mem_ends.mp hb).2

theorem Kept.of_cons {k : κ} (h : Kept key low high (a :: rows) k) : Kept key low high rows k := by
  unfold Kept at h ⊢
  rw [below_cons, above_cons] at h
  omega

theorem mem_ends_cons_ends (h : (rows.map key).Nodup) :
    b ∈ ends key low high (a :: ends key low high rows) ↔ b ∈ ends key low high (a :: rows) := by
  have hkept (k : κ) : Kept key low high (a :: ends key low high rows) k ↔
      Kept key low high (a :: rows) k := by
    have hbelow := below_ends low high h k
    have habove := above_ends low high h k
    unfold Kept
    rw [below_cons, below_cons, above_cons, above_cons]
    omega
  rw [mem_ends, mem_ends, hkept, List.mem_cons, List.mem_cons, mem_ends]
  constructor
  · rintro ⟨rfl | hb, hk⟩
    · exact ⟨Or.inl rfl, hk⟩
    · exact ⟨Or.inr hb.1, hk⟩
  · rintro ⟨rfl | hb, hk⟩
    · exact ⟨Or.inl rfl, hk⟩
    · exact ⟨Or.inr ⟨hb, hk.of_cons⟩, hk⟩

theorem mem_ends_cons_discarded (hdiscarded : ¬Kept key low high rows (key a)) :
    b ∈ ends key low high (a :: rows) ↔ b ∈ ends key low high rows := by
  have hlost : low ≤ below key rows (key a) ∧ high ≤ above key rows (key a) := by
    unfold Kept at hdiscarded
    omega
  have hkept (k : κ) : Kept key low high (a :: rows) k ↔ Kept key low high rows k := by
    refine ⟨Kept.of_cons, fun hk => ?_⟩
    unfold Kept at hk ⊢
    rw [below_cons, above_cons]
    rcases hk with hk | hk
    · have hle : ¬key a < k := fun hlt => by
        have hmono : below key rows (key a) ≤ below key rows k := below_mono hlt.le
        omega
      rw [if_neg hle]
      exact Or.inl hk
    · have hle : ¬k < key a := fun hlt => by
        have hmono : above key rows (key a) ≤ above key rows k := above_mono hlt.le
        omega
      rw [if_neg hle]
      exact Or.inr hk
  rw [mem_ends, mem_ends, hkept, List.mem_cons]
  refine ⟨fun ⟨hb, hk⟩ => ⟨hb.resolve_left fun heq => ?_, hk⟩, fun ⟨hb, hk⟩ => ⟨Or.inr hb, hk⟩⟩
  exact hdiscarded (heq ▸ hk)

end Counts

end Ends

end Library
