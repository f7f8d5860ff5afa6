import Mathlib.Data.List.Perm.Basic

set_option autoImplicit false

/-!
# Items claimed in turn

Several claimants pass over one list of items, and each takes those it wants that
no earlier one took. What none takes is left. Nothing is lost or taken twice.
-/
namespace Library

section Claims

variable {π α : Type} (wants : π → α → Bool) (items : List α)

def claim (p : π) (seen : List Bool) : List α :=
  ((items.zip seen).filter fun row => !row.2 && wants p row.1).map fun row => row.1

def mark (p : π) (seen : List Bool) : List Bool :=
  (items.zip seen).map fun row => row.2 || wants p row.1

def unclaimed (seen : List Bool) : List α :=
  ((items.zip seen).filter fun row => !row.2).map fun row => row.1

def unseen : List Bool := items.map fun _ => false

def wanted (claimants : List π) (a : α) : Bool := claimants.any fun p => wants p a

def marks (claimants : List π) : List Bool := items.map (wanted wants claimants)

variable {wants items} {before claimants : List π} {p : π}

theorem wanted_snoc (a : α) : wanted wants (before ++ [p]) a = (wanted wants before a || wants p a) := by
  simp [wanted]

theorem mark_marks : mark wants items p (marks wants items before) = marks wants items (before ++ [p]) := by
  unfold mark marks
  induction items with
  | nil => rfl
  | cons a rest ih =>
    rw [List.map_cons, List.map_cons, List.zip_cons_cons, List.map_cons, ih, wanted_snoc]

theorem claim_marks : claim wants items p (marks wants items before) =
    items.filter fun a => !wanted wants before a && wants p a := by
  unfold claim marks
  induction items with
  | nil => rfl
  | cons a rest ih =>
    rw [List.map_cons, List.zip_cons_cons, List.filter_cons, List.filter_cons]
    split_ifs
    · rw [List.map_cons, ih]
    · exact ih

theorem marks_idle (h : ∀ a, wants p a = false) :
    marks wants items (before ++ [p]) = marks wants items before := by
  unfold marks
  refine List.map_congr_left fun a _ => ?_
  rw [wanted_snoc, h, Bool.or_false]

theorem filter_idle (h : ∀ a, wants p a = false) :
    (items.filter fun a => !wanted wants before a && wants p a) = [] := by
  refine List.filter_eq_nil_iff.mpr fun a _ => ?_
  simp [h]

theorem unclaimed_marks : unclaimed items (marks wants items before) =
    items.filter fun a => !wanted wants before a := by
  unfold unclaimed marks
  induction items with
  | nil => rfl
  | cons a rest ih =>
    rw [List.map_cons, List.zip_cons_cons, List.filter_cons, List.filter_cons]
    split_ifs
    · rw [List.map_cons, ih]
    · exact ih

variable (wants items)

/-- What the claimants after some others take. -/
def claimed (before : List π) : List π → List α
  | [] => []
  | p :: rest => (items.filter fun a => !wanted wants before a && wants p a) ++ claimed (before ++ [p]) rest

variable {wants items}

/-- Each item is taken once or left. -/
theorem claimed_perm : (claimed wants items before claimants ++
    items.filter fun a => !wanted wants (before ++ claimants) a).Perm
      (items.filter fun a => !wanted wants before a) := by
  induction claimants generalizing before with
  | nil => simp [claimed]
  | cons p rest ih =>
    have hrest := @ih (before ++ [p])
    rw [List.append_assoc, List.singleton_append] at hrest
    have hsplit := List.filter_append_perm (wants p) (items.filter fun a => !wanted wants before a)
    rw [List.filter_filter, List.filter_filter] at hsplit
    rw [claimed, List.append_assoc]
    refine (hrest.append_left _).trans (List.Perm.trans ?_ hsplit)
    refine List.Perm.append (.of_eq (List.filter_congr fun a _ => Bool.and_comm _ _)) (.of_eq ?_)
    refine List.filter_congr fun a _ => ?_
    rw [wanted_snoc, Bool.not_or, Bool.and_comm]

end Claims

end Library
