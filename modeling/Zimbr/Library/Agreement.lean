import Mathlib.Data.List.Induction
import Zimbr.Library.Table

set_option autoImplicit false

/-!
# Agreement on a name

Items are filed under keys one after another. A key remembers the first item
filed under it, and whether an item of another name came later: what it then
says of a key depends on the names filed under it, and not on their order.
-/
namespace Library

structure Candidate (ι : Type) where
  item : ι
  ambiguous : Bool := false
  deriving DecidableEq, Repr

/-- What a key says of the items filed under it. -/
inductive Verdict (ν : Type) where
  | unmatched
  | ambiguous
  | named (n : ν)
  deriving DecidableEq, Repr

namespace Agreement

variable {κ ι ν : Type} [DecidableEq κ] [DecidableEq ν] (name : ι → ν)

def meet (c : Candidate ι) (i : ι) : Candidate ι :=
  if name c.item = name i then c else { c with ambiguous := true }

def note (t : Table κ (Candidate ι)) (k : κ) (i : ι) : Table κ (Candidate ι) :=
  t.upsert k { item := i } fun c => meet name c i

def file (t : Table κ (Candidate ι)) (i : ι) (keys : List κ) : Table κ (Candidate ι) :=
  keys.foldl (fun t k => note name t k i) t

def candidate : List ι → Option (Candidate ι)
  | [] => none
  | first :: rest => some { item := first, ambiguous := rest.any fun i => name first ≠ name i }

def verdict : Option (Candidate ι) → Verdict ν
  | none => .unmatched
  | some c => if c.ambiguous then .ambiguous else .named (name c.item)

section Filing

variable {name}

@[simp] theorem meet_self (i : ι) (b : Bool) :
    meet name { item := i, ambiguous := b } i = { item := i, ambiguous := b } :=
  if_pos rfl

@[simp] theorem meet_meet (c : Candidate ι) (i : ι) :
    meet name (meet name c i) i = meet name c i := by
  unfold meet
  by_cases h : name c.item = name i
  · simp [h]
  · simp [h]

theorem get?_note (t : Table κ (Candidate ι)) (k : κ) (i : ι) (k' : κ) :
    (note name t k i).get? k' =
      if k' = k then some ((t.get? k).elim { item := i } fun c => meet name c i)
      else t.get? k' :=
  t.get?_upsert k _ _ k'

/-- Filing an item twice under a key is filing it once. -/
theorem get?_file (i : ι) (keys : List κ) (t : Table κ (Candidate ι)) (k : κ) :
    (file name t i keys).get? k =
      if k ∈ keys then some ((t.get? k).elim { item := i } fun c => meet name c i)
      else t.get? k := by
  induction keys generalizing t with
  | nil => rfl
  | cons first rest ih =>
    have hstep : file name t i (first :: rest) = file name (note name t first i) i rest := rfl
    rw [hstep, ih, get?_note]
    by_cases hfirst : k = first
    · subst hfirst
      cases t.get? k <;> simp
    · simp [hfirst]

theorem candidate_concat (items : List ι) (i : ι) :
    candidate name (items ++ [i]) =
      some ((candidate name items).elim { item := i } fun c => meet name c i) := by
  cases items with
  | nil => rfl
  | cons first rest =>
    by_cases h : name first = name i
    · simp [candidate, meet, h]
    · simp [candidate, meet, h]

theorem get?_filed (keys : ι → List κ) (items : List ι) (k : κ)
    [DecidablePred fun i => k ∈ keys i] :
    (items.foldl (fun t i => file name t i (keys i)) Table.empty).get? k =
      candidate name (items.filter fun i => decide (k ∈ keys i)) := by
  induction items using List.reverseRecOn with
  | nil => rfl
  | append_singleton items i ih =>
    rw [List.foldl_append, List.foldl_cons, List.foldl_nil, get?_file, ih, List.filter_append,
      List.filter_singleton]
    by_cases h : k ∈ keys i
    · rw [if_pos h, decide_eq_true h, cond_true, candidate_concat]
    · rw [if_neg h, decide_eq_false h, cond_false, List.append_nil]

end Filing

section Verdicts

variable {name} {items : List ι}

omit [DecidableEq ν] in
theorem unmatched_iff {c : Option (Candidate ι)} : verdict name c = .unmatched ↔ c = none := by
  cases c with
  | none => exact iff_of_true rfl rfl
  | some c =>
    simp only [verdict]
    split_ifs <;> simp

theorem verdict_unmatched : verdict name (candidate name items) = .unmatched ↔ items = [] := by
  rw [unmatched_iff]
  cases items <;> simp [candidate]

/-- Items that do not all have the first one's name do not all have one. -/
theorem any_other (name : ι → ν) (first : ι) (rest : List ι) :
    (rest.any fun i => decide (name first ≠ name i)) = true ↔
      ∃ i ∈ first :: rest, ∃ j ∈ first :: rest, name i ≠ name j := by
  simp only [List.any_eq_true, decide_eq_true_eq]
  constructor
  · rintro ⟨j, hj, hne⟩
    exact ⟨first, List.mem_cons_self, j, List.mem_cons_of_mem first hj, hne⟩
  · rintro ⟨i, hi, j, hj, hne⟩
    by_contra hall
    have hsame : ∀ k ∈ first :: rest, name first = name k := by
      intro k hk
      rcases List.mem_cons.mp hk with rfl | hmem
      · rfl
      · by_contra hother
        exact hall ⟨k, hmem, hother⟩
    exact hne ((hsame i hi).symm.trans (hsame j hj))

theorem verdict_ambiguous : verdict name (candidate name items) = .ambiguous ↔
    ∃ i ∈ items, ∃ j ∈ items, name i ≠ name j := by
  cases items with
  | nil => simp [candidate, verdict]
  | cons first rest =>
    rw [← any_other]
    simp only [candidate, verdict]
    split_ifs with h
    · exact iff_of_true rfl h
    · exact iff_of_false nofun h

theorem verdict_named {n : ν} : verdict name (candidate name items) = .named n ↔
    items ≠ [] ∧ ∀ i ∈ items, name i = n := by
  cases items with
  | nil => simp [candidate, verdict]
  | cons first rest =>
    have hother := any_other name first rest
    simp only [candidate, verdict]
    split_ifs with h
    · obtain ⟨i, hi, j, hj, hne⟩ := hother.mp h
      exact iff_of_false nofun fun hall => hne ((hall.2 i hi).trans (hall.2 j hj).symm)
    · rw [Verdict.named.injEq]
      constructor
      · rintro rfl
        refine ⟨List.cons_ne_nil first rest, fun i hi => ?_⟩
        by_contra hne
        exact h (hother.mpr ⟨i, hi, first, List.mem_cons_self, hne⟩)
      · exact fun hall => hall.2 first List.mem_cons_self

theorem verdict_congr {ι' : Type} {name' : ι' → ν} {items' : List ι'}
    (h : ∀ n, n ∈ items.map name ↔ n ∈ items'.map name') :
    verdict name (candidate name items) = verdict name' (candidate name' items') := by
  have hnames : ∀ v, verdict name' (candidate name' items') = v →
      verdict name (candidate name items) = v := by
    intro v hv
    cases v with
    | unmatched =>
      rw [verdict_unmatched] at hv ⊢
      subst hv
      rw [← List.map_eq_nil_iff (f := name), List.eq_nil_iff_forall_not_mem]
      exact fun n hn => List.not_mem_nil ((h n).mp hn)
    | ambiguous =>
      obtain ⟨i, hi, j, hj, hne⟩ := verdict_ambiguous.mp hv
      obtain ⟨k, hk, hsame⟩ := List.mem_map.mp ((h _).mpr (List.mem_map_of_mem hi))
      obtain ⟨l, hl, hother⟩ := List.mem_map.mp ((h _).mpr (List.mem_map_of_mem hj))
      exact verdict_ambiguous.mpr ⟨k, hk, l, hl, by rwa [hsame, hother]⟩
    | named n =>
      obtain ⟨hsome, hall⟩ := verdict_named.mp hv
      obtain ⟨first, hfirst⟩ := List.exists_mem_of_ne_nil items' hsome
      obtain ⟨i, hi, -⟩ := List.mem_map.mp ((h _).mpr (List.mem_map_of_mem hfirst))
      refine verdict_named.mpr ⟨List.ne_nil_of_mem hi, fun j hj => ?_⟩
      obtain ⟨k, hk, hsame⟩ := List.mem_map.mp ((h _).mp (List.mem_map_of_mem hj))
      exact hsame.symm.trans (hall k hk)
  exact hnames _ rfl

end Verdicts

end Agreement

end Library
