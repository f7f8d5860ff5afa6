import Mathlib.Order.Lattice
import Mathlib.Order.Basic
import Mathlib.Data.List.Basic

set_option autoImplicit false

/-!
# Bounded scans over ascending keys

A forward cursor and a backward frontier visit a set of keys page by page. A
page takes the keys next to the position, so the new position leaves none out.
-/
namespace Library.Scan

variable {κ : Type} [LinearOrder κ]

/-- `WHERE key > position ORDER BY key LIMIT n`. -/
def after (keys : List κ) (position : κ) (n : Nat) : List κ :=
  (keys.filter fun k => decide (position < k)).take n

/-- `WHERE key <= position ORDER BY key DESC LIMIT n`. -/
def upTo (keys : List κ) (position : κ) (n : Nat) : List κ :=
  (keys.reverse.filter fun k => decide (k ≤ position)).take n

section Page

variable {keys : List κ} {position k : κ} {n : Nat}

theorem mem_after (h : k ∈ after keys position n) : k ∈ keys ∧ position < k := by
  have hmem := List.mem_filter.mp (List.mem_of_mem_take h)
  exact ⟨hmem.1, of_decide_eq_true hmem.2⟩

theorem mem_upTo (h : k ∈ upTo keys position n) : k ∈ keys ∧ k ≤ position := by
  have hmem := List.mem_filter.mp (List.mem_of_mem_take h)
  exact ⟨List.mem_reverse.mp hmem.1, of_decide_eq_true hmem.2⟩

omit [LinearOrder κ] in
theorem mem_take_or {r : κ → κ → Prop} {l : List κ} (h : l.Pairwise r) (hk : k ∈ l) :
    k ∈ l.take n ∨ ∀ a ∈ l.take n, r a k := by
  rw [← List.take_append_drop n l] at h hk
  rcases List.mem_append.mp hk with hk | hk
  · exact Or.inl hk
  · exact Or.inr fun a ha => (List.pairwise_append.mp h).2.2 a ha k hk

/-- The new position of a forward scan leaves no key out. -/
theorem after_covers (h : keys.Pairwise (· < ·)) (hk : k ∈ keys) :
    k ≤ position ∨ k ∈ after keys position n ∨ (after keys position n).getLastD position < k := by
  by_cases hposition : position < k
  · have hmem : k ∈ keys.filter fun k => decide (position < k) :=
      List.mem_filter.mpr ⟨hk, decide_eq_true hposition⟩
    refine Or.inr ((mem_take_or (n := n) (h.filter _) hmem).imp_right fun hbefore => ?_)
    cases hpage : after keys position n with
    | nil => exact hposition
    | cons a rest =>
      have hlast : (a :: rest).getLastD position ∈ after keys position n := by
        rw [hpage, List.getLastD_cons, List.getLastD_eq_getLast?]
        cases hrest : rest.getLast? with
        | none => exact List.mem_cons_self
        | some b => exact List.mem_cons_of_mem a (List.mem_of_getLast? hrest)
      exact hbefore _ hlast
  · exact Or.inl (not_lt.mp hposition)

/-- A page of a backward scan that leaves a key out ends above it. -/
theorem upTo_covers (h : keys.Pairwise (· < ·)) (hn : 0 < n) (hk : k ∈ keys) (hle : k ≤ position) :
    k ∈ upTo keys position n ∨ ∃ last, (upTo keys position n).getLast? = some last ∧ k < last := by
  have hmem : k ∈ keys.reverse.filter fun k => decide (k ≤ position) :=
    List.mem_filter.mpr ⟨List.mem_reverse.mpr hk, decide_eq_true hle⟩
  have hordered := (List.pairwise_reverse.mpr h).filter fun k => decide (k ≤ position)
  refine (mem_take_or (n := n) hordered hmem).imp_right fun hbefore => ?_
  cases hlast : (upTo keys position n).getLast? with
  | some last => exact ⟨last, rfl, hbefore last (List.mem_of_getLast? hlast)⟩
  | none =>
    have hempty : upTo keys position n = [] := List.getLast?_eq_none_iff.mp hlast
    rw [upTo, List.take_eq_nil_iff] at hempty
    rcases hempty with hzero | hnil
    · exact absurd hzero (Nat.ne_of_gt hn)
    · rw [hnil] at hmem
      exact absurd hmem List.not_mem_nil

end Page

/-- Every key is above the forward position, at or below the backward frontier,
or visited. -/
def Covered (keys : List κ) (position frontier : κ) (visited : List κ) : Prop :=
  ∀ k ∈ keys, position < k ∨ k ≤ frontier ∨ k ∈ visited

section Covered

variable {keys visited page : List κ} {position frontier : κ} {n : Nat}

theorem Covered.forward (h : keys.Pairwise (· < ·)) (hc : Covered keys position frontier visited) :
    Covered keys ((after keys position n).getLastD position) frontier
      (after keys position n ++ visited) := by
  intro k hk
  rcases after_covers (n := n) h hk with hle | hmem | hlt
  · rcases hc k hk with hlt | hfrontier | hvisited
    · exact absurd hle (not_le.mpr hlt)
    · exact Or.inr (Or.inl hfrontier)
    · exact Or.inr (Or.inr (List.mem_append_right _ hvisited))
  · exact Or.inr (Or.inr (List.mem_append_left _ hmem))
  · exact Or.inl hlt

/-- The frontier moves below the page, and nowhere else when the page is empty. -/
theorem Covered.backward (h : keys.Pairwise (· < ·)) (hn : 0 < n)
    (hc : Covered keys position frontier visited) {frontier' : κ}
    (hfrontier : ∀ last, (upTo keys frontier n).getLast? = some last →
      ∀ k ∈ keys, k < last → k ≤ frontier') :
    Covered keys position frontier' (upTo keys frontier n ++ visited) := by
  intro k hk
  rcases hc k hk with hlt | hle | hvisited
  · exact Or.inl hlt
  · rcases upTo_covers h hn hk hle with hmem | ⟨last, hlast, hlt⟩
    · exact Or.inr (Or.inr (List.mem_append_left _ hmem))
    · exact Or.inr (Or.inl (hfrontier last hlast k hk hlt))
  · exact Or.inr (Or.inr (List.mem_append_right _ hvisited))

theorem Covered.mono {visited' : List κ} (hc : Covered keys position frontier visited)
    (hsub : ∀ k ∈ visited, k ∈ visited') : Covered keys position frontier visited' :=
  fun k hk => (hc k hk).imp_right (Or.imp_right (hsub k))

theorem Covered.rebase (hc : Covered keys position frontier visited) {position' : κ}
    (hle : position' ≤ position) : Covered keys position' frontier visited :=
  fun k hk => (hc k hk).imp_left (lt_of_le_of_lt hle)

/-- Keys may disappear, and appear above the position. -/
theorem Covered.changes (hc : Covered keys position frontier visited) {keys' : List κ}
    (hnew : ∀ k ∈ keys', k ∈ keys ∨ position < k) : Covered keys' position frontier visited :=
  fun k hk => (hnew k hk).elim (hc k) Or.inl

end Covered

end Library.Scan
