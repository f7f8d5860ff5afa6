import Mathlib.Data.List.Sort
import Mathlib.Order.Basic

set_option autoImplicit false

/-!
# Keyset pagination

Rows are in descending order of a key. A page takes the rows below a key until a
limit or a budget ends it, and continues below its last row.
-/
namespace Library.Paging

variable {κ α τ ε : Type}

/-- The rows a page takes, and whether one was left out. Only the first row may
exceed the budget. -/
def fill (limit budget : Nat) (size : α → Nat) : List α → Nat → Nat → List α × Bool
  | [], _, _ => ([], false)
  | r :: rest, count, bytes =>
    if count = limit || (decide (0 < count) && decide (budget < bytes + size r)) then ([], true)
    else
      let filled := fill limit budget size rest (count + 1) (bytes + size r + 1)
      (r :: filled.1, filled.2)

section Fill

variable {limit budget : Nat} {size : α → Nat} {rows : List α} {count bytes : Nat}

theorem fill_prefix : (fill limit budget size rows count bytes).1 <+: rows := by
  induction rows generalizing count bytes with
  | nil => exact List.prefix_rfl
  | cons r rest ih =>
    unfold fill
    split_ifs
    · exact List.nil_prefix
    · exact List.cons_prefix_cons.mpr ⟨rfl, ih⟩

theorem fill_all (h : (fill limit budget size rows count bytes).2 = false) :
    (fill limit budget size rows count bytes).1 = rows := by
  induction rows generalizing count bytes with
  | nil => rfl
  | cons r rest ih =>
    unfold fill at h ⊢
    split_ifs at h ⊢
    exact congrArg (r :: ·) (ih h)

theorem fill_length (h : count ≤ limit) :
    (fill limit budget size rows count bytes).1.length + count ≤ limit := by
  induction rows generalizing count bytes with
  | nil => simpa [fill] using h
  | cons r rest ih =>
    unfold fill
    split_ifs with hfull
    · simpa using h
    · have hlt : count ≠ limit := fun heq => hfull (by simp [heq])
      have hrest : (fill limit budget size rest (count + 1) (bytes + size r + 1)).1.length +
          (count + 1) ≤ limit := ih (by omega)
      simp only [List.length_cons]
      omega

theorem fill_ne_nil (hlimit : 0 < limit) (h : rows ≠ []) :
    (fill limit budget size rows 0 0).1 ≠ [] := by
  cases rows with
  | nil => exact absurd rfl h
  | cons r rest =>
    unfold fill
    have hfree : ¬ (0 = limit) := by omega
    simp [hfree]

end Fill

section Page

variable [LinearOrder κ] (key : α → κ) (limit budget : Nat) (size : α → Nat) (rows : List α)

def below (start : κ) : List α := rows.filter fun r => decide (key r < start)

def page (start : κ) : List α × Option κ :=
  let filled := fill limit budget size ((below key rows start).take (limit + 1)) 0 0
  (filled.1, if filled.2 then filled.1.getLast?.map key else none)

variable {key limit budget size rows} {start k : κ}

/-- A page without a continuation holds everything that remains. -/
theorem page_last (hlimit : 0 < limit) (h : (page key limit budget size rows start).2 = none) :
    (page key limit budget size rows start).1 = below key rows start := by
  unfold page at h ⊢
  dsimp only at h ⊢
  split_ifs at h with hmore
  · rw [Option.map_eq_none_iff, List.getLast?_eq_none_iff] at h
    have hempty : (below key rows start).take (limit + 1) = [] := by
      by_contra hne
      exact fill_ne_nil hlimit hne h
    rw [hempty] at hmore
    exact nomatch hmore
  · have hall := fill_all (Bool.not_eq_true _ ▸ hmore)
    have hlength : (fill limit budget size ((below key rows start).take (limit + 1)) 0 0).1.length +
        0 ≤ limit := fill_length (Nat.zero_le limit)
    rw [hall] at hlength ⊢
    refine List.take_of_length_le ?_
    rw [List.length_take] at hlength
    omega

/-- What remains after a page is below its continuation. -/
theorem page_next (hrows : rows.Pairwise fun a b => key b < key a)
    (h : (page key limit budget size rows start).2 = some k) :
    (page key limit budget size rows start).1 ≠ [] ∧
      below key rows start = (page key limit budget size rows start).1 ++ below key rows k ∧
      ∃ r ∈ rows, key r = k := by
  unfold page at h ⊢
  dsimp only at h ⊢
  split_ifs at h
  obtain ⟨r, hlast, rfl⟩ := Option.map_eq_some_iff.mp h
  obtain ⟨front, hfront⟩ := List.getLast?_eq_some_iff.mp hlast
  obtain ⟨left, hleft⟩ := fill_prefix.trans (List.take_prefix (limit + 1) (below key rows start))
  rw [hfront] at hleft ⊢
  have hordered : (below key rows start).Pairwise fun a b => key b < key a := hrows.filter _
  rw [← hleft] at hordered
  have hmem : r ∈ below key rows start := by
    rw [← hleft]
    simp
  have hstart : key r < start := of_decide_eq_true (List.mem_filter.mp hmem).2
  have hnarrow : below key rows (key r) = (below key rows start).filter
      fun a => decide (key a < key r) := by
    rw [below, below, List.filter_filter]
    refine List.filter_congr fun a _ => ?_
    by_cases ha : key a < key r
    · simp [ha, ha.trans hstart]
    · simp [ha]
  have hrest : (below key rows start).filter (fun a => decide (key a < key r)) = left := by
    rw [← hleft, List.filter_append, List.filter_eq_nil_iff.mpr, List.nil_append,
      List.filter_eq_self.mpr]
    · intro a ha
      have hbelow := (List.pairwise_append.mp hordered).2.2 r (by simp) a ha
      exact decide_eq_true hbelow
    · intro a ha
      rcases List.mem_append.mp ha with ha | ha
      · have habove := (List.pairwise_append.mp (List.pairwise_append.mp hordered).1).2.2 a ha r
          List.mem_cons_self
        simpa using le_of_lt habove
      · rw [List.mem_singleton.mp ha]
        simp
  refine ⟨by simp, ?_, r, (List.mem_filter.mp hmem).1, rfl⟩
  rw [hnarrow, hrest, hleft]

end Page

/-- Following the continuations from a position ends, with these rows in this
order. -/
inductive Traversal (f : τ → Except ε (List α × Option τ)) : τ → List α → Prop
  | last {start : τ} {rows : List α} (h : f start = .ok (rows, none)) : Traversal f start rows
  | more {start next : τ} {rows rest : List α} (h : f start = .ok (rows, some next))
    (continued : Traversal f next rest) : Traversal f start (rows ++ rest)

namespace Traversal

variable {f : τ → Except ε (List α × Option τ)}

theorem unique {start : τ} {rows rows' : List α} (h : Traversal f start rows)
    (h' : Traversal f start rows') : rows' = rows := by
  induction h generalizing rows' with
  | last hpage =>
    cases h' with
    | last hpage' =>
      rw [hpage'] at hpage
      exact (Prod.mk.inj (Except.ok.inj hpage)).1
    | more hpage' _ =>
      rw [hpage'] at hpage
      exact nomatch (Prod.mk.inj (Except.ok.inj hpage)).2
  | more hpage _ ih =>
    cases h' with
    | last hpage' =>
      rw [hpage'] at hpage
      exact nomatch (Prod.mk.inj (Except.ok.inj hpage)).2
    | more hpage' hrest =>
      rw [hpage'] at hpage
      obtain ⟨rfl, hnext⟩ := Prod.mk.inj (Except.ok.inj hpage)
      obtain rfl := Option.some.inj hnext
      rw [ih hrest]

/-- What remains at a position is traversed when each page takes its first rows,
some of them when it continues. -/
theorem of_pages {remaining : τ → List α} {accepted : τ → Prop}
    (step : ∀ start, accepted start → ∃ rows next, f start = .ok (rows, next) ∧
      (next = none → rows = remaining start) ∧
      ∀ start', next = some start' → accepted start' ∧ rows ≠ [] ∧
        remaining start = rows ++ remaining start')
    (start : τ) (h : accepted start) : Traversal f start (remaining start) := by
  induction hlength : (remaining start).length using Nat.strong_induction_on generalizing start with
  | _ n ih =>
    obtain ⟨rows, next, hpage, hlast, hmore⟩ := step start h
    cases next with
    | none =>
      rw [← hlast rfl]
      exact .last hpage
    | some next =>
      obtain ⟨haccepted, hne, hsplit⟩ := hmore next rfl
      have hpositive := List.length_pos_iff.mpr hne
      have hshorter : (remaining next).length < n := by
        rw [← hlength, hsplit, List.length_append]
        omega
      rw [hsplit]
      exact .more hpage (ih _ hshorter next haccepted rfl)

end Traversal

end Library.Paging
