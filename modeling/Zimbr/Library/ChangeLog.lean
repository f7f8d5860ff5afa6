import Mathlib.Data.List.Basic
import Mathlib.Data.List.Induction
import Mathlib.Data.List.Nodup
import Mathlib.Tactic.SplitIfs

set_option autoImplicit false

/-!
# Numbered change logs

A log of versioned entries, numbered from one. The latest entry of a key
decides the key's record; a prefix decides what a reader of that prefix saw.
-/
namespace Library.ChangeLog

variable {ε κ : Type} (seq : ε → Nat) (key : ε → κ)

/-- The entries are numbered 1, 2, …, `n`. -/
def Numbered (log : List ε) (n : Nat) : Prop := log.map seq = List.range' 1 n

/-- The entries a reader at position `n` has seen. -/
def upto (log : List ε) (n : Nat) : List ε := log.filter fun e => seq e ≤ n

/-- The entries a reader at position `n` has yet to see. -/
def after (log : List ε) (n : Nat) : List ε := log.filter fun e => n < seq e

variable [DecidableEq κ]

def latest (log : List ε) (k : κ) : Option ε := log.reverse.find? fun e => decide (key e = k)

section Latest

variable {key}

@[simp] theorem latest_nil (k : κ) : latest key ([] : List ε) k = none := rfl

theorem latest_snoc (log : List ε) (e : ε) (k : κ) :
    latest key (log ++ [e]) k = if key e = k then some e else latest key log k := by
  by_cases h : key e = k <;> simp [latest, h]

theorem latest_mem {log : List ε} {k : κ} {e : ε} (h : latest key log k = some e) : e ∈ log :=
  List.mem_reverse.mp (List.mem_of_find?_eq_some h)

theorem latest_eq_none {log : List ε} {k : κ} :
    latest key log k = none ↔ ∀ e ∈ log, key e ≠ k := by
  simp [latest]

end Latest

section Numbered

variable {seq} {log : List ε} {n : Nat}

theorem Numbered.length (h : Numbered seq log n) : log.length = n := by
  simpa [Numbered] using congrArg List.length h

theorem Numbered.snoc (h : Numbered seq log n) {e : ε} (he : seq e = n + 1) :
    Numbered seq (log ++ [e]) (n + 1) := by
  unfold Numbered at *
  rw [List.map_append, h, List.map_singleton, he, List.range'_concat]
  simp [Nat.add_comm]

theorem Numbered.mem (h : Numbered seq log n) {e : ε} (he : e ∈ log) : 1 ≤ seq e ∧ seq e ≤ n := by
  have hmem : seq e ∈ List.range' 1 n := h ▸ List.mem_map_of_mem he
  have := List.mem_range'_1.mp hmem
  omega

theorem Numbered.increasing (h : Numbered seq log n) : (log.map seq).Pairwise (· < ·) :=
  h ▸ List.pairwise_lt_range'

theorem Numbered.injective (h : Numbered seq log n) {e e' : ε} (he : e ∈ log) (he' : e' ∈ log)
    (hs : seq e = seq e') : e = e' :=
  List.inj_on_of_nodup_map (h ▸ List.nodup_range') he he' hs

theorem Numbered.get (h : Numbered seq log n) {i : Nat} (hi : 1 ≤ i ∧ i ≤ n) :
    ∃ e ∈ log, seq e = i := by
  have hmem : i ∈ log.map seq := by
    rw [h, List.mem_range'_1]
    omega
  exact List.mem_map.mp hmem

theorem Numbered.latest_max (h : Numbered seq log n) {key : ε → κ} {k : κ} {e e' : ε}
    (hlatest : latest key log k = some e) (he' : e' ∈ log) (hk : key e' = k) : seq e' ≤ seq e := by
  induction log using List.reverseRecOn generalizing n with
  | nil => simp at he'
  | append_singleton rest last ih =>
    have hlast : ∀ x ∈ rest, seq x < seq last := by
      have hpair := h.increasing
      rw [List.map_append, List.pairwise_append] at hpair
      exact fun x hx => hpair.2.2 _ (List.mem_map_of_mem hx) _ (by simp)
    have hrest : Numbered seq rest (n - 1) := by
      have hn : n ≠ 0 := by
        rintro rfl
        simpa using h.length
      obtain ⟨m, rfl⟩ := Nat.exists_eq_succ_of_ne_zero hn
      have hs : seq last = m + 1 ∧ rest.map seq = List.range' 1 m := by
        unfold Numbered at h
        rw [List.map_append, List.range'_concat, List.map_singleton] at h
        obtain ⟨h1, h2⟩ := List.append_inj' h rfl
        exact ⟨by simpa [Nat.add_comm] using h2, h1⟩
      exact hs.2
    rw [latest_snoc] at hlatest
    rcases List.mem_append.mp he' with hmem | hmem
    · split_ifs at hlatest with hkey
      · simp only [Option.some.injEq] at hlatest
        rw [← hlatest]
        exact Nat.le_of_lt (hlast e' hmem)
      · exact ih hrest hlatest hmem
    · rw [List.mem_singleton.mp hmem] at hk ⊢
      rw [if_pos hk, Option.some.injEq] at hlatest
      exact Nat.le_of_eq (congrArg seq hlatest)

theorem Numbered.seq_get (h : Numbered seq log n) {i : Nat} {e : ε} (hi : log[i]? = some e) :
    seq e = i + 1 := by
  have hmap : (log.map seq)[i]? = some (seq e) := by
    rw [List.getElem?_map, hi, Option.map_some]
  have hlt : i < n := by
    rw [← h.length]
    exact (List.getElem?_eq_some_iff.mp hi).1
  rw [h, List.getElem?_range' hlt, Option.some.injEq] at hmap
  omega

theorem Numbered.after_eq_drop (h : Numbered seq log n) (m : Nat) : after seq log m = log.drop m := by
  have hearlier : (log.take m).filter (fun e => decide (m < seq e)) = [] := by
    rw [List.filter_eq_nil_iff]
    intro e he
    obtain ⟨i, hi⟩ := List.getElem?_of_mem he
    rw [List.getElem?_take] at hi
    split_ifs at hi with hlt
    have := h.seq_get hi
    rw [decide_eq_true_eq]
    omega
  have hlater : (log.drop m).filter (fun e => decide (m < seq e)) = log.drop m := by
    rw [List.filter_eq_self]
    intro e he
    obtain ⟨i, hi⟩ := List.getElem?_of_mem he
    rw [List.getElem?_drop] at hi
    have := h.seq_get hi
    rw [decide_eq_true_eq]
    omega
  calc after seq log m
      = (log.take m ++ log.drop m).filter fun e => decide (m < seq e) := by
        rw [List.take_append_drop]
        rfl
    _ = log.drop m := by rw [List.filter_append, hearlier, hlater, List.nil_append]

theorem Numbered.upto_eq_take (h : Numbered seq log n) (m : Nat) : upto seq log m = log.take m := by
  have hearlier : (log.take m).filter (fun e => decide (seq e ≤ m)) = log.take m := by
    rw [List.filter_eq_self]
    intro e he
    obtain ⟨i, hi⟩ := List.getElem?_of_mem he
    rw [List.getElem?_take] at hi
    split_ifs at hi with hlt
    have := h.seq_get hi
    rw [decide_eq_true_eq]
    omega
  have hlater : (log.drop m).filter (fun e => decide (seq e ≤ m)) = [] := by
    rw [List.filter_eq_nil_iff]
    intro e he
    obtain ⟨i, hi⟩ := List.getElem?_of_mem he
    rw [List.getElem?_drop] at hi
    have := h.seq_get hi
    rw [decide_eq_true_eq]
    omega
  calc upto seq log m
      = (log.take m ++ log.drop m).filter fun e => decide (seq e ≤ m) := by
        rw [List.take_append_drop]
        rfl
    _ = log.take m := by rw [List.filter_append, hearlier, hlater, List.append_nil]

theorem Numbered.take (h : Numbered seq log n) (m : Nat) :
    Numbered seq (log.take m) (min m n) := by
  unfold Numbered at *
  rw [List.map_take, h]
  rcases Nat.le_total m n with hle | hle
  · rw [List.take_range'_of_length_ge hle, Nat.min_eq_left hle]
  · rw [List.take_range'_of_length_le hle, Nat.min_eq_right hle]

theorem Numbered.between_eq (h : Numbered seq log n) (first last : Nat) :
    (log.filter fun e => first < seq e && seq e ≤ last) = (log.take last).drop first := by
  rw [← (h.take last).after_eq_drop, ← h.upto_eq_take, after, upto, List.filter_filter]

theorem mem_after {e : ε} {m : Nat} : e ∈ after seq log m ↔ e ∈ log ∧ m < seq e := by
  simp [after]

end Numbered

end Library.ChangeLog
