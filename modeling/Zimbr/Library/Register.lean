import Mathlib.Data.Prod.Lex

set_option autoImplicit false

/-!
# Registers that keep the greatest record

A register holds at most one record and replaces it only by one of greater
rank. What it ends with depends on the set of records it saw, not on their
order or their number.
-/
namespace Library.Register

variable {α β : Type} [LinearOrder β] (rank : α → β)

/-- Replace the stored record by one of greater rank. -/
def keep (stored : Option α) (a : α) : Option α :=
  if stored.all fun b => rank b < rank a then some a else stored

/-- The register holds a record it saw, and none it saw has a greater rank. -/
structure Greatest (stored : Option α) (seen : List α) : Prop where
  mem : ∀ m, stored = some m → m ∈ seen
  above : ∀ a ∈ seen, ∃ m, stored = some m ∧ rank a ≤ rank m

variable {rank} {stored stored' : Option α} {seen seen' : List α} {a m : α}

@[simp] theorem keep_none : keep rank none a = some a := rfl

theorem keep_some : keep rank (some m) a = if rank m < rank a then some a else some m := by
  simp [keep]

theorem keep_superseded (h : rank a ≤ rank m) : keep rank (some m) a = some m := by
  rw [keep_some, if_neg (not_lt.mpr h)]

theorem keep_mono (h : stored = some m) : ∃ m', keep rank stored a = some m' ∧ rank m ≤ rank m' := by
  rw [h, keep_some]
  split_ifs with hlt
  · exact ⟨a, rfl, hlt.le⟩
  · exact ⟨m, rfl, le_refl _⟩

theorem greatest_none : Greatest rank none [] :=
  ⟨fun _ h => (nomatch h), fun _ h => absurd h List.not_mem_nil⟩

theorem greatest_some : Greatest rank (some m) [m] where
  mem m' h := by
    rw [Option.some.inj h]
    exact List.mem_singleton_self m'
  above a ha := ⟨m, rfl, by rw [List.mem_singleton.mp ha]⟩

theorem Greatest.keep (h : Greatest rank stored seen) (a : α) :
    Greatest rank (keep rank stored a) (seen ++ [a]) := by
  cases hstored : stored with
  | none =>
    refine ⟨fun m hm => ?_, fun b hb => ?_⟩
    · rw [← Option.some.inj hm]
      exact List.mem_append_right _ (List.mem_singleton_self a)
    · rcases List.mem_append.mp hb with hb | hb
      · obtain ⟨m, hm, -⟩ := h.above b hb
        rw [hstored] at hm
        exact nomatch hm
      · exact ⟨a, rfl, by rw [List.mem_singleton.mp hb]⟩
  | some old =>
    rw [keep_some]
    split_ifs with hlt
    · refine ⟨fun m hm => ?_, fun b hb => ⟨a, rfl, ?_⟩⟩
      · rw [← Option.some.inj hm]
        exact List.mem_append_right _ (List.mem_singleton_self a)
      · rcases List.mem_append.mp hb with hb | hb
        · obtain ⟨m, hm, hle⟩ := h.above b hb
          rw [hstored, Option.some.injEq] at hm
          exact hle.trans (hm ▸ hlt.le)
        · rw [List.mem_singleton.mp hb]
    · refine ⟨fun m hm => ?_, fun b hb => ⟨old, rfl, ?_⟩⟩
      · exact List.mem_append_left _ (h.mem m (hstored.trans hm))
      · rcases List.mem_append.mp hb with hb | hb
        · obtain ⟨m, hm, hle⟩ := h.above b hb
          rw [hstored, Option.some.injEq] at hm
          exact hm ▸ hle
        · rw [List.mem_singleton.mp hb]
          exact not_lt.mp hlt

theorem Greatest.foldl (h : Greatest rank stored seen) (records : List α) :
    Greatest rank (records.foldl (Register.keep rank) stored) (seen ++ records) := by
  induction records generalizing stored seen with
  | nil =>
    rw [List.append_nil]
    exact h
  | cons a rest ih =>
    have hrest := ih (h.keep a)
    rwa [List.append_assoc] at hrest

/-- Registers that saw the same records hold the same one, when a rank belongs
to one record. -/
theorem Greatest.unique (h : Greatest rank stored seen) (h' : Greatest rank stored' seen')
    (same : ∀ a, a ∈ seen ↔ a ∈ seen')
    (ranked : ∀ a ∈ seen, ∀ b ∈ seen, rank a = rank b → a = b) : stored = stored' := by
  cases hs : stored with
  | none =>
    cases hs' : stored' with
    | none => rfl
    | some m' =>
      obtain ⟨m, hm, -⟩ := h.above m' ((same m').mpr (h'.mem m' hs'))
      exact nomatch hs.symm.trans hm
  | some m =>
    obtain ⟨m', hm', hle⟩ := h'.above m ((same m).mp (h.mem m hs))
    obtain ⟨m'', hm'', hle'⟩ := h.above m' ((same m').mpr (h'.mem m' hm'))
    have hm : m'' = m := Option.some.inj (hm''.symm.trans hs)
    rw [hm', ranked m (h.mem m hs) m' ((same m').mpr (h'.mem m' hm'))
      (le_antisymm hle (hm ▸ hle'))]

end Library.Register
