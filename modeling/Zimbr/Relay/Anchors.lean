import Zimbr.Library.Ends
import Zimbr.Relay.Intake

set_option autoImplicit false

/-!
# Anchors in batches

A batch of imports trims its anchors once, at its end. The anchors that are left are
those that trimming after every import leaves.
-/
namespace Zimbr.Relay.Anchors
open Library

/-- `INSERT OR IGNORE`: neither column of a row may be taken. -/
def insertOrIgnore (t : Table Int Bytes) (row : Int) (guid : Bytes) : Table Int Bytes :=
  if t.rows.any fun r => r.2 = guid then t else (t.insert row guid).getD t

/-- An insertion after which the table has its four least rows and its twelve greatest. -/
def remember (t : Table Int Bytes) (row : Int) (guid : Bytes) : Table Int Bytes :=
  let t := insertOrIgnore t row guid
  t.deleteWhere fun r _ => !decide (Ends.Kept Prod.fst 4 12 t.rows r)

/-- The table is one of its schema, where a GUID is in one row. -/
def Unique (t : Table Int Bytes) : Prop := (t.rows.map Prod.snd).Nodup

def trimmed (rows : List (Int × Bytes)) : List (Int × Bytes) := Ends.ends Prod.fst 4 12 rows

theorem remember_rows (t : Table Int Bytes) (row : Int) (guid : Bytes) :
    (remember t row guid).rows = trimmed (insertOrIgnore t row guid).rows :=
  List.filter_congr fun _ _ => Bool.not_not _

section Trim

variable {t : Table Int Bytes} {row : Int}

theorem mem_oldest (h : row ∈ t.rows.map Prod.fst) :
    row ∈ oldest t ↔ Ends.below Prod.fst t.rows row < 4 := by
  have hperm := List.perm_insertionSort (· ≤ ·) (t.rows.map Prod.fst)
  have hsorted : ((t.rows.map Prod.fst).insertionSort (· ≤ ·)).Pairwise fun a b => id a < id b :=
    (List.pairwise_insertionSort (· ≤ ·) _).imp₂ (fun a b hle hne => lt_of_le_of_ne hle hne)
      (hperm.nodup_iff.mpr t.unique)
  rw [oldest, Ends.mem_take hsorted (hperm.mem_iff.mpr h), Ends.below_perm hperm]
  unfold Ends.below
  rw [List.countP_map]
  rfl

theorem mem_newest (h : row ∈ t.rows.map Prod.fst) :
    row ∈ newest t ↔ Ends.above Prod.fst t.rows row < 12 := by
  have hperm := List.perm_insertionSort (· ≥ ·) (t.rows.map Prod.fst)
  have hsorted : ((t.rows.map Prod.fst).insertionSort (· ≥ ·)).Pairwise fun a b =>
      OrderDual.toDual a < OrderDual.toDual b :=
    (List.pairwise_insertionSort (· ≥ ·) _).imp₂
      (fun a b hle hne => lt_of_le_of_ne (OrderDual.toDual_le_toDual.mpr hle)
        fun heq => hne (OrderDual.toDual_inj.mp heq))
      (hperm.nodup_iff.mpr t.unique)
  rw [newest, Ends.mem_take hsorted (hperm.mem_iff.mpr h), Ends.below_perm hperm]
  unfold Ends.below Ends.above
  rw [List.countP_map]
  rfl

theorem retained_iff (h : row ∈ t.rows.map Prod.fst) :
    retained t row = true ↔ Ends.Kept Prod.fst 4 12 t.rows row := by
  rw [retained, Bool.or_eq_true, decide_eq_true_eq, decide_eq_true_eq, mem_oldest h, mem_newest h]
  rfl

theorem trimAnchors_rows (t : Table Int Bytes) : (trimAnchors t).rows = trimmed t.rows := by
  refine List.filter_congr fun r hr => ?_
  rw [Bool.not_not, Bool.eq_iff_iff, retained_iff (List.mem_map_of_mem hr), decide_eq_true_eq]

end Trim

section Step

variable {t ref : Table Int Bytes} {row : Int} {guid : Bytes} {r : Int × Bytes}

def Free (rows : List (Int × Bytes)) (row : Int) (guid : Bytes) : Prop :=
  ∀ r ∈ rows, r.1 ≠ row ∧ r.2 ≠ guid

variable (guid) in
theorem insert_free (h : ∀ r ∈ t.rows, r.1 ≠ row) :
    ∃ t', t.insert row guid = some t' ∧ t'.rows.Perm ((row, guid) :: t.rows) := by
  have hnone : t.get? row = none := (t.get?_eq_none_iff row).mpr fun v hv => h _ hv rfl
  obtain ⟨t', hinsert⟩ := t.insert_isSome row guid hnone
  refine ⟨t', hinsert, ?_⟩
  rw [Table.rows_insert hinsert]
  exact List.perm_append_singleton _ _

theorem insert_taken (h : r ∈ t.rows) (hrow : r.1 = row) : t.insert row guid = none := by
  rw [Table.insert_eq_none_iff, ← hrow, (t.get?_eq_some_iff r.1 r.2).mpr h]
  rfl

theorem insertOrIgnore_free (h : Free t.rows row guid) :
    (insertOrIgnore t row guid).rows.Perm ((row, guid) :: t.rows) := by
  have hsource : (t.rows.any fun r => r.2 = guid) = false := by
    simpa using fun a b hab => (h (a, b) hab).2
  obtain ⟨t', hinsert, hperm⟩ := insert_free guid fun r hr => (h r hr).1
  rw [insertOrIgnore, hsource, if_neg Bool.false_ne_true, hinsert]
  exact hperm

theorem insertOrIgnore_taken (h : ¬Free t.rows row guid) : insertOrIgnore t row guid = t := by
  unfold insertOrIgnore
  split_ifs with hsource
  · rfl
  · unfold Free at h
    push Not at h
    obtain ⟨r, hr, htaken⟩ := h
    have hrow : r.1 = row := by
      by_contra hne
      exact hsource (List.any_eq_true.mpr ⟨r, hr, decide_eq_true (htaken hne)⟩)
    rw [insert_taken hr hrow]
    rfl

theorem nodup_rows (t : Table Int Bytes) : t.rows.Nodup := List.Nodup.of_map Prod.fst t.unique

/-- The reference holds what trimming the table would leave. -/
def Tracks (ref t : Table Int Bytes) : Prop := ∀ r, r ∈ ref.rows ↔ r ∈ trimmed t.rows

theorem Tracks.perm (h : Tracks ref t) : ref.rows.Perm (trimmed t.rows) :=
  (List.perm_ext_iff_of_nodup (nodup_rows ref) ((nodup_rows t).filter _)).mpr h

theorem Tracks.insert (h : Tracks ref t) (hfree : Free ref.rows row guid) :
    r ∈ (remember ref row guid).rows ↔ r ∈ trimmed ((row, guid) :: t.rows) := by
  rw [remember_rows, trimmed, Ends.mem_ends_perm (insertOrIgnore_free hfree),
    Ends.mem_ends_perm (h.perm.cons (row, guid))]
  exact Ends.mem_ends_cons_ends t.unique

theorem Tracks.ignore (h : Tracks ref t) (htaken : ¬Free ref.rows row guid) :
    r ∈ (remember ref row guid).rows ↔ r ∈ trimmed t.rows := by
  rw [remember_rows, insertOrIgnore_taken htaken, trimmed, Ends.mem_ends_perm h.perm]
  exact Ends.mem_ends_ends t.unique

/-- A row that is taken in the table is one that the reference has, or has let go. -/
theorem Tracks.taken (h : Tracks ref t) {b : Int × Bytes} (hb : b ∈ t.rows) (hrow : b.1 = row) :
    r ∈ (remember ref row guid).rows ↔ r ∈ trimmed t.rows := by
  by_cases hfree : Free ref.rows row guid
  · rw [h.insert hfree]
    refine Ends.mem_ends_cons_discarded fun hkept => ?_
    have hmem : b ∈ ref.rows := (h b).mpr (Ends.mem_ends.mpr ⟨hb, hrow ▸ hkept⟩)
    exact (hfree b hmem).1 hrow
  · exact h.ignore hfree

theorem Tracks.move (h : Tracks ref t) (hunique : Unique t) {old : Int}
    (hheld : (old, guid) ∈ t.rows) (hlost : ¬Ends.Kept Prod.fst 4 12 t.rows old)
    (hrow : ∀ r ∈ t.rows, r.1 ≠ row) :
    r ∈ (remember ref row guid).rows ↔
      r ∈ trimmed ((row, guid) :: t.rows.filter fun r => !decide (r.1 = old)) := by
  have hfree : Free ref.rows row guid := by
    intro b hb
    obtain ⟨hmem, hkept⟩ := Ends.mem_ends.mp ((h b).mp hb)
    refine ⟨hrow b hmem, fun hsource => hlost ?_⟩
    cases List.inj_on_of_nodup_map hunique hmem hheld hsource
    exact hkept
  have hrest : t.rows.Perm ((old, guid) :: t.rows.filter fun r => !decide (r.1 = old)) := by
    refine (List.perm_ext_iff_of_nodup (nodup_rows t) ?_).mpr fun b => ?_
    · exact List.nodup_cons.mpr ⟨by simp, (nodup_rows t).filter _⟩
    · rw [List.mem_cons, List.mem_filter]
      by_cases hold : b.1 = old
      · have hsame : b ∈ t.rows ↔ b = (old, guid) :=
          ⟨fun hb => List.inj_on_of_nodup_map t.unique hb hheld hold, fun heq => heq ▸ hheld⟩
        simp [hsame, hold]
      · have hne : b ≠ (old, guid) := fun heq => hold (by rw [heq])
        simp [hold, hne]
  have hlost' : ¬Ends.Kept Prod.fst 4 12 (t.rows.filter fun r => !decide (r.1 = old)) old := by
    intro hkept
    refine hlost ((Ends.kept_perm hrest old).mpr ?_)
    unfold Ends.Kept at hkept ⊢
    rw [Ends.below_cons, Ends.above_cons]
    simpa using hkept
  have hsame : (trimmed t.rows).Perm (trimmed (t.rows.filter fun r => !decide (r.1 = old))) := by
    refine (List.perm_ext_iff_of_nodup ((nodup_rows t).filter _)
      (((nodup_rows t).filter _).filter _)).mpr fun b => ?_
    exact (Ends.mem_ends_perm hrest).trans (Ends.mem_ends_cons_discarded hlost')
  rw [h.insert hfree]
  calc
    r ∈ trimmed ((row, guid) :: t.rows) ↔ r ∈ trimmed ((row, guid) :: trimmed t.rows) :=
      (Ends.mem_ends_cons_ends t.unique).symm
    _ ↔ r ∈ trimmed ((row, guid) :: trimmed (t.rows.filter fun r => !decide (r.1 = old))) :=
      Ends.mem_ends_perm (hsame.cons (row, guid))
    _ ↔ _ := Ends.mem_ends_cons_ends (t.unique.sublist (List.filter_sublist.map Prod.fst))

/-- What `anchor` does: nothing, an insertion, or the reuse of a row. -/
theorem anchor_cases (guid : Bytes) (row : Int) (t : Table Int Bytes) :
    anchor guid row t = t ∧ ((∃ r ∈ t.rows, r.1 = row) ∨
      ∃ old, (old, guid) ∈ t.rows ∧ Ends.Kept Prod.fst 4 12 t.rows old) ∨
    (∀ r ∈ t.rows, r.1 ≠ row) ∧ ((∀ r ∈ t.rows, r.2 ≠ guid) ∧
        (anchor guid row t).rows.Perm ((row, guid) :: t.rows) ∨
      ∃ old, (old, guid) ∈ t.rows ∧ ¬Ends.Kept Prod.fst 4 12 t.rows old ∧
        (anchor guid row t).rows.Perm
          ((row, guid) :: t.rows.filter fun r => !decide (r.1 = old))) := by
  by_cases hrow : ∃ r ∈ t.rows, r.1 = row
  · -- whatever the conflict, a taken row is left alone
    refine Or.inl ⟨?_, Or.inl hrow⟩
    obtain ⟨b, hb, htaken⟩ := hrow
    have hcontains : t.contains row = true := by
      rw [Table.contains, ← htaken, (t.get?_eq_some_iff b.1 b.2).mpr hb]
      rfl
    unfold Anchors.anchor
    split
    · rw [hcontains, Bool.or_true, if_pos rfl]
    · rw [insert_taken hb htaken]
      rfl
  · push Not at hrow
    have hcontains : t.contains row = false := by
      rw [Table.contains, (t.get?_eq_none_iff row).mpr fun v hv => hrow _ hv rfl]
      rfl
    cases hfind : t.rows.find? fun r => decide (r.2 = guid) with
    | none =>
      obtain ⟨t', hinsert, hperm⟩ := insert_free guid hrow
      refine Or.inr ⟨hrow, Or.inl ⟨fun r hr => ?_, ?_⟩⟩
      · simpa using List.find?_eq_none.mp hfind r hr
      · unfold Anchors.anchor
        rw [hfind]
        dsimp only
        rw [hinsert]
        exact hperm
    | some held =>
      obtain ⟨old, source⟩ := held
      obtain rfl : source = guid := by simpa using List.find?_some hfind
      have hheld : (old, source) ∈ t.rows := List.mem_of_find?_eq_some hfind
      have hretained := retained_iff (List.mem_map_of_mem (f := Prod.fst) hheld)
      have hanchor : Anchors.anchor source row t = if retained t old then t
          else (t.deleteWhere fun r _ => r = old).upsert row source id := by
        unfold Anchors.anchor
        rw [hfind]
        dsimp only
        rw [hcontains, Bool.or_false]
      by_cases hkept : Ends.Kept Prod.fst 4 12 t.rows old
      · rw [if_pos (hretained.mpr hkept)] at hanchor
        exact Or.inl ⟨hanchor, Or.inr ⟨old, hheld, hkept⟩⟩
      · rw [if_neg fun h => hkept (hretained.mp h)] at hanchor
        obtain ⟨t', hinsert, hperm⟩ := @insert_free
          (t.deleteWhere fun r _ => r = old) row source fun r hr => hrow r (List.mem_of_mem_filter hr)
        refine Or.inr ⟨hrow, Or.inr ⟨old, hheld, hkept, ?_⟩⟩
        rw [hanchor, Table.upsert, hinsert]
        exact hperm

theorem unique_anchor (h : Unique t) : Unique (anchor guid row t) := by
  rcases anchor_cases guid row t with ⟨hsame, -⟩ | ⟨-, ⟨hsource, hperm⟩ | ⟨old, hheld, -, hperm⟩⟩
  · rw [hsame]
    exact h
  · refine (hperm.map Prod.snd).nodup_iff.mpr (List.nodup_cons.mpr ⟨?_, h⟩)
    intro hmem
    obtain ⟨b, hb, hguid⟩ := List.mem_map.mp hmem
    exact hsource b hb hguid
  · refine (hperm.map Prod.snd).nodup_iff.mpr (List.nodup_cons.mpr ⟨?_, ?_⟩)
    · intro hmem
      obtain ⟨b, hb, hguid⟩ := List.mem_map.mp hmem
      obtain ⟨hb, hother⟩ := List.mem_filter.mp hb
      cases List.inj_on_of_nodup_map h hb hheld hguid
      simp at hother
    · exact h.sublist (List.filter_sublist.map Prod.snd)

/-- One import keeps the reference what trimming the table would leave. -/
theorem Tracks.anchor (h : Tracks ref t) (hunique : Unique t) :
    Tracks (remember ref row guid) (Anchors.anchor guid row t) := by
  intro r
  rcases anchor_cases guid row t with ⟨hsame, hnothing⟩ | ⟨hrow, hchange⟩
  · rw [hsame]
    rcases hnothing with ⟨b, hb, hrow⟩ | ⟨old, hheld, hkept⟩
    · exact h.taken hb hrow
    · refine h.ignore fun hfree => ?_
      exact (hfree (old, guid) ((h _).mpr (Ends.mem_ends.mpr ⟨hheld, hkept⟩))).2 rfl
  · rcases hchange with ⟨hsource, hperm⟩ | ⟨old, hheld, hlost, hperm⟩
    · rw [trimmed, Ends.mem_ends_perm hperm]
      refine h.insert fun b hb => ?_
      have hmem := (Ends.mem_ends.mp ((h b).mp hb)).1
      exact ⟨hrow b hmem, hsource b hmem⟩
    · rw [trimmed, Ends.mem_ends_perm hperm]
      exact h.move hunique hheld hlost hrow

end Step

/-- A batch of imports into a trimmed table, trimmed at its end, leaves the anchors
that trimming after every import leaves. -/
theorem batch_trimmed (t : Table Int Bytes) (hunique : Unique t) (htrimmed : trimAnchors t = t)
    (imports : List (Int × Bytes)) :
    (trimAnchors (imports.foldl (fun t m => anchor m.2 m.1 t) t)).rows.Perm
      (imports.foldl (fun t m => remember t m.1 m.2) t).rows := by
  have hrun : ∀ (imports : List (Int × Bytes)) (t ref : Table Int Bytes), Unique t → Tracks ref t →
      Tracks (imports.foldl (fun t m => remember t m.1 m.2) ref)
        (imports.foldl (fun t m => anchor m.2 m.1 t) t) := by
    intro imports
    induction imports with
    | nil => exact fun _ _ _ h => h
    | cons m rest ih => exact fun t ref hunique h => ih _ _ (unique_anchor hunique) (h.anchor hunique)
  have hstart : Tracks t t := by
    intro r
    rw [← trimAnchors_rows, htrimmed]
  have hend := (hrun imports t t hunique hstart).perm
  rw [trimAnchors_rows]
  exact hend.symm

theorem batch_trimmed_two :
    (trimAnchors (anchor (text "a") 7 (anchor (text "b") 6 (Table.single 5 (text "a"))))).rows.Perm
      (remember (remember (Table.single 5 (text "a")) 6 (text "b")) 7 (text "a")).rows :=
  batch_trimmed (Table.single 5 (text "a")) (List.nodup_singleton _) rfl
    [(6, text "b"), (7, text "a")]

end Zimbr.Relay.Anchors
