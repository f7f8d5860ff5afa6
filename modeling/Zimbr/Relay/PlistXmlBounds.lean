import Zimbr.Relay.PlistDepth

set_option autoImplicit false

/-!
# The reader of XML property lists is total

Every turn of a loop passes over bytes or counts an object.
-/
namespace Zimbr.Relay.Plist
open Library

/-- The position is within the bytes, from that place on, and so many objects were counted. -/
structure Within (bytes : Bytes) (low least : Nat) (s : Xml) : Prop where
  low : low ≤ s.pos
  pos : s.pos ≤ bytes.length
  least : least ≤ s.objects
  objects : s.objects ≤ maxObjects

structure Stopped (bytes : Bytes) (e : Failure) (s : Xml) : Prop where
  pos : s.pos ≤ bytes.length
  objects : s.objects ≤ maxObjects ∨ e = .oversized ∧ s.objects = maxObjects + 1

section Scanning

variable {bytes : Bytes} {low least : Nat}

theorem Within.stopped (e : Failure) (s : Xml) (h : Within bytes low least s) :
    Stopped bytes e s := ⟨h.pos, Or.inl h.objects⟩

theorem Within.less {low' least' : Nat} {s : Xml} (h : Within bytes low least s)
    (hlow : low' ≤ low) (hleast : least' ≤ least) : Within bytes low' least' s :=
  ⟨hlow.trans h.low, h.pos, hleast.trans h.least, h.objects⟩

/-- The computation keeps its place and its count, or goes on from there. -/
abbrev Parses (bytes : Bytes) (low least : Nat) {α : Type} (m : Scanning α) (Q : α → Prop) :
    Prop :=
  Checked.Keeps (Within bytes low least) (Stopped bytes) m Q

theorem indexOf_le {needle hay : Bytes} {i : Nat} (h : indexOf needle hay = some i) :
    i + needle.length ≤ hay.length := by
  induction hay generalizing i with
  | nil =>
    unfold indexOf at h
    split_ifs at h with hempty
    cases h
    rw [List.isEmpty_iff.mp hempty]
    exact Nat.le_refl _
  | cons b rest ih =>
    unfold indexOf at h
    split_ifs at h with hhere
    · cases h
      rw [Nat.zero_add]
      exact (List.isPrefixOf_iff_prefix.mp hhere).length_le
    · obtain ⟨j, hj, rfl⟩ := Option.map_eq_some_iff.mp h
      have hle := ih hj
      rw [List.length_cons]
      omega

theorem rest_parses : Checked.Meets (Within bytes low least) (Stopped bytes) (rest bytes)
    fun left s => left.length = bytes.length - s.pos ∧ Within bytes low least s := by
  refine Checked.Meets.bind (Q := fun pos s => pos = s.pos ∧ Within bytes low least s)
    (.get fun s hs => ⟨rfl, hs⟩) fun pos => ?_
  refine (Checked.Meets.slice fun s hs => ?_).weaken fun left s hs => ?_
  · have hbound := hs.2.pos
    omega
  · obtain ⟨-, hlength, hpos, hwithin⟩ := hs
    exact ⟨hlength.trans (by rw [hpos]), hwithin⟩

variable (hbytes : bytes.length ≤ maxBytes)

include hbytes

theorem skip_parses (length : Nat) :
    Checked.Meets (fun s => s.pos + length ≤ bytes.length ∧ Within bytes low least s)
      (Stopped bytes) (skip length) fun _ => Within bytes (low + length) least := by
  have hsize : maxBytes < 2 ^ 63 := by decide
  refine Checked.Meets.bind (Q := fun pos s => pos = s.pos ∧ s.pos + length ≤ bytes.length ∧
    Within bytes low least s) (.get fun s hs => ⟨rfl, hs⟩) fun pos => ?_
  refine Checked.Meets.bind (.add fun s hs => by omega) fun next => .modify fun s hs => ?_
  obtain ⟨hnext, hpos, hroom, hwithin⟩ := hs
  have hlow := hwithin.low
  refine ⟨?_, ?_, hwithin.least, hwithin.objects⟩
  · dsimp only
    omega
  · dsimp only
    omega

theorem consume_parses (mark : Bytes) :
    Checked.Meets (Within bytes low least) (Stopped bytes) (consume bytes mark)
      fun found => Within bytes (if found then low + mark.length else low) least := by
  refine Checked.Meets.bind rest_parses fun left => ?_
  split_ifs with hmark
  · have hlength := (List.isPrefixOf_iff_prefix.mp hmark).length_le
    refine Checked.Meets.bind ((skip_parses hbytes mark.length).mono (fun s hs => ?_)
      fun _ _ h => h) fun _ => .pure fun _ hs => hs
    have hbound := hs.2.pos
    exact ⟨by omega, hs.2⟩
  · exact .pure fun _ hs => hs.2

theorem consume_keeps (mark : Bytes) :
    Parses bytes low least (consume bytes mark) fun _ => True :=
  (consume_parses hbytes mark).weaken fun found _ hs =>
    ⟨trivial, hs.less (by split_ifs <;> omega) (Nat.le_refl _)⟩

theorem skipTo_parses {α : Type} {stop more left : Nat} (hle : stop + more ≤ left)
    {tail : Scanning α} {R : α → Xml → Prop} (htail : Checked.Meets
      (Within bytes (low + (stop + more)) least) (Stopped bytes) tail R) :
    Checked.Meets (fun s => left = bytes.length - s.pos ∧ Within bytes low least s)
      (Stopped bytes) (do
        let length ← Checked.add stop more
        skip length
        tail) R := by
  have hsize : maxBytes < 2 ^ 63 := by decide
  refine Checked.Meets.bind (.add fun s hs => by omega) fun length =>
    .of_fact (fun s hs => hs.1) fun hlength => ?_
  rw [← hlength] at hle htail
  refine Checked.Meets.bind ((skip_parses hbytes length).mono (fun s hs => ?_) fun _ _ h => h)
    fun _ => htail
  have hbound := hs.2.2.pos
  exact ⟨by omega, hs.2.2⟩

/-- Each round passes over a byte, so there are enough of them. -/
theorem whitespace_parses (rounds : Nat) (hrounds : bytes.length < low + rounds) :
    Parses bytes low least (whitespace bytes rounds) fun _ => True := by
  induction rounds generalizing low with
  | zero =>
    refine .of_fact (F := False) (fun s hs => ?_) False.elim
    have hlow := hs.low
    have hpos := hs.pos
    omega
  | succ rounds ih =>
    have hmore {low' : Nat} (hlow : low < low') :
        Checked.Meets (Within bytes low' least) (Stopped bytes) (whitespace bytes rounds)
          fun _ s => True ∧ Within bytes low least s :=
      Checked.Meets.weaken (ih (by omega)) fun _ s hs => ⟨trivial, hs.2.less hlow.le le_rfl⟩
    refine Checked.Meets.bind (Q := fun pos s => pos = s.pos ∧ Within bytes low least s)
      (.get fun s hs => ⟨rfl, hs⟩) fun pos => ?_
    split_ifs with hpos
    · refine Checked.Meets.bind (.index fun _ _ => hpos) fun b => ?_
      split_ifs
      · refine Checked.Meets.bind ((skip_parses hbytes 1).mono (fun s hs => ⟨by omega, hs.2.2⟩)
          fun _ _ h => h) fun _ => hmore (by omega)
      · refine Checked.Meets.bind ((consume_parses hbytes _).mono (fun s hs => hs.2.2)
          fun _ _ h => h) fun found => ?_
        split_ifs
        · refine Checked.Meets.bind rest_parses fun left =>
            .bind (.orFail fun s hs => hs.2.stopped _) fun stop =>
            .of_fact (fun s hs => hs.1) fun hstop => ?_
          have hle : stop + 3 ≤ left.length := indexOf_le hstop
          exact (skipTo_parses hbytes hle (hmore (by omega))).mono (fun s hs => hs.2)
            fun _ _ h => h
        · exact .pure fun _ hs => ⟨trivial, hs⟩
    · exact .pure fun _ hs => ⟨trivial, hs.2⟩

theorem spaces_parses : Parses bytes low least (spaces bytes) fun _ => True :=
  whitespace_parses hbytes _ (by omega)

omit hbytes in
theorem unescape_parses (rounds : Nat) (raw : Bytes) (hrounds : raw.length < rounds) :
    Parses bytes low least (unescape rounds raw) fun _ => True := by
  induction rounds generalizing raw with
  | zero => exact absurd hrounds (Nat.not_lt_zero _)
  | succ rounds ih =>
    cases raw with
    | nil => exact .pure trivial
    | cons b raw =>
      rw [List.length_cons] at hrounds
      unfold unescape
      split_ifs with hplain
      · exact .bind (ih raw (by omega)) fun _ _ => .pure trivial
      · refine .bind (.orFail Within.stopped) fun semi hsemi => ?_
        obtain ⟨hbound, hfound, -⟩ := List.idxOf?_eq_some_iff.mp hsemi
        have hlength : (b :: raw).length = raw.length + 1 := List.length_cons
        have hsemi : 1 ≤ semi := by
          refine Nat.one_le_iff_ne_zero.mpr fun hzero => hplain ?_
          subst hzero
          rintro rfl
          cases hfound
        exact .bind (.sub hsemi) fun length hlength => .bind (.slice (by omega)) fun entity _ =>
          .bind (.ofExcept Within.stopped) fun cp _ => .bind (.require Within.stopped) fun _ _ =>
          .bind (.orFail Within.stopped) fun encoded _ =>
          .bind (ih _ (by rw [List.length_drop]; omega)) fun _ _ => .pure trivial

theorem content_parses (closing : Bytes) :
    Parses bytes low least (content bytes closing) fun _ => True := by
  refine Checked.Meets.bind rest_parses fun left =>
    .bind (.orFail fun s hs => hs.2.stopped _) fun stop =>
    .of_fact (fun s hs => hs.1) fun hstop => ?_
  have hle := indexOf_le hstop
  refine Checked.Meets.bind (.slice fun s hs => by omega) fun raw =>
    .bind (.require fun s hs => hs.2.2.2.2.stopped _) fun _ => ?_
  refine (skipTo_parses hbytes hle (Checked.Meets.weaken (Checked.Keeps.bind
    (unescape_parses _ raw (Nat.lt_succ_self _)) fun decoded _ =>
    .bind (.require Within.stopped) fun _ _ => .pure trivial) fun _ s hs =>
    ⟨hs.1, hs.2.less (Nat.le_add_right _ _) le_rfl⟩)).mono (fun s hs => hs.2.2.2.2)
    fun _ _ h => h

def Low (levels : Nat) (value : Node) : Prop := value.height ≤ levels

omit hbytes in
theorem low_leaf {levels : Nat} {value : Node} (h : value.height = 1) : Low (levels + 1) value :=
  h.le.trans (Nat.le_add_left 1 levels)

theorem integer_parses (levels : Nat) :
    Parses bytes low least (integerContent bytes) (Low (levels + 1)) :=
  .bind (content_parses hbytes _) fun _ _ => .bind (.orFail Within.stopped) fun _ _ =>
    .pure (low_leaf (by simp [Node.height]))

theorem data_parses (levels : Nat) :
    Parses bytes low least (dataContent bytes) (Low (levels + 1)) :=
  .bind (content_parses hbytes _) fun _ _ => .bind (.orFail Within.stopped) fun _ _ =>
    .pure (low_leaf (by simp [Node.height]))

omit hbytes in
theorem low_array {levels : Nat} {items : List Node} (h : ∀ item ∈ items, Low levels item) :
    Low (levels + 1) (.array items) := by
  unfold Low
  rw [height_array, Nat.add_comm]
  rcases itemsHeight_mem items with hzero | ⟨item, hmem, hmax⟩
  · omega
  · have hitem : item.height ≤ levels := h item hmem
    omega

omit hbytes in
theorem low_dict {levels : Nat} {entries : List (Bytes × Node)}
    (h : ∀ entry ∈ entries, Low levels entry.2) : Low (levels + 1) (.dict entries) := by
  have harray : Low (levels + 1) (.array (entries.map Prod.snd)) := low_array fun item hitem => by
    obtain ⟨entry, hentry, rfl⟩ := List.mem_map.mp hitem
    exact h entry hentry
  unfold Low at harray ⊢
  rwa [height_dict, ← height_array]

section Items

variable {inner : Scanning Node} {levels : Nat}
  (hinner : ∀ least, Checked.Meets (Within bytes low least) (Stopped bytes) inner
    fun value s => Low levels value ∧ Within bytes low (least + 1) s)

include hinner

theorem arrayItems_parses (rounds : Nat) (hrounds : maxObjects < least + rounds)
    {done : List Node} (hdone : ∀ item ∈ done, Low levels item) :
    Parses bytes low least (arrayItems bytes inner rounds done) (Low (levels + 1)) := by
  induction rounds generalizing least done with
  | zero =>
    refine .of_fact (F := False) (fun s hs => ?_) False.elim
    have hleast := hs.least
    have hobjects := hs.objects
    omega
  | succ rounds ih =>
    refine .bind (spaces_parses hbytes) fun _ _ => .bind (consume_keeps hbytes _)
      fun closed _ => ?_
    split_ifs
    · exact .pure (low_array hdone)
    · refine Checked.Meets.bind (hinner least) fun item =>
        .of_fact (fun s hs => hs.1) fun hitem => ?_
      have hall : ∀ other ∈ done ++ [item], Low levels other := by
        simpa only [List.forall_mem_append, List.forall_mem_singleton] using And.intro hdone hitem
      have hmore : maxObjects < least + 1 + rounds := by omega
      exact Checked.Meets.mono (ih hmore hall) (fun s hs => hs.2) fun _ s hs =>
        ⟨hs.1, hs.2.less le_rfl (Nat.le_succ _)⟩

omit hinner hbytes in
theorem dictNode_parses {entries : List (Bytes × Node)}
    (h : ∀ entry ∈ entries, Low levels entry.2) :
    Parses bytes low least (dictNode entries) (Low (levels + 1)) := by
  unfold dictNode
  split
  · split_ifs
    · exact .bind (.require Within.stopped) fun _ _ => .pure (low_leaf (by simp [Node.height]))
    · exact .pure (low_dict h)
  · exact .pure (low_dict h)

theorem dictEntries_parses (rounds : Nat) (hrounds : maxObjects < least + rounds)
    {done : List (Bytes × Node)} (hdone : ∀ entry ∈ done, Low levels entry.2) :
    Parses bytes low least (dictEntries bytes inner rounds done) (Low (levels + 1)) := by
  induction rounds generalizing least done with
  | zero =>
    refine .of_fact (F := False) (fun s hs => ?_) False.elim
    have hleast := hs.least
    have hobjects := hs.objects
    omega
  | succ rounds ih =>
    refine .bind (spaces_parses hbytes) fun _ _ => .bind (consume_keeps hbytes _)
      fun closed _ => ?_
    split_ifs
    · exact dictNode_parses hdone
    · refine .bind (consume_keeps hbytes _) fun opened _ =>
        .bind (.require Within.stopped) fun _ _ => .bind (content_parses hbytes _) fun key _ =>
        .bind (.require Within.stopped) fun _ _ => ?_
      refine Checked.Meets.bind (hinner least) fun item =>
        .of_fact (fun s hs => hs.1) fun hitem => ?_
      have hall : ∀ entry ∈ done ++ [(key, item)], Low levels entry.2 := by
        simpa only [List.forall_mem_append, List.forall_mem_singleton] using And.intro hdone hitem
      have hmore : maxObjects < least + 1 + rounds := by omega
      exact Checked.Meets.mono (ih hmore hall) (fun s hs => hs.2) fun _ s hs =>
        ⟨hs.1, hs.2.less le_rfl (Nat.le_succ _)⟩

omit hinner in
/-- Where a mark is found the value is read one way, and otherwise another. -/
theorem either_parses {mark : Bytes} {found other : Scanning Node} {Q : Node → Prop}
    (hfound : Parses bytes low least found Q) (hother : Parses bytes low least other Q) :
    Parses bytes low least (do
      let here ← consume bytes mark
      if here then found else other) Q :=
  .bind (consume_keeps hbytes mark) fun here _ => by
    cases here
    · exact hother
    · exact hfound

theorem tagged_parses (hleast : 1 ≤ least) :
    Parses bytes low least (tagged bytes inner) (Low (levels + 1)) := by
  have hignored (closing : Bytes) : Parses bytes low least (do
      let _ ← content bytes closing
      return .none) (Low (levels + 1)) :=
    .bind (content_parses hbytes closing) fun _ _ => .pure (low_leaf (by simp [Node.height]))
  have hstring (closing : Bytes) : Parses bytes low least (do
      let decoded ← content bytes closing
      return .string decoded) (Low (levels + 1)) :=
    .bind (content_parses hbytes closing) fun _ _ => .pure (low_leaf (by simp [Node.height]))
  have hleaf {value : Node} (h : value.height = 1) :
      Parses bytes low least (pure value) (Low (levels + 1)) := .pure (low_leaf h)
  unfold tagged
  refine either_parses hbytes (hleaf (by simp [Node.height])) ?_
  refine either_parses hbytes (hleaf (by simp [Node.height])) ?_
  refine either_parses hbytes (hleaf (by simp [Node.height])) ?_
  refine either_parses hbytes (hstring _) ?_
  refine either_parses hbytes (integer_parses hbytes levels) ?_
  refine either_parses hbytes (hignored _) ?_
  refine either_parses hbytes (hignored _) ?_
  refine either_parses hbytes (hleaf (by simp [Node.height])) ?_
  refine either_parses hbytes (data_parses hbytes levels) ?_
  refine either_parses hbytes (hleaf (by simp [Node.height, itemsHeight])) ?_
  refine either_parses hbytes (arrayItems_parses hbytes hinner _ (by omega) (by simp)) ?_
  refine either_parses hbytes (hleaf (by simp [Node.height, entriesHeight])) ?_
  refine either_parses hbytes (dictEntries_parses hbytes hinner _ (by omega) (by simp)) ?_
  exact .fail Within.stopped

end Items

omit hbytes in
/-- An object is refused past the bound, and where the nesting is too deep. -/
theorem visit_parses (deep : Bool) :
    Checked.Meets (Within bytes low least) (Stopped bytes) (visit deep)
      fun _ s => deep = false ∧ Within bytes low (least + 1) s := by
  apply Checked.Meets.count
  case hmost => decide
  case hle => exact fun s hs => hs.objects
  case hlast =>
    intro s hs _
    refine ⟨hs.pos, ?_⟩
    rcases hs.objects.lt_or_eq with hfree | hfull
    · exact Or.inl hfree
    · exact Or.inr ⟨rfl, congrArg Nat.succ hfull⟩
  case hnext => exact fun s hs hfree => ⟨hs.low, hs.pos, Nat.succ_le_succ hs.least, hfree⟩

/-- A value with levels left is read in bounds, has at most that many levels, and
was counted. -/
theorem valueLevels_parses (levels : Nat) : ∀ least,
    Checked.Meets (Within bytes low least) (Stopped bytes) (valueLevels bytes levels)
      fun value s => Low levels value ∧ Within bytes low (least + 1) s := by
  induction levels with
  | zero =>
    exact fun _ => .bind (visit_parses true) fun _ => .of_fact (fun _ hs => hs.1) nofun
  | succ levels ih =>
    intro least
    refine .bind (visit_parses false) fun _ => ?_
    exact (Checked.Keeps.bind (spaces_parses hbytes) fun _ _ =>
      tagged_parses hbytes ih (Nat.le_add_left 1 least)).mono (fun _ hs => hs.2) fun _ _ h => h

/-- A mark and something up to another one are passed over, if the mark is there. -/
theorem declaration_parses : Parses bytes low least (declaration bytes) fun _ => True := by
  refine .bind (consume_keeps hbytes _) fun found _ => ?_
  split_ifs
  · refine Checked.Meets.bind rest_parses fun left =>
      .bind (.orFail fun s hs => hs.2.stopped _) fun stop =>
      .of_fact (fun s hs => hs.1) fun hstop => ?_
    have hle : stop + 2 ≤ left.length := indexOf_le hstop
    exact (skipTo_parses hbytes hle (Checked.Meets.weaken (spaces_parses hbytes) fun _ s hs =>
      ⟨trivial, hs.2.less (Nat.le_add_right _ _) le_rfl⟩)).mono (fun s hs => hs.2) fun _ _ h => h
  · exact .pure trivial

theorem doctype_parses : Parses bytes low least (doctype bytes) fun _ => True := by
  refine .bind (consume_keeps hbytes _) fun found _ => ?_
  split_ifs
  · refine Checked.Meets.bind rest_parses fun left =>
      .bind (.orFail fun s hs => hs.2.stopped _) fun stop =>
      .of_fact (fun s hs => hs.1) fun hstop => ?_
    obtain ⟨hle, -⟩ := List.idxOf?_eq_some_iff.mp hstop
    refine Checked.Meets.bind (.slice fun s hs => by omega) fun inner =>
      .bind (.require fun s hs => hs.2.2.2.2.stopped _) fun _ => ?_
    exact (skipTo_parses hbytes hle (Checked.Meets.weaken (spaces_parses hbytes) fun _ s hs =>
      ⟨trivial, hs.2.less (Nat.le_add_right _ _) le_rfl⟩)).mono (fun s hs => hs.2.2.2.2)
      fun _ _ h => h
  · exact .pure trivial

/-- The whole file is read in bounds, and its value is at most 32 levels deep. -/
theorem parseXml_parses : Parses bytes 0 0 (parseXml bytes) (Low maxDepth) :=
  .bind (spaces_parses hbytes) fun _ _ => .bind (declaration_parses hbytes) fun _ _ =>
    .bind (doctype_parses hbytes) fun _ _ => .bind (consume_keeps hbytes _) fun _ _ =>
    .bind (.require Within.stopped) fun _ _ =>
    .bind (Checked.Meets.weaken (valueLevels_parses hbytes maxDepth 0) fun _ _ hs =>
      ⟨hs.1, hs.2.less le_rfl (Nat.zero_le _)⟩) fun _ hroot =>
    .bind (spaces_parses hbytes) fun _ _ => .bind (consume_keeps hbytes _) fun _ _ =>
    .bind (.require Within.stopped) fun _ _ => .bind (spaces_parses hbytes) fun _ _ =>
    .bind (Q := fun _ => True) (.get fun _ _ => trivial) fun _ _ =>
    .bind (.require Within.stopped) fun _ _ => .pure hroot

end Scanning

end Zimbr.Relay.Plist
