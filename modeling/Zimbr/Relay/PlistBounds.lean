import Zimbr.Relay.PlistDepth

set_option autoImplicit false

/-!
# The reader of binary property lists is total

Each reference is charged before it is followed, so the visits are within the work.
-/
namespace Zimbr.Relay.Plist
open Library

structure Halted (e : Failure) (s : Walk) : Prop where
  work : s.work ≤ maxBytes * 8
  visits : s.visits ≤ s.work + 1

structure Opened (b : Binary) : Prop where
  size : b.bytes.length ≤ maxBytes
  table : b.table ≤ b.bytes.length
  objects : b.offsets.length ≤ maxObjects
  width : b.refWidth ≤ 8
  wide : 1 ≤ b.refWidth

/-- The budgets are kept, with credit for so many visits, and what was read has the
height of its longest chain. -/
structure Sound (b : Binary) (credit : Nat) (s : Walk) : Prop where
  work : s.work ≤ maxBytes * 8
  allocated : s.allocated ≤ maxBytes * 2
  visits : s.visits + credit ≤ s.work + 1
  marks : s.marks.length = b.offsets.length
  memo : ∀ index value, s.marks[index]? = some (.decoded value) → Longest b index value.height

theorem Sound.halted {b : Binary} {credit : Nat} (e : Failure) (s : Walk)
    (h : Sound b credit s) : Halted e s :=
  ⟨h.work, (Nat.le_add_right _ _).trans h.visits⟩

theorem Sound.less {b : Binary} {credit more : Nat} {s : Walk} (h : Sound b more s)
    (hle : credit ≤ more) : Sound b credit s :=
  ⟨h.work, h.allocated, (Nat.add_le_add_left hle _).trans h.visits, h.marks, h.memo⟩

theorem bigEndian_lt (bytes : Bytes) : bigEndian bytes < 2 ^ (8 * bytes.length) := by
  unfold bigEndian
  induction bytes using List.reverseRecOn with
  | nil => exact Nat.one_pos
  | append_singleton bytes b ih =>
    have hb := b.toNat_lt
    rw [List.foldl_append, List.length_append, List.length_singleton, Nat.mul_succ, Nat.pow_add]
    simp only [List.foldl_cons, List.foldl_nil]
    omega

section Reading

variable {b : Binary} {credit : Nat} {α : Type}

abbrev Walks (b : Binary) (credit : Nat) {α : Type} (m : Walking α) (Q : α → Prop) : Prop :=
  Checked.Keeps (Sound b credit) Halted m Q

theorem unsigned_walks (bytes : Bytes) :
    Walks b credit (unsigned bytes) fun n => n = bigEndian bytes ∧ n < 2 ^ 64 := by
  refine .bind (.require Sound.halted) fun _ hlength => .pure ⟨rfl, ?_⟩
  simp only [Bool.and_eq_true, decide_eq_true_eq] at hlength
  have hbound := bigEndian_lt bytes
  exact hbound.trans_le (Nat.pow_le_pow_right (by omega) (by omega))

theorem charge_walks (bytes : Nat) :
    Checked.Meets (Sound b credit) Halted (charge bytes) fun _ => Sound b (credit + bytes) := by
  have hsize : maxBytes * 8 < 2 ^ 63 := by decide
  refine Checked.Meets.bind (Q := fun work s => work = s.work ∧ Sound b credit s)
    (.get fun s hs => ⟨rfl, hs⟩) fun work => ?_
  refine Checked.Meets.bind (.sub fun s hs => hs.1 ▸ hs.2.work) fun left => ?_
  refine Checked.Meets.bind (.require fun s hs => hs.2.2.halted _) fun _ => ?_
  refine Checked.Meets.bind (.add fun s hs => ?_) fun after => .modify fun s hs => ?_
  · obtain ⟨hroom, hleft, hwork, hsound⟩ := hs
    have hroom := of_decide_eq_true hroom
    have hbound := hsound.work
    omega
  · obtain ⟨hafter, hroom, hleft, hwork, hsound⟩ := hs
    have hroom := of_decide_eq_true hroom
    have hbound := hsound.work
    have hvisits := hsound.visits
    refine ⟨?_, hsound.allocated, ?_, hsound.marks, hsound.memo⟩
    · dsimp only
      omega
    · dsimp only
      omega

theorem allocate_walks {bytes : Nat} (hbytes : bytes ≤ maxBytes * 3) :
    Walks b credit (allocate bytes) fun _ => True := by
  have hsize : maxBytes * 8 < 2 ^ 63 := by decide
  refine Checked.Meets.bind (Q := fun allocated s => allocated = s.allocated ∧ Sound b credit s)
    (.get fun s hs => ⟨rfl, hs⟩) fun allocated => ?_
  refine Checked.Meets.bind (.add fun s hs => ?_) fun after => ?_
  · have hbound := hs.2.allocated
    omega
  refine Checked.Meets.bind (Q := fun _ s => after = s.allocated ∧ s.work ≤ maxBytes * 8 ∧
    s.visits + credit ≤ s.work + 1 ∧ s.marks.length = b.offsets.length ∧
    ∀ index value, s.marks[index]? = some (.decoded value) → Longest b index value.height)
    (.modify fun s hs => ⟨rfl, hs.2.2.work, hs.2.2.visits, hs.2.2.marks, hs.2.2.memo⟩)
    fun _ => ?_
  refine (Checked.Meets.require fun s hs => ⟨hs.2.1, (Nat.le_add_right _ _).trans hs.2.2.1⟩).weaken
    fun _ s hs => ?_
  obtain ⟨hroom, hafter, hwork, hvisits, hmarks, hmemo⟩ := hs
  have hroom := of_decide_eq_true hroom
  exact ⟨trivial, hwork, by omega, hvisits, hmarks, hmemo⟩

variable (hb : Opened b)

include hb

theorem take_walks (position length : Nat) :
    Checked.Meets (Sound b credit) Halted (take b position length) fun r s =>
      (taken b position length = some r.1 ∧ r.1.length = length ∧ r.2 = position + length) ∧
        Sound b (credit + length) s := by
  have hsize : maxBytes < 2 ^ 63 := by decide
  have htable := hb.table.trans hb.size
  refine Checked.Meets.bind (.require fun s hs => hs.halted _) fun _ =>
    .of_fact (fun s hs => of_decide_eq_true hs.1) fun hposition => ?_
  refine Checked.Meets.bind (.sub fun s hs => hposition) fun left =>
    .of_fact (fun s hs => hs.1) fun hleft => ?_
  refine Checked.Meets.bind (.require fun s hs => hs.2.2.halted _) fun _ =>
    .of_fact (fun s hs => of_decide_eq_true hs.1) fun hlength => ?_
  have hwithin : position + length ≤ b.table := by omega
  refine Checked.Meets.bind ((charge_walks length).mono (fun s hs => hs.2.2.2) fun _ _ h => h)
    fun _ => ?_
  have htaken : taken b position length = some ((b.bytes.drop position).take length) :=
    if_pos hwithin
  refine Checked.Keeps.bind (.slice (hwithin.trans hb.table)) fun bytes hbytes =>
    .bind (.add (by omega)) fun next hnext => .pure ⟨?_, hbytes.2, hnext⟩
  rw [htaken, hbytes.1]

theorem take_spare (position length : Nat) :
    Walks b credit (take b position length) fun r =>
      taken b position length = some r.1 ∧ r.1.length = length ∧ r.2 = position + length :=
  (take_walks hb position length).weaken fun _ _ h => ⟨h.1, h.2.less (Nat.le_add_right _ _)⟩

theorem size_walks {small : Nat} (hsmall : small ≤ 15) (position : Nat) :
    Walks b credit (size b position small) fun r =>
      sizeAt b position small = some r ∧ r.1 ≤ maxBytes := by
  have hsize : 15 ≤ maxBytes := by decide
  unfold size sizeAt
  split_ifs with hshort
  · exact .pure ⟨rfl, by dsimp only; omega⟩
  · refine .bind (take_spare hb position 1) fun first hfirst =>
      .bind (.index (by omega)) fun tag htag => .bind (.require Sound.halted) fun _ _ =>
      .bind (take_spare hb _ _) fun second hsecond => .bind (unsigned_walks _) fun n hn =>
      .bind (.require Sound.halted) fun _ hfits => .pure ⟨?_, of_decide_eq_true hfits⟩
    obtain ⟨hfirst, -, hnext⟩ := hfirst
    rw [hnext] at hsecond
    simp only [hfirst, Option.bind_eq_bind, Option.bind_some, htag, hsecond.1, hn.1, hsecond.2.2]

theorem ignored_walks (position small : Nat) :
    Walks b credit (ignoredValue b position small) fun value => value.height = 1 :=
  .bind (.require Sound.halted) fun _ _ => .bind (take_spare hb _ _) fun _ _ =>
    .pure (by simp [Node.height])

theorem integer_walks (position small : Nat) :
    Walks b credit (integerValue b position small) fun value => value.height = 1 :=
  .bind (.require Sound.halted) fun _ _ => .bind (take_spare hb _ _) fun _ _ =>
    .bind (unsigned_walks _) fun _ _ => .pure (by simp [Node.height])

theorem uid_walks {small : Nat} (position : Nat) :
    Walks b credit (uidValue b position small) fun value => value.height = 1 :=
  .bind (take_spare hb _ _) fun _ _ => .bind (unsigned_walks _) fun _ _ =>
    .bind (.require Sound.halted) fun _ _ => .pure (by simp [Node.height])

omit hb in
theorem simple_walks (small : Nat) :
    Walks b credit (simpleValue small) fun value => value.height = 1 := by
  unfold simpleValue
  split_ifs
  · exact .pure (by simp [Node.height])
  · exact .pure (by simp [Node.height])
  · exact .pure (by simp [Node.height])
  · exact .fail Sound.halted

theorem text_walks {kind small : Nat} (hkind : kind = 4 ∨ kind = 5 ∨ kind = 6)
    (hsmall : small ≤ 15) (position : Nat) :
    Walks b credit (textValue b kind position small) fun value => value.height = 1 := by
  have hmax : maxBytes < 2 ^ 32 := by decide
  refine .bind (size_walks hb hsmall position) fun r hr => ?_
  obtain ⟨length, position⟩ := r
  have hlength : length ≤ maxBytes := hr.2
  refine .bind (.mul (by split_ifs <;> omega)) fun width hwidth =>
    .bind (take_spare hb _ _) fun bytes hbytes => ?_
  split_ifs with hdata hascii
  · exact .pure (by simp [Node.height])
  · exact .bind (.require Sound.halted) fun _ _ => .pure (by simp [Node.height])
  · have hwide : kind = 6 := by omega
    rw [if_pos hwide] at hwidth
    refine .bind (.mul (by omega)) fun expanded hexpanded =>
      .bind (allocate_walks (by omega)) fun _ _ =>
      .bind (Q := fun _ => True) (Checked.Meets.weaken (Checked.Meets.each fun i hi => ?_)
        fun _ _ h => ⟨trivial, h.2⟩) fun units _ => .bind (.orFail Sound.halted) fun _ _ =>
      .pure (by simp [Node.height])
    have hi := List.mem_range.mp hi
    have hunits := hbytes.2.1
    exact Checked.Meets.bind (.slice fun _ _ => by omega) fun _ => .pure fun _ h => h.2.2

end Reading

section Containers

variable {b : Binary} {object : Nat → Walking Node} (hb : Opened b)
  (hobject : ∀ index credit, index < b.offsets.length →
    Checked.Meets (Sound b (credit + 1)) Halted (object index) fun value s =>
      Longest b index value.height ∧ Sound b credit s)

include hobject

theorem reference_walks {refs : Bytes} {i : Nat} (hi : i * b.refWidth + b.refWidth ≤ refs.length)
    (credit : Nat) :
    Checked.Meets (Sound b (credit + 1)) Halted (referenceAt b object refs i) fun value s =>
      Longest b (refAt b refs i) value.height ∧ Sound b credit s := by
  refine Checked.Meets.bind (Checked.Keeps.slice hi) fun bytes =>
    .of_fact (fun _ hs => hs.1) fun hbytes => ?_
  refine Checked.Meets.bind ((unsigned_walks bytes).mono (fun _ hs => hs.2) fun _ _ h => h)
    fun index => .of_fact (fun _ hs => hs.1) fun hindex => ?_
  refine Checked.Meets.bind (.require fun s hs => hs.2.halted _) fun _ =>
    .of_fact (fun _ hs => of_decide_eq_true hs.1) fun hbound => ?_
  have hplace : refAt b refs i = index := by
    rw [refAt, ← hbytes.1, hindex.1]
  rw [hplace]
  exact (hobject index credit hbound).mono (fun _ hs => hs.2.2) fun _ _ h => h

omit hobject in
theorem places_le {length i width : Nat} (hi : i < length) : i * width + width ≤ length * width := by
  rw [← Nat.succ_mul]
  exact Nat.mul_le_mul_right width hi

theorem entries_walks {refs : Bytes} {length : Nat}
    (hrefs : refs.length = length * 2 * b.refWidth) (credit : Nat) {places : List Nat}
    (hplaces : ∀ i ∈ places, i < length) (done : List (Bytes × Node)) :
    Checked.Meets (Sound b (credit + places.length * 2)) Halted
      (entries b object refs length places done) fun all s =>
      (∃ added, all = done ++ added ∧ List.Forall₂ (fun i entry => Longest b (refAt b refs i) 1 ∧
        Longest b (refAt b refs (i + length)) entry.2.height) places added) ∧ Sound b credit s := by
  induction places generalizing done with
  | nil => exact fun s hs => ⟨⟨[], (List.append_nil done).symm, .nil⟩, hs⟩
  | cons i rest ih =>
    have hi := hplaces i List.mem_cons_self
    have hkey : i * b.refWidth + b.refWidth ≤ refs.length := by
      rw [hrefs]
      exact places_le (by omega)
    have hvalue : (i + length) * b.refWidth + b.refWidth ≤ refs.length := by
      rw [hrefs]
      exact places_le (by omega)
    have hcredit : credit + (i :: rest).length * 2 = credit + rest.length * 2 + 1 + 1 := by
      rw [List.length_cons]
      omega
    rw [hcredit]
    refine Checked.Meets.bind (reference_walks hobject hkey _) fun key =>
      .of_fact (fun _ hs => hs.1) fun hlongest => ?_
    refine Checked.Meets.bind (.orFail fun _ hs => hs.2.halted _) fun name =>
      .of_fact (fun _ hs => hs.1) fun hname => ?_
    refine Checked.Meets.bind ((charge_walks name.length).mono (fun _ hs => hs.2.2)
      fun _ _ h => h.less (Nat.le_add_right _ _)) fun _ => ?_
    refine Checked.Meets.bind (.require fun _ hs => hs.halted _) fun _ => ?_
    refine Checked.Meets.bind ((reference_walks hobject hvalue _).mono (fun _ hs => hs.2)
      fun _ _ h => h) fun value => .of_fact (fun _ hs => hs.1) fun hitem => ?_
    refine ((ih (fun j hj => hplaces j (List.mem_cons_of_mem i hj)) _).mono (fun _ hs => hs.2)
      fun all s hs => ?_)
    obtain ⟨⟨added, rfl, hadded⟩, hsound⟩ := hs
    refine ⟨⟨(name, value) :: added, ?_, .cons ⟨?_, hitem⟩ hadded⟩, hsound⟩
    · rw [List.append_assoc, List.singleton_append]
    · cases key with
      | string => simpa [Node.height] using hlongest
      | none | boolean | integer | data | uid | array | dict => cases hname

include hb

theorem container_walks {kind small : Nat} (hkind : kind = 10 ∨ kind = 13) (hsmall : small ≤ 15)
    {position : Nat} {bytes : Bytes} {tag : UInt8} (hbytes : taken b position 1 = some bytes)
    (htag : bytes[0]? = some tag) (hhigh : tag.toNat / 16 = kind) (hlow : tag.toNat % 16 = small)
    (credit : Nat) :
    Walks b credit (containerValue b object kind (position + 1) small) fun value =>
      ∃ refs, referencesAt b position = some refs ∧ Tops b refs value := by
  have hmax : maxObjects * entrySize ≤ maxBytes * 3 := by decide
  have hmaxBytes : maxBytes * 3 < 2 ^ 64 := by decide
  have hobjects : maxObjects = 8192 := rfl
  have hwidth := hb.width
  refine Checked.Keeps.bind (size_walks hb hsmall _) fun r hr => ?_
  obtain ⟨length, next⟩ := r
  refine Checked.Keeps.bind (.require Sound.halted) fun _ hlength => ?_
  have hlength := of_decide_eq_true hlength
  have hstored : length * entrySize ≤ maxObjects * entrySize :=
    Nat.mul_le_mul_right entrySize hlength
  refine Checked.Keeps.bind (.mul (by omega)) fun storage hstorage => ?_
  refine Checked.Keeps.bind (allocate_walks (by omega)) fun _ _ => ?_
  have hplaces : length * b.refWidth ≤ maxObjects * 8 := Nat.mul_le_mul hlength hwidth
  refine Checked.Keeps.bind (.mul (by omega)) fun single hsingle => ?_
  refine Checked.Keeps.bind (.mul (by split_ifs <;> omega)) fun width hneeded => ?_
  refine Checked.Meets.bind (take_walks hb next width) fun r =>
    .of_fact (fun _ hs => hs.1) fun hrefs => ?_
  obtain ⟨refs, after⟩ := r
  obtain ⟨htaken, hsize, -⟩ := hrefs
  have hreferences (places : Nat) (hplaces : places = length * (if kind = 13 then 2 else 1))
      (hwidth : width = places * b.refWidth) :
      referencesAt b position = some ((List.range places).map (refAt b refs)) := by
    unfold referencesAt
    rw [hwidth] at htaken
    simp only [Option.bind_eq_bind, hbytes, Option.bind_some, htag, hhigh, hlow, hr.1, ← hplaces,
      htaken]
    rw [if_pos (by simpa using hkind)]
  split_ifs with hdict
  · rw [if_pos hdict] at hneeded
    have hwide : width = length * 2 * b.refWidth := by
      rw [hneeded, hsingle, Nat.mul_assoc, Nat.mul_assoc, Nat.mul_comm b.refWidth]
    have hspend : credit + (List.range length).length * 2 ≤ credit + width := by
      rw [List.length_range, hwide]
      exact Nat.add_le_add_left (Nat.le_mul_of_pos_right _ hb.wide) _
    refine Checked.Meets.bind ((entries_walks hobject (hsize.trans hwide) credit
      (fun i hi => List.mem_range.mp hi) []).mono (fun _ hs => hs.2.less hspend)
      fun _ _ h => h) fun all => .pure fun s hs => ?_
    obtain ⟨⟨added, hall, hadded⟩, hsound⟩ := hs
    rw [hall, List.nil_append]
    exact ⟨⟨_, hreferences _ (by rw [if_pos hdict]) hwide, tops_dict hadded⟩, hsound⟩
  · rw [if_neg hdict, Nat.mul_one] at hneeded
    have hwide : width = length * b.refWidth := hneeded.trans hsingle
    have hspend : credit + (List.range length).length ≤ credit + width := by
      rw [List.length_range, hwide]
      exact Nat.add_le_add_left (Nat.le_mul_of_pos_right _ hb.wide) _
    refine Checked.Meets.bind ((Checked.Meets.each_spend (I := Sound b) (fun i hi n =>
      reference_walks hobject ?_ n) credit).mono (fun _ hs => hs.2.less hspend) fun _ _ h => h)
      fun items => .pure fun s hs => ?_
    · rw [hsize, hwide]
      exact places_le (List.mem_range.mp hi)
    · exact ⟨⟨_, hreferences _ (by rw [if_neg hdict, Nat.mul_one]) hwide, tops_array hs.1⟩, hs.2⟩

theorem value_walks (position credit : Nat) :
    Walks b credit (valueAt b object position) fun value =>
      ∃ refs, referencesAt b position = some refs ∧ Tops b refs value := by
  refine Checked.Keeps.bind (take_spare hb position 1) fun r hr => ?_
  obtain ⟨bytes, next⟩ := r
  obtain ⟨hbytes, hlength, hnext⟩ := hr
  refine Checked.Keeps.bind (.index (by dsimp only at *; omega)) fun tag htag => ?_
  have hleaf (hkind : ¬(tag.toNat / 16 = 10 ∨ tag.toNat / 16 = 13)) {value : Node}
      (hheight : value.height = 1) :
      ∃ refs, referencesAt b position = some refs ∧ Tops b refs value := by
    refine ⟨[], ?_, tops_leaf hheight⟩
    unfold referencesAt
    simp only [Option.bind_eq_bind, hbytes, Option.bind_some, htag]
    rw [if_neg (by simpa using hkind)]
  have hsmall : tag.toNat % 16 ≤ 15 := by omega
  have hnext : next = position + 1 := hnext
  dsimp only
  rw [hnext]
  split_ifs with h0 h1 h2 h4 h8 h10
  · exact Checked.Keeps.weaken (simple_walks _) fun _ => hleaf (by omega)
  · exact Checked.Keeps.weaken (integer_walks hb _ _) fun _ => hleaf (by omega)
  · simp only [Bool.or_eq_true, decide_eq_true_eq] at h2
    exact Checked.Keeps.weaken (ignored_walks hb _ _) fun _ => hleaf (by omega)
  · simp only [Bool.or_eq_true, decide_eq_true_eq, or_assoc] at h4
    exact Checked.Keeps.weaken (text_walks hb h4 hsmall _) fun _ => hleaf (by omega)
  · exact Checked.Keeps.weaken (uid_walks hb _) fun _ => hleaf (by omega)
  · simp only [Bool.or_eq_true, decide_eq_true_eq] at h10
    exact container_walks hb hobject h10 hsmall hbytes htag rfl rfl credit
  · exact .fail Sound.halted

/-- An object that was read before has the height that it had then. -/
theorem body_walks {index : Nat} (hindex : index < b.offsets.length) (credit : Nat) :
    Walks b credit (objectBody b object index) fun value => Longest b index value.height := by
  refine Checked.Meets.bind (Q := fun marks s => marks = s.marks ∧ Sound b credit s)
    (.get fun s hs => ⟨rfl, hs⟩) fun marks => ?_
  refine Checked.Meets.bind (.index fun s hs => ?_) fun mark => ?_
  · rw [hs.1, hs.2.marks]
    exact hindex
  cases mark with
  | visiting => exact .fail fun s hs => hs.2.2.halted _
  | decoded value =>
    refine .pure fun s hs => ⟨hs.2.2.memo index value ?_, hs.2.2⟩
    rw [← hs.2.1]
    exact hs.1
  | unseen =>
    have hremember (mark : Mark) (hmark : ∀ value, mark = .decoded value →
        Longest b index value.height) {s : Walk} (hs : Sound b credit s) :
        Sound b credit { s with marks := s.marks.set index mark } := by
      refine ⟨hs.work, hs.allocated, hs.visits, List.length_set.trans hs.marks, ?_⟩
      intro i value hvalue
      rw [List.getElem?_set] at hvalue
      split_ifs at hvalue with hsame hbound
      · rw [← hsame]
        exact hmark value (Option.some.inj hvalue)
      · exact hs.memo i value hvalue
    refine Checked.Meets.bind (Q := fun _ => Sound b credit) (.modify fun s hs =>
      hremember .visiting (fun _ habsurd => nomatch habsurd) hs.2.2) fun _ => ?_
    refine Checked.Keeps.bind (.index hindex) fun position hposition =>
      .bind (value_walks hb hobject position credit) fun value hvalue => ?_
    obtain ⟨refs, hrefs, htops⟩ := hvalue
    have hlongest : Longest b index value.height := by
      refine Tops.longest ?_
      unfold references
      rw [hposition, Option.bind_some, hrefs, Option.getD_some]
      exact htops
    refine Checked.Meets.bind (Q := fun _ => Sound b credit) (.modify fun s hs =>
      hremember (.decoded value) (fun other hsame => ?_) hs) fun _ =>
      .pure fun s hs => ⟨hlongest, hs⟩
    cases hsame
    exact hlongest

end Containers

theorem count_walks {b : Binary} (credit : Nat) :
    Checked.Meets (Sound b (credit + 1)) Halted count fun _ => Sound b credit :=
  .modify fun s hs => by
    have hvisits := hs.visits
    refine ⟨hs.work, hs.allocated, ?_, hs.marks, hs.memo⟩
    dsimp only
    omega

theorem objectAt_walks {b : Binary} (hb : Opened b) (levels : Nat) :
    ∀ index credit, index < b.offsets.length →
      Checked.Meets (Sound b (credit + 1)) Halted (objectAt b levels index) fun value s =>
        Longest b index value.height ∧ Sound b credit s := by
  induction levels with
  | zero =>
    exact fun _ credit _ => .bind (count_walks credit) fun _ => .fail fun s hs => hs.halted _
  | succ levels ih =>
    exact fun _ credit hindex => .bind (count_walks credit) fun _ => body_walks hb ih hindex credit

section Trailer

variable {bytes : Bytes} (hbytes : bytes.length ≤ maxBytes)

abbrev Opens {α : Type} (m : Walking α) (Q : α → Prop) : Prop :=
  Checked.Keeps (fun s => s = {}) Halted m Q

theorem start_halted (e : Failure) (s : Walk) (h : s = {}) : Halted e s := by
  rw [h]
  exact ⟨Nat.zero_le _, Nat.zero_le _⟩

theorem unsigned_opens (field : Bytes) :
    Opens (unsigned field) fun n => n = bigEndian field ∧ n < 2 ^ 64 := by
  refine .bind (.require start_halted) fun _ hlength => .pure ⟨rfl, ?_⟩
  simp only [Bool.and_eq_true, decide_eq_true_eq] at hlength
  have hbound := bigEndian_lt field
  exact hbound.trans_le (Nat.pow_le_pow_right (by omega) (by omega))

include hbytes

/-- The table of offsets is in the file whatever the trailer says. -/
theorem open_walks : Checked.Meets (fun s => s = {}) Halted (open' bytes) fun r s =>
    (Opened r.1 ∧ r.2 < r.1.offsets.length) ∧ Sound r.1 1 s := by
  have hmax : maxBytes < 2 ^ 32 := by decide
  have hobjects : maxObjects = 8192 := rfl
  refine Checked.Keeps.andThen (.require start_halted) fun _ hlong => ?_
  have hlong := of_decide_eq_true hlong
  refine Checked.Keeps.andThen (.sub (by omega)) fun trailing htrailing => ?_
  refine Checked.Keeps.andThen (.slice (by omega)) fun trailer htrailer => ?_
  have hlength : trailer.length = 32 := htrailer.2
  refine Checked.Keeps.andThen (.slice (by omega)) fun field _ => ?_
  refine Checked.Keeps.andThen (unsigned_opens field) fun count _ => ?_
  refine Checked.Keeps.andThen (.slice (by omega)) fun field _ => ?_
  refine Checked.Keeps.andThen (unsigned_opens field) fun root _ => ?_
  refine Checked.Keeps.andThen (.slice (by omega)) fun field _ => ?_
  refine Checked.Keeps.andThen (unsigned_opens field) fun table _ => ?_
  refine Checked.Keeps.andThen (.index (by omega)) fun width _ => ?_
  refine Checked.Keeps.andThen (.index (by omega)) fun refs _ => ?_
  refine Checked.Keeps.andThen (.require start_halted) fun _ hcount => ?_
  refine Checked.Keeps.andThen (.require start_halted) fun _ hfields => ?_
  simp only [Bool.and_eq_true, decide_eq_true_eq, UInt8.le_iff_toNat_le] at hcount hfields
  obtain ⟨⟨⟨⟨⟨⟨hroot, -⟩, hwide⟩, hnarrow⟩, hrefs⟩, -⟩, htable⟩ := hfields
  have hwide : width.toNat ≤ 8 := hwide
  have hproduct : count * width.toNat ≤ maxObjects * 8 := Nat.mul_le_mul hcount.2 hwide
  refine Checked.Keeps.andThen (.sub htable) fun room hroom => ?_
  refine Checked.Keeps.andThen (.mul (by omega)) fun needed hneeded => ?_
  refine Checked.Keeps.andThen (.require start_halted) fun _ hfits => ?_
  have hfits := of_decide_eq_true hfits
  refine Checked.Meets.bind (Checked.Meets.each fun i hi => ?_) fun offsets => ?_
  · have hplace : i * width.toNat + width.toNat ≤ count * width.toNat := by
      rw [← Nat.succ_mul]
      exact Nat.mul_le_mul_right _ (List.mem_range.mp hi)
    have hturn : Opens (do
        let field ← Checked.slice bytes (table + i * width.toNat) width.toNat
        let value ← unsigned field
        Checked.require (8 ≤ value && value < table) .malformed
        return value) fun _ => True :=
      .bind (.slice (by omega)) fun field _ => .bind (unsigned_opens field) fun value _ =>
        .bind (.require start_halted) fun _ _ => .pure trivial
    exact Checked.Meets.weaken hturn fun _ _ hs => hs.2
  · refine .of_fact (fun s hs => hs.1) fun hoffsets => ?_
    rw [List.length_range] at hoffsets
    have hopened : Opened ⟨bytes, offsets, refs.toNat, table⟩ :=
      { size := hbytes
        table := by dsimp only; omega
        objects := by dsimp only; omega
        width := hrefs
        wide := Nat.one_le_iff_ne_zero.mpr fun hzero => hnarrow (UInt8.toNat_inj.mp hzero) }
    refine Checked.Meets.bind (Q := fun _ => Sound ⟨bytes, offsets, refs.toNat, table⟩ 1)
      (.modify fun s hs => ?_) fun _ =>
      .pure fun s hs => ⟨⟨hopened, by dsimp only; omega⟩, hs⟩
    rw [hs.2]
    refine ⟨Nat.zero_le _, Nat.zero_le _, Nat.le_refl _, ?_, ?_⟩
    · rw [List.length_replicate, hoffsets]
    · intro index value hvalue
      rw [List.getElem?_replicate] at hvalue
      split_ifs at hvalue
      cases hvalue

theorem parseBinary_walks : Checked.Meets (fun s => s = {}) Halted (parseBinary bytes)
    fun _ s => s.work ≤ maxBytes * 8 ∧ s.visits ≤ s.work + 1 := by
  refine Checked.Meets.bind (open_walks hbytes) fun r =>
    .of_fact (fun _ hs => hs.1) fun hopened => ?_
  exact (objectAt_walks hopened.1 maxDepth r.2 0 hopened.2).mono (fun _ hs => hs.2)
    fun _ _ hs => ⟨hs.2.work, hs.2.visits⟩

end Trailer

end Zimbr.Relay.Plist
