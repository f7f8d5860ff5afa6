import Zimbr.Relay.Typedstream

set_option autoImplicit false

/-!
# The reader of attributed bodies is total

Every read is in bounds, every table and the visits are bounded, and the nesting
is bounded by the levels that a call starts with.
-/
namespace Zimbr.Relay.BodyParts
open Library

/-- What the reader remembers besides its position. -/
structure Tables where
  strings : List Bytes
  objects : List Object
  visits : Nat

def Reader.tables (s : Reader) : Tables := ⟨s.strings, s.objects, s.visits⟩

/-- The tables are small, hold at least so many objects, and no visit was refused. -/
structure Fits (held : Nat) (t : Tables) : Prop where
  strings : t.strings.length ≤ maxObjects
  objects : t.objects.length ≤ maxObjects
  held : held ≤ t.objects.length
  visits : t.visits ≤ maxObjects

theorem little_lt (bytes : Bytes) : little bytes < 2 ^ (8 * bytes.length) := by
  induction bytes with
  | nil => exact Nat.one_pos
  | cons b rest ih =>
    have hb := b.toNat_lt
    have hstep : little (b :: rest) = b.toNat + 256 * little rest := rfl
    rw [hstep, List.length_cons, Nat.mul_succ, Nat.pow_add]
    omega

theorem number_bounds {signed : Bool} {bits n : Nat} (hn : n < 2 ^ bits) (hbits : bits ≤ 32) :
    -(2 ^ 31) ≤ number signed bits n ∧ number signed bits n < 2 ^ 32 := by
  have hwidth : 2 ^ bits ≤ 2 ^ 32 := Nat.pow_le_pow_right (by omega) hbits
  unfold number
  split_ifs with hnegative
  · simp only [Bool.and_eq_true, decide_eq_true_eq] at hnegative
    have hhalf : 2 ^ bits ≤ 2 ^ (bits - 1) * 2 := by
      rw [← Nat.pow_succ]
      exact Nat.pow_le_pow_right (by omega) (by omega)
    have hint : (2 : Int) ^ bits = ((2 ^ bits : Nat) : Int) := by
      push_cast
      rfl
    rw [hint]
    generalize 2 ^ bits = whole at *
    generalize 2 ^ (bits - 1) = half at *
    omega
  · omega

theorem Fits.small {held : Nat} {t : Tables} (h : Fits held t) : Fits 0 t :=
  ⟨h.strings, h.objects, Nat.zero_le _, h.visits⟩

structure Ended (bytes : Bytes) (e : Failure) (s : Reader) : Prop where
  pos : s.pos ≤ bytes.length
  strings : s.strings.length ≤ maxObjects
  objects : s.objects.length ≤ maxObjects
  visits : s.visits ≤ maxObjects ∨ e = .oversized ∧ s.visits = maxObjects + 1

section Scanning

variable (bytes : Bytes)

structure At (F : Tables → Prop) (s : Reader) : Prop where
  pos : s.pos ≤ bytes.length
  tables : F s.tables

/-- The computation does not trap, keeps `F`, and returns values in `Q`. -/
abbrev Scans {α : Type} (F : Tables → Prop) (m : Reading α) (Q : α → Prop) : Prop :=
  Checked.Keeps (At bytes F) (Ended bytes) m Q

variable {bytes} {F : Tables → Prop} {α β : Type} {Q : α → Prop} {R : β → Prop}

theorem At.ended {e : Failure} {s : Reader} (h : At bytes F s) (hsmall : ∀ t, F t → Fits 0 t) :
    Ended bytes e s :=
  ⟨h.pos, (hsmall _ h.tables).strings, (hsmall _ h.tables).objects,
    Or.inl (hsmall _ h.tables).visits⟩

theorem fits_ended {held : Nat} (e : Failure) (s : Reader) (h : At bytes (Fits held) s) :
    Ended bytes e s := h.ended fun _ => Fits.small

variable (hsmall : ∀ t, F t → Fits 0 t)

include hsmall

theorem ended (e : Failure) (s : Reader) (h : At bytes F s) : Ended bytes e s := h.ended hsmall

variable (hbytes : bytes.length ≤ MessagesDb.maxDecode)

include hbytes

theorem take_scans (length : Nat) :
    Scans bytes F (take bytes length) fun taken => taken.length = length := by
  have hsize : MessagesDb.maxDecode < 2 ^ 63 := by decide
  refine Checked.Meets.bind (Q := fun pos s => pos = s.pos ∧ At bytes F s)
    (.get fun s hs => ⟨rfl, hs⟩) fun pos => ?_
  refine Checked.Meets.bind (.sub fun s hs => by rw [hs.1]; exact hs.2.pos) fun left => ?_
  refine Checked.Meets.bind (.require fun s hs => hs.2.2.ended hsmall) fun _ => ?_
  refine Checked.Meets.bind (.slice fun s hs => ?_) fun result => ?_
  · obtain ⟨hlength, hleft, hpos, hat⟩ := hs
    have hlength := of_decide_eq_true hlength
    have hbound := hat.pos
    omega
  refine Checked.Meets.bind (.add fun s hs => ?_) fun next => ?_
  · obtain ⟨-, -, hlength, hleft, hpos, hat⟩ := hs
    have hlength := of_decide_eq_true hlength
    have hbound := hat.pos
    omega
  refine Checked.Meets.bind (Q := fun _ s => result.length = length ∧ At bytes F s)
    (.modify fun s hs => ?_) fun _ => .pure fun _ hs => hs
  obtain ⟨hnext, -, hresult, hlength, hleft, hpos, hat⟩ := hs
  have hlength := of_decide_eq_true hlength
  have hbound := hat.pos
  refine ⟨hresult, ?_, hat.tables⟩
  dsimp only
  omega

theorem readByte_scans : Scans bytes F (readByte bytes) fun _ => True :=
  .bind (take_scans hsmall hbytes 1) fun taken htaken =>
    (Checked.Meets.index fun _ _ => by omega).weaken fun _ _ h => ⟨trivial, h.2⟩

theorem integer_scans (signed : Bool) :
    Scans bytes F (integer bytes signed) fun n => -(2 ^ 31) ≤ n ∧ n < 2 ^ 32 := by
  refine .bind (readByte_scans hsmall hbytes) fun lead _ => ?_
  split_ifs
  · refine .bind (take_scans hsmall hbytes 2) fun payload hpayload => .pure ?_
    have hlt := little_lt payload
    rw [hpayload] at hlt
    exact number_bounds hlt (by omega)
  · refine .bind (take_scans hsmall hbytes 4) fun payload hpayload => .pure ?_
    have hlt := little_lt payload
    rw [hpayload] at hlt
    exact number_bounds hlt (by omega)
  · exact .fail (ended hsmall)
  · exact .pure (number_bounds lead.toNat_lt (by omega))

theorem readLength_scans :
    Scans bytes F (readLength bytes) fun n => n ≤ MessagesDb.maxDecode :=
  .bind (integer_scans hsmall hbytes false) fun n _ =>
    .bind (.require (ended hsmall)) fun _ hn => .pure (by
      simp only [Bool.and_eq_true, decide_eq_true_eq] at hn
      omega)

theorem ref_scans (count : Nat) : Scans bytes F (ref bytes count) fun n => n < count := by
  refine .bind (integer_scans hsmall hbytes true) fun n hn =>
    .bind (.require (ended hsmall)) fun _ hlow => .bind (Q := fun m => m = n + 110)
      (Checked.Meets.int64 fun _ _ => by omega) fun m hm =>
    .bind (.require (ended hsmall)) fun _ hhigh => .pure ?_
  have hlow := of_decide_eq_true hlow
  have hhigh := of_decide_eq_true hhigh
  omega

omit hbytes in
/-- More bytes follow: the next of them can be looked at and passed over. -/
theorem expectMore_scans {e : Failure} {tail : Reading α}
    (h : Checked.Meets (fun s => s.pos < bytes.length ∧ At bytes F s) (Ended bytes) tail
      fun a s => Q a ∧ At bytes F s) : Scans bytes F (do expectMore bytes e; tail) Q := by
  refine Checked.Meets.bind (Q := fun _ s => s.pos < bytes.length ∧ At bytes F s) ?_ fun _ => h
  refine Checked.Meets.bind (Q := fun pos s => pos = s.pos ∧ At bytes F s)
    (.get fun s hs => ⟨rfl, hs⟩) fun pos => ?_
  refine (Checked.Meets.require fun s hs => hs.2.ended hsmall).weaken fun _ s hs => ?_
  rw [← hs.2.1]
  exact ⟨of_decide_eq_true hs.1, hs.2.2⟩

end Scanning

section Peeking

variable {bytes : Bytes} {F : Tables → Prop} {α : Type} {Q : α → Prop}

theorem peek_scans {E : Failure → Reader → Prop} {k : UInt8 → Reading α}
    {R : α → Reader → Prop} (h : ∀ tag, Checked.Meets
      (fun s => s.pos < bytes.length ∧ At bytes F s) E (k tag) R) :
    Checked.Meets (fun s => s.pos < bytes.length ∧ At bytes F s) E (peek bytes >>= k) R := by
  refine Checked.Meets.bind (Q := fun _ s => s.pos < bytes.length ∧ At bytes F s) ?_ h
  refine Checked.Meets.bind (Q := fun pos s => pos = s.pos ∧ s.pos < bytes.length ∧ At bytes F s)
    (.get fun s hs => ⟨rfl, hs⟩) fun pos => ?_
  exact (Checked.Meets.index fun s hs => hs.1 ▸ hs.2.1).weaken fun _ _ h => h.2.2

theorem advance_scans (hbytes : bytes.length ≤ MessagesDb.maxDecode)
    {E : Failure → Reader → Prop} :
    Checked.Meets (fun s => s.pos < bytes.length ∧ At bytes F s) E advance
      fun _ s => At bytes F s := by
  have hsize : MessagesDb.maxDecode < 2 ^ 63 := by decide
  refine Checked.Meets.bind (Q := fun pos s => pos = s.pos ∧ s.pos < bytes.length ∧ At bytes F s)
    (.get fun s hs => ⟨rfl, hs⟩) fun pos => ?_
  refine Checked.Meets.bind (.add fun s hs => by omega) fun next => ?_
  refine Checked.Meets.modify fun s hs => ⟨?_, hs.2.2.2.tables⟩
  dsimp only
  omega

end Peeking

section Tables

variable {bytes : Bytes} {held : Nat} (hbytes : bytes.length ≤ MessagesDb.maxDecode)

include hbytes

theorem lookup_scans {F : Tables → Prop} (hsmall : ∀ t, F t → Fits 0 t) {β : Type}
    {f : Reader → List β} (g : Tables → List β) (hf : ∀ s, f s = g s.tables) :
    Scans bytes F (do
      let count ← Checked.get fun s => (f s).length
      let n ← ref bytes count
      let items ← Checked.get f
      Checked.index items n) fun _ => True := by
  refine Checked.Meets.bind (Q := fun count => At bytes fun t => F t ∧ (g t).length = count)
    (.get fun s hs => ⟨hs.pos, hs.tables, by rw [hf]⟩) fun count => ?_
  refine Checked.Meets.bind (ref_scans (fun t ht => hsmall t ht.1) hbytes count) fun n => ?_
  refine Checked.Meets.bind (Q := fun items s => n < items.length ∧ At bytes F s)
    (.get fun s hs => ⟨?_, hs.2.pos, hs.2.tables.1⟩) fun items => ?_
  · rw [hf, hs.2.tables.2]
    exact hs.1
  · exact (Checked.Meets.index fun s hs => hs.1).weaken fun _ _ h => ⟨trivial, h.2.2⟩

theorem shared_reads : Scans bytes (Fits held) (shared bytes) fun _ => True := by
  refine expectMore_scans (fun _ => Fits.small) (peek_scans fun tag => ?_)
  split_ifs
  · exact (lookup_scans hbytes (fun _ => Fits.small) (f := Reader.strings) Tables.strings
      fun _ => rfl).mono (fun _ h => h.2) fun _ _ h => h
  · refine Checked.Meets.bind (advance_scans hbytes) fun _ => ?_
    refine Checked.Keeps.bind (readLength_scans (fun _ => Fits.small) hbytes) fun length _ =>
      Checked.Keeps.bind (take_scans (fun _ => Fits.small) hbytes length) fun text _ => ?_
    refine Checked.Meets.bind (Q := fun count s => count = s.strings.length ∧
      At bytes (Fits held) s) (.get fun s hs => ⟨rfl, hs⟩) fun count => ?_
    refine Checked.Meets.bind (.require fun s hs => hs.2.ended fun _ => Fits.small) fun _ => ?_
    refine Checked.Meets.bind (.modify fun s hs => ?_) fun _ => .pure fun _ hs => hs
    obtain ⟨hroom, hcount, hpos, htables⟩ := hs
    refine ⟨trivial, hpos, ?_, htables.objects, htables.held, htables.visits⟩
    have hroom := of_decide_eq_true hroom
    simp only [Reader.tables, List.length_append, List.length_singleton]
    omega

omit hbytes in
theorem slot_reads {α : Type} {Q : α → Prop} {k : Nat → Reading α}
    (h : ∀ index, Scans bytes (Fits (max held (index + 1))) (k index) Q) :
    Scans bytes (Fits held) (slot >>= k) Q := by
  refine Checked.Meets.bind (Q := fun index s => At bytes (Fits (max held (index + 1))) s) ?_
    fun index => Checked.Meets.weaken (h index) fun _ s hs => ⟨hs.1, hs.2.pos, hs.2.tables.strings,
      hs.2.tables.objects, Nat.le_trans (Nat.le_max_left _ _) hs.2.tables.held,
      hs.2.tables.visits⟩
  refine Checked.Meets.bind (Q := fun count s => count = s.objects.length ∧
    At bytes (Fits held) s) (.get fun s hs => ⟨rfl, hs⟩) fun count => ?_
  refine Checked.Meets.bind (.require fun s hs => hs.2.ended fun _ => Fits.small) fun _ => ?_
  refine Checked.Meets.bind (Q := fun _ => At bytes (Fits (max held (count + 1))))
    (.modify fun s hs => ?_) fun _ => .pure fun _ hs => hs
  obtain ⟨hroom, hcount, hpos, htables⟩ := hs
  have hroom := of_decide_eq_true hroom
  have hheld : held ≤ s.objects.length := htables.held
  refine ⟨hpos, htables.strings, ?_, ?_, htables.visits⟩
  · simp only [Reader.tables, List.length_append, List.length_singleton]
    omega
  · simp only [Reader.tables, List.length_append, List.length_singleton]
    omega

omit hbytes in
theorem remember_reads {index : Nat} (h : index < held) (value : Object) :
    Scans bytes (Fits held) (remember index value) fun _ => True := by
  refine Checked.Meets.bind (Q := fun objects s => held ≤ objects.length ∧ At bytes (Fits held) s)
    (.get fun s hs => ⟨hs.tables.held, hs⟩) fun objects => ?_
  refine Checked.Meets.bind (.index fun s hs => by omega) fun _ => ?_
  refine Checked.Meets.modify fun s hs => ⟨trivial, hs.2.2.pos, hs.2.2.tables.strings, ?_, ?_,
    hs.2.2.tables.visits⟩
  · simpa only [Reader.tables, List.length_set] using hs.2.2.tables.objects
  · simpa only [Reader.tables, List.length_set] using hs.2.2.tables.held

theorem existing_reads : Scans bytes (Fits held) (existing bytes) fun _ => True :=
  lookup_scans hbytes (fun _ => Fits.small) (f := Reader.objects) Tables.objects fun _ => rfl

theorem expectType_reads (expected : Bytes) :
    Scans bytes (Fits held) (expectType bytes expected) fun _ => True :=
  .bind (shared_reads hbytes) fun _ _ =>
    (Checked.Keeps.require fits_ended).weaken fun _ _ => trivial

theorem classBody_reads {ancestor : Reading (Option Bytes)}
    (hancestor : ∀ held, Scans bytes (Fits held) ancestor fun _ => True) :
    Scans bytes (Fits held) (classBody bytes ancestor) fun _ => True := by
  refine expectMore_scans (fun _ => Fits.small) (peek_scans fun tag => ?_)
  split_ifs
  · exact Checked.Meets.bind (advance_scans hbytes) fun _ => .pure fun _ hs => ⟨trivial, hs⟩
  · refine Checked.Meets.bind ((existing_reads hbytes).mono (fun _ h => h.2) fun _ _ h => h)
      fun value => ?_
    split
    · exact .pure fun _ hs => hs
    · exact .fail fun _ hs => hs.2.ended fun _ => Fits.small
  · refine Checked.Meets.bind (advance_scans hbytes) fun _ => slot_reads fun index => ?_
    refine .bind (shared_reads hbytes) fun name _ =>
      .bind (integer_scans (fun _ => Fits.small) hbytes true) fun version _ =>
      .bind (.require fits_ended) fun _ _ => .bind (hancestor _) fun _ _ =>
      .bind (remember_reads ?_ _) fun _ _ => .pure trivial
    omega

/-- Classes are read in bounds, however deep their ancestry is. -/
theorem classAt_reads (levels : Nat) :
    Scans bytes (Fits held) (classAt bytes levels) fun _ => True := by
  induction levels generalizing held with
  | zero => exact .fail fits_ended
  | succ levels ih => exact classBody_reads hbytes fun _ => ih

theorem cstring_reads : Scans bytes (Fits held) (cstring bytes) fun _ => True := by
  refine expectMore_scans (fun _ => Fits.small) (peek_scans fun tag => ?_)
  split_ifs
  · refine Checked.Meets.bind ((existing_reads hbytes).mono (fun _ h => h.2) fun _ _ h => h)
      fun value => ?_
    split
    · exact .pure fun _ hs => hs
    · exact .fail fun _ hs => hs.2.ended fun _ => Fits.small
  · refine Checked.Meets.bind (advance_scans hbytes) fun _ => slot_reads fun index => ?_
    refine .bind (shared_reads hbytes) fun text _ =>
      .bind (remember_reads ?_ _) fun _ _ => .pure trivial
    omega

end Tables

section Objects

variable {bytes : Bytes} {held : Nat} (hbytes : bytes.length ≤ MessagesDb.maxDecode)

include hbytes

theorem stringObject_reads : Scans bytes (Fits held) (stringObject bytes) fun _ => True := by
  refine .bind (expectType_reads hbytes _) fun _ _ =>
    .bind (readLength_scans (fun _ => Fits.small) hbytes) fun length _ =>
    .bind (take_scans (fun _ => Fits.small) hbytes length) fun raw _ => ?_
  split_ifs with hmark
  · have hlength : 2 ≤ raw.length := (List.isPrefixOf_iff_prefix.mp hmark).length_le
    refine .bind (.require fits_ended) fun _ _ =>
      .bind (Q := fun rest => rest = raw.length - 2) (Checked.Meets.sub fun _ _ => hlength)
        fun rest hrest =>
      .bind (Q := fun _ => True) ((Checked.Meets.each fun i hi => ?_).weaken fun _ _ h =>
        ⟨trivial, h.2⟩) fun units _ => .bind (.orFail fits_ended) fun _ _ => .pure trivial
    have hi := List.mem_range.mp hi
    exact Checked.Meets.bind (.slice fun _ _ => by omega) fun _ => .pure fun _ h => h.2.2
  · exact .bind (.require fits_ended) fun _ _ => .pure trivial

theorem numberObject_reads : Scans bytes (Fits held) (numberObject bytes) fun _ => True := by
  refine .bind (expectType_reads hbytes _) fun _ _ => .bind (cstring_reads hbytes)
    fun encoding _ => .bind (.require fits_ended) fun _ hlength =>
    .bind (Q := fun _ => True) ((Checked.Meets.index fun _ _ => ?_).weaken fun _ _ h =>
      ⟨trivial, h.2⟩) fun kind _ => .bind (.require fits_ended) fun _ _ =>
    .bind (expectType_reads hbytes _) fun _ _ =>
    .bind (integer_scans (fun _ => Fits.small) hbytes _) fun _ _ => .pure trivial
  have hlength := of_decide_eq_true hlength
  omega

variable {grouped : Reading Object}
  (hgrouped : ∀ held, Scans bytes (Fits held) grouped fun _ => True)

include hgrouped

omit hbytes in
theorem entries_reads (left : Nat) (done : List (Bytes × Object)) :
    Scans bytes (Fits held) (entries grouped left done) fun _ => True := by
  induction left generalizing done with
  | zero => exact .pure trivial
  | succ left ih =>
    refine .bind (hgrouped held) fun key _ => ?_
    split
    · exact .bind (.require fits_ended) fun _ _ => .bind (hgrouped held) fun _ _ => ih _
    · exact .fail fits_ended

theorem dictObject_reads : Scans bytes (Fits held) (dictObject bytes grouped) fun _ => True :=
  .bind (expectType_reads hbytes _) fun _ _ =>
    .bind (readLength_scans (fun _ => Fits.small) hbytes) fun count _ =>
    .bind (.require fits_ended) fun _ _ =>
    .bind (entries_reads hgrouped count []) fun _ _ => .pure trivial

omit hbytes hgrouped in
theorem more_reads : Scans bytes (Fits held) (more bytes) fun _ => True := by
  refine Checked.Meets.bind (Q := fun pos s => pos = s.pos ∧ At bytes (Fits held) s)
    (.get fun s hs => ⟨rfl, hs⟩) fun pos => ?_
  split_ifs with hpos
  · exact Checked.Meets.bind (.index fun s hs => by omega) fun _ =>
      .pure fun _ hs => ⟨trivial, hs.2.2⟩
  · exact .pure fun _ hs => ⟨trivial, hs.2⟩

omit hbytes in
theorem attributes_reads (formats : List (Int × List (Bytes × Object))) (format : Int) :
    Scans bytes (Fits held) (attributes grouped formats format) fun _ => True := by
  unfold attributes
  split
  · exact .pure trivial
  · refine .bind (hgrouped held) fun dict _ => ?_
    split
    · exact .pure trivial
    · exact .fail fits_ended

theorem rangesFrom_reads (room : Nat) (formats : List (Int × List (Bytes × Object)))
    (done : List (Range Object)) :
    Scans bytes (Fits held) (rangesFrom bytes grouped room formats done) fun _ => True := by
  induction room generalizing formats done with
  | zero =>
    exact .bind more_reads fun _ _ => .bind (.require fits_ended) fun _ _ => .pure trivial
  | succ room ih =>
    refine .bind more_reads fun more _ => ?_
    split_ifs
    · exact .bind (expectType_reads hbytes _) fun _ _ =>
        .bind (integer_scans (fun _ => Fits.small) hbytes true) fun format _ =>
        .bind (readLength_scans (fun _ => Fits.small) hbytes) fun length _ =>
        .bind (.require fits_ended) fun _ _ =>
        .bind (attributes_reads hgrouped formats format) fun _ _ => ih _ _
    · exact .pure trivial

theorem attributedObject_reads :
    Scans bytes (Fits held) (attributedObject bytes grouped) fun _ => True := by
  refine .bind (hgrouped held) fun body _ => ?_
  split
  · exact .bind (.require fits_ended) fun _ _ =>
      .bind (rangesFrom_reads hbytes hgrouped maxObjects [] []) fun _ _ => .pure trivial
  · exact .fail fits_ended

theorem valueOf_reads (name : Bytes) :
    Scans bytes (Fits held) (valueOf bytes grouped name) fun _ => True := by
  unfold valueOf
  split_ifs
  · exact stringObject_reads hbytes
  · exact numberObject_reads hbytes
  · exact dictObject_reads hbytes hgrouped
  · exact attributedObject_reads hbytes hgrouped
  · exact .fail fits_ended

theorem objectBody_reads {type : Reading (Option Bytes)}
    (htype : ∀ held, Scans bytes (Fits held) type fun _ => True) :
    Scans bytes (Fits held) (objectBody bytes type grouped) fun _ => True := by
  refine expectMore_scans (fun _ => Fits.small) (peek_scans fun tag => ?_)
  split_ifs
  · refine Checked.Meets.bind ((existing_reads hbytes).mono (fun _ h => h.2) fun _ _ h => h)
      fun value => ?_
    split
    · exact .fail fun _ hs => hs.2.ended fun _ => Fits.small
    · exact .fail fun _ hs => hs.2.ended fun _ => Fits.small
    · exact .pure fun _ hs => hs
  · refine Checked.Meets.bind (advance_scans hbytes) fun _ => slot_reads fun index => ?_
    refine .bind (htype _) fun name _ => .bind (.orFail fits_ended) fun name _ =>
      .bind (valueOf_reads hbytes hgrouped name) fun result _ =>
      .bind (readByte_scans (fun _ => Fits.small) hbytes) fun last _ =>
      .bind (.require fits_ended) fun _ _ =>
      .bind (remember_reads ?_ _) fun _ _ => .pure trivial
    omega

omit hbytes hgrouped in
/-- A visit is refused past the bound, and where the nesting is too deep. -/
theorem visit_reads (deep : Bool) :
    Scans bytes (Fits held) (visit deep) fun _ => deep = false := by
  apply Checked.Meets.count
  case hmost => decide
  case hle => exact fun s hs => hs.tables.visits
  case hlast =>
    intro s hs _
    refine ⟨hs.pos, hs.tables.strings, hs.tables.objects, ?_⟩
    rcases hs.tables.visits.lt_or_eq with hfree | hfull
    · exact Or.inl hfree
    · exact Or.inr ⟨rfl, congrArg Nat.succ hfull⟩
  case hnext => exact fun s hs hfree => ⟨hs.pos, hs.tables.strings, hs.tables.objects,
    hs.tables.held, hfree⟩

end Objects

section Total

variable {bytes : Bytes} (hbytes : bytes.length ≤ MessagesDb.maxDecode)

include hbytes

theorem objectAt_reads : ∀ (levels held : Nat),
    Scans bytes (Fits held) (objectAt bytes levels) fun _ => True
  | 0, _ => .bind (visit_reads true) fun _ h => nomatch h
  | 1, _ => .bind (visit_reads false) fun _ _ =>
      objectBody_reads hbytes (fun _ => .bind (expectType_reads hbytes _) fun _ _ =>
        .bind (visit_reads true) fun _ h => nomatch h) fun _ => classAt_reads hbytes 0
  | levels + 2, _ => .bind (visit_reads false) fun _ _ =>
      objectBody_reads hbytes (fun held => .bind (expectType_reads hbytes _) fun _ _ =>
        objectAt_reads levels held) fun _ => classAt_reads hbytes (levels + 1)

theorem groupedObject_reads (depth held : Nat) :
    Scans bytes (Fits held) (groupedObject bytes depth) fun _ => True :=
  .bind (expectType_reads hbytes _) fun _ _ => objectAt_reads hbytes _ held

end Total

section Nesting

variable (bytes : Bytes)

theorem visit_refuses (s : Reader) : ∃ e s', visit true s = (.error e, s') := by
  by_cases hsum : s.visits + 1 < 2 ^ 64
  · have hadd : Checked.add (ε := Failure) (σ := Reader) s.visits 1 =
        Checked.pure (s.visits + 1) := if_pos hsum
    refine ⟨.error .oversized, { s with visits := s.visits + 1 }, ?_⟩
    change Checked.bind (Checked.add s.visits 1) _ s = _
    rw [hadd]
    rfl
  · have hadd : Checked.add (ε := Failure) (σ := Reader) s.visits 1 = Checked.trap := if_neg hsum
    refine ⟨.trap, s, ?_⟩
    change Checked.bind (Checked.add s.visits 1) _ s = _
    rw [hadd]
    rfl

theorem visit_deep (k : Unit → Reading Object) :
    visit true >>= k = visit true >>= fun _ => Checked.fail .oversized := by
  funext s
  change Checked.bind (visit true) k s =
    Checked.bind (visit true) (fun _ => Checked.fail .oversized) s
  obtain ⟨e, s', hrun⟩ := visit_refuses s
  unfold Checked.bind
  rw [hrun]

/-- The recursion of `object` in terms of its depth. -/
theorem object_depth (depth : Nat) :
    object bytes depth = visit (maxDepth ≤ depth) >>= fun _ =>
      objectBody bytes (class' bytes (depth + 1)) (groupedObject bytes (depth + 1)) := by
  unfold object
  by_cases hdeep : maxDepth ≤ depth
  · rw [decide_eq_true hdeep, visit_deep, Nat.sub_eq_zero_of_le hdeep]
    rfl
  · rw [decide_eq_false hdeep]
    unfold groupedObject object class'
    obtain ⟨levels, hlevels⟩ : ∃ levels, maxDepth - depth = levels + 1 :=
      ⟨maxDepth - depth - 1, by omega⟩
    have hclass : maxDepth - (depth + 1) = levels := by omega
    rw [hlevels, hclass]
    cases levels with
    | zero =>
      have hobject : maxDepth - (depth + 1 + 1) = 0 := by omega
      rw [hobject]
      rfl
    | succ levels =>
      have hobject : maxDepth - (depth + 1 + 1) = levels := by omega
      rw [hobject]
      rfl

/-- The recursion of `class` in terms of its depth. -/
theorem class_depth (depth : Nat) :
    class' bytes depth = Checked.require (depth < maxDepth) .oversized >>= fun _ =>
      classBody bytes (class' bytes (depth + 1)) := by
  unfold class'
  by_cases hdeep : depth < maxDepth
  · rw [decide_eq_true hdeep]
    obtain ⟨levels, hlevels⟩ : ∃ levels, maxDepth - depth = levels + 1 :=
      ⟨maxDepth - depth - 1, by omega⟩
    have hclass : maxDepth - (depth + 1) = levels := by omega
    rw [hlevels, hclass]
    rfl
  · rw [decide_eq_false hdeep, Nat.sub_eq_zero_of_le (by omega)]
    rfl

end Nesting

/-- What `read` leaves behind when it returns, and when it fails. -/
theorem read_bounds (bytes : Bytes) :
    match read bytes with
    | (.ok _, s) => At bytes (Fits 0) s
    | (.error (.error e), s) => Ended bytes e s
    | (.error .trap, _) => False := by
  have hnothing (e : Failure) : Ended bytes e {} :=
    ⟨Nat.zero_le _, Nat.zero_le _, Nat.zero_le _, Or.inl (Nat.zero_le _)⟩
  unfold read
  split_ifs with hsize hheader
  · exact hnothing _
  · exact hnothing _
  · have hheader : header.isPrefixOf bytes = true := by simpa using hheader
    have hstart : At bytes (Fits 0) { pos := header.length } :=
      ⟨(List.isPrefixOf_iff_prefix.mp hheader).length_le, Nat.zero_le _, Nat.zero_le _,
        Nat.zero_le _, Nat.zero_le _⟩
    have hrun := groupedObject_reads (Nat.le_of_not_lt hsize) 0 0 _ hstart
    rcases hresult : groupedObject bytes 0 { pos := header.length } with ⟨(e | _) | object, s⟩
    · rw [hresult] at hrun
      exact hrun
    · rw [hresult] at hrun
      exact hrun
    · rw [hresult] at hrun
      exact hrun.2

/-- The reader stops on every byte string, without a trap, within its bounds on
nesting, visits and tables. -/
theorem reader_total (bytes : Bytes) :
    (∀ depth, object bytes depth = visit (maxDepth ≤ depth) >>= fun _ =>
      objectBody bytes (class' bytes (depth + 1)) (groupedObject bytes (depth + 1))) ∧
    (∀ depth, class' bytes depth = Checked.require (depth < maxDepth) .oversized >>= fun _ =>
      classBody bytes (class' bytes (depth + 1))) ∧
    match read bytes with
    | (.ok _, s) => s.pos ≤ bytes.length ∧ s.strings.length ≤ maxObjects ∧
        s.objects.length ≤ maxObjects ∧ s.visits ≤ maxObjects
    | (.error (.error e), s) => s.pos ≤ bytes.length ∧ s.strings.length ≤ maxObjects ∧
        s.objects.length ≤ maxObjects ∧
        (s.visits ≤ maxObjects ∨ e = .oversized ∧ s.visits = maxObjects + 1)
    | (.error .trap, _) => False := by
  refine ⟨object_depth bytes, class_depth bytes, ?_⟩
  have hbounds := read_bounds bytes
  rcases hresult : read bytes with ⟨(e | _) | object, s⟩
  · rw [hresult] at hbounds
    exact ⟨hbounds.pos, hbounds.strings, hbounds.objects, hbounds.visits⟩
  · rw [hresult] at hbounds
    exact hbounds
  · rw [hresult] at hbounds
    exact ⟨hbounds.pos, hbounds.tables.strings, hbounds.tables.objects, hbounds.tables.visits⟩

end Zimbr.Relay.BodyParts
