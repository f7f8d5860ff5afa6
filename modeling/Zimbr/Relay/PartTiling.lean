import Zimbr.Relay.BodyParts

set_option autoImplicit false

/-!
# Parts tile the text

Runs are on code point boundaries, so an occurrence of U+FFFC is in one of them.
-/
namespace Zimbr.Relay.BodyParts
open Library

structure Aligned (text : Bytes) (o : Nat) : Prop where
  bound : o ≤ text.length
  before : utf8ValidateSlice (text.take o) = true
  after : utf8ValidateSlice (text.drop o) = true

def window (text : Bytes) (start stop : Nat) : Bytes := (text.drop start).take (stop - start)

theorem window_length {text : Bytes} (start : Nat) {stop : Nat} (hstop : stop ≤ text.length) :
    (window text start stop).length = stop - start := by
  unfold window
  rw [List.length_take, List.length_drop]
  omega

theorem window_append (text : Bytes) {start middle stop : Nat} (hstart : start ≤ middle)
    (hstop : middle ≤ stop) :
    window text start middle ++ window text middle stop = window text start stop := by
  unfold window
  have hdrop : text.drop middle = (text.drop start).drop (middle - start) := by
    rw [List.drop_drop]
    congr 1
    omega
  have hlength : stop - start = (middle - start) + (stop - middle) := by omega
  rw [hdrop, hlength, List.take_add]

theorem window_drop {text : Bytes} {start stop : Nat} (hstart : start ≤ stop) :
    window text start stop ++ text.drop stop = text.drop start := by
  unfold window
  have hdrop : text.drop stop = (text.drop start).drop (stop - start) := by
    rw [List.drop_drop]
    congr 1
    omega
  rw [hdrop, List.take_append_drop]

theorem Aligned.window_valid {text : Bytes} {start stop : Nat} (hstart : Aligned text start)
    (hstop : Aligned text stop) (hle : start ≤ stop) :
    utf8ValidateSlice (window text start stop) = true := by
  have htake : text.take start ++ window text start stop = text.take stop := by
    have hsplit := window_append text (Nat.zero_le start) hle
    simpa only [window, List.drop_zero, Nat.sub_zero] using hsplit
  have hvalid := utf8_rest hstart.before (window text start stop)
  rw [htake, hstop.before] at hvalid
  exact hvalid.symm

section Boundaries

theorem aligned_units {units rest : List Bytes} {cps cps' : List Nat}
    (h : List.Forall₂ Unit8 cps units) (hrest : List.Forall₂ Unit8 cps' rest) :
    Aligned (units.flatten ++ rest.flatten) units.flatten.length := by
  refine ⟨?_, ?_, ?_⟩
  · rw [List.length_append]
    exact Nat.le_add_right _ _
  · rw [List.take_left]
    exact units_valid h
  · rw [List.drop_left]
    exact units_valid hrest

theorem offsets_aligned {cps : List Nat} {rest : List Bytes}
    (h : List.Forall₂ Unit8 cps rest) {cps' : List Nat} {units : List Bytes}
    (hunits : List.Forall₂ Unit8 cps' units) {o : Nat}
    (hmem : o ∈ offsets units.flatten.length cps) (hreal : o ≠ unaligned) :
    Aligned (units.flatten ++ rest.flatten) o := by
  induction h generalizing cps' units with
  | nil => exact absurd hmem List.not_mem_nil
  | @cons cp unit cps rest hunit hrest ih =>
    have hthis := aligned_units hunits (.cons hunit hrest)
    have hmore := List.rel_append hunits (.cons hunit .nil)
    have hlater := ih hmore
    have hflatten : (units ++ [unit]).flatten = units.flatten ++ unit := by
      rw [List.flatten_append, List.flatten_cons, List.flatten_nil, List.append_nil]
    rw [hflatten, List.length_append, hunit.length, List.append_assoc,
      ← List.flatten_cons] at hlater
    unfold offsets at hmem
    split_ifs at hmem
    · rcases List.mem_cons.mp hmem with rfl | hmem
      · exact hthis
      · exact hlater ((List.mem_cons.mp hmem).resolve_left hreal)
    · rcases List.mem_cons.mp hmem with rfl | hmem
      · exact hthis
      · exact hlater hmem

theorem offsets_ge {i o : Nat} {cps : List Nat} (hmem : o ∈ offsets i cps)
    (hreal : o ≠ unaligned) : i ≤ o := by
  induction cps generalizing i with
  | nil => exact absurd hmem List.not_mem_nil
  | cons cp cps ih =>
    unfold offsets at hmem
    split_ifs at hmem
    · rcases List.mem_cons.mp hmem with rfl | hmem
      · exact Nat.le_refl _
      · exact (Nat.le_add_right _ _).trans (ih ((List.mem_cons.mp hmem).resolve_left hreal))
    · rcases List.mem_cons.mp hmem with rfl | hmem
      · exact Nat.le_refl _
      · exact (Nat.le_add_right _ _).trans (ih hmem)

def InOrder (a b : Nat) : Prop := a ≠ unaligned → b ≠ unaligned → a ≤ b

theorem offsets_sorted (i : Nat) (cps : List Nat) : (offsets i cps).Pairwise InOrder := by
  induction cps generalizing i with
  | nil => exact .nil
  | cons cp cps ih =>
    have hlater {o : Nat} (hmem : o ∈ offsets (i + sequenceLength cp) cps) : InOrder i o :=
      fun _ hreal => (Nat.le_add_right _ _).trans (offsets_ge hmem hreal)
    unfold offsets
    split_ifs
    · refine .cons (fun o hmem => ?_) (.cons (fun o _ habsurd => absurd rfl habsurd) (ih _))
      rcases List.mem_cons.mp hmem with rfl | hmem
      · exact fun _ habsurd => absurd rfl habsurd
      · exact hlater hmem
    · exact .cons (fun o hmem => hlater hmem) (ih _)

variable {text : Bytes} {cps : List Nat} (hcps : codepoints text = some cps)

include hcps

theorem boundaries_aligned {o : Nat} (hmem : o ∈ boundaries text cps) (hreal : o ≠ unaligned) :
    Aligned text o := by
  obtain ⟨units, rfl, hunits⟩ := codepoints_units hcps
  rcases List.mem_append.mp hmem with hmem | hmem
  · exact offsets_aligned hunits .nil hmem hreal
  · rw [List.mem_singleton.mp hmem]
    have hend := aligned_units hunits (.nil : List.Forall₂ Unit8 [] [])
    rw [List.flatten_nil, List.append_nil] at hend
    exact hend

theorem boundaries_sorted : (boundaries text cps).Pairwise InOrder := by
  refine List.pairwise_append.mpr ⟨offsets_sorted 0 cps, List.pairwise_singleton _ _, ?_⟩
  intro o hmem o' hlast hreal _
  rw [List.mem_singleton.mp hlast]
  exact (boundaries_aligned hcps (List.mem_append_left _ hmem) hreal).bound

omit hcps in
theorem boundaries_zero (hcps : codepoints text = some cps) :
    (boundaries text cps)[0]? = some 0 := by
  cases cps with
  | nil =>
    obtain ⟨units, rfl, hunits⟩ := codepoints_units hcps
    cases hunits
    rfl
  | cons cp cps =>
    unfold boundaries offsets
    split_ifs
    · rfl
    · rfl

omit hcps in
theorem boundaries_last :
    (boundaries text cps)[(boundaries text cps).length - 1]? = some text.length := by
  unfold boundaries
  rw [List.length_append, List.length_singleton, Nat.add_sub_cancel, List.getElem?_concat_length]

/-- What a run covers: it starts and stops at boundaries, in this order. -/
theorem boundaries_between {c c' o o' : Nat} (hc : (boundaries text cps)[c]? = some o)
    (hc' : (boundaries text cps)[c']? = some o') (hle : c ≤ c') (hreal : o ≠ unaligned)
    (hreal' : o' ≠ unaligned) : o ≤ o' := by
  rcases Nat.eq_or_lt_of_le hle with rfl | hlt
  · rw [hc] at hc'
    cases hc'
    exact Nat.le_refl _
  · obtain ⟨hbound, rfl⟩ := List.getElem?_eq_some_iff.mp hc
    obtain ⟨hbound', rfl⟩ := List.getElem?_eq_some_iff.mp hc'
    exact List.pairwise_iff_getElem.mp (boundaries_sorted hcps) c c' hbound hbound' hlt
      hreal hreal'

end Boundaries

def Tiles : Nat → List (Nat × Nat) → Nat → Prop
  | a, [], b => a = b
  | a, r :: rest, b => r.1 = a ∧ r.1 ≤ r.2 ∧ Tiles r.2 rest b

theorem tiles_append {a b : Nat} {first rest : List (Nat × Nat)} :
    Tiles a (first ++ rest) b ↔ ∃ m, Tiles a first m ∧ Tiles m rest b := by
  induction first generalizing a with
  | nil => simp [Tiles]
  | cons r first ih =>
    simp only [List.cons_append, Tiles, ih]
    constructor
    · rintro ⟨hstart, hle, m, hfirst, hrest⟩
      exact ⟨m, ⟨hstart, hle, hfirst⟩, hrest⟩
    · rintro ⟨m, ⟨hstart, hle, hfirst⟩, hrest⟩
      exact ⟨hstart, hle, m, hfirst, hrest⟩

theorem tiles_concat {a b : Nat} {ranges : List (Nat × Nat)} {r : Nat × Nat} :
    Tiles a (ranges ++ [r]) b ↔ Tiles a ranges r.1 ∧ r.1 ≤ r.2 ∧ r.2 = b := by
  rw [tiles_append]
  simp only [Tiles]
  constructor
  · rintro ⟨m, hranges, rfl, hle, hend⟩
    exact ⟨hranges, hle, hend⟩
  · rintro ⟨hranges, hle, hend⟩
    exact ⟨r.1, hranges, rfl, hle, hend⟩

theorem tiles_cover {a b o : Nat} {ranges : List (Nat × Nat)} (h : Tiles a ranges b)
    (hlow : a ≤ o) (hhigh : o < b) : ∃ (i : Nat) (r : Nat × Nat), ranges[i]? = some r ∧ r.1 ≤ o ∧ o < r.2 := by
  induction ranges generalizing a with
  | nil =>
    have hend : a = b := h
    omega
  | cons r rest ih =>
    obtain ⟨rfl, hle, hrest⟩ := h
    by_cases hin : o < r.2
    · exact ⟨0, r, rfl, hlow, hin⟩
    · obtain ⟨i, r', hr', hwithin⟩ := ih hrest (Nat.le_of_not_lt hin)
      exact ⟨i + 1, r', hr', hwithin⟩

theorem tiles_start {a b i : Nat} {r : Nat × Nat} {ranges : List (Nat × Nat)}
    (h : Tiles a ranges b) (hi : ranges[i]? = some r) : a ≤ r.1 := by
  induction ranges generalizing a i with
  | nil => exact absurd hi (by simp)
  | cons first rest ih =>
    obtain ⟨rfl, hle, hrest⟩ := h
    cases i with
    | zero =>
      cases hi
      exact Nat.le_refl _
    | succ i => exact hle.trans (ih hrest hi)

/-- No two tiles have a place in common. -/
theorem tiles_disjoint {a b i j o : Nat} {r r' : Nat × Nat} {ranges : List (Nat × Nat)}
    (h : Tiles a ranges b) (hi : ranges[i]? = some r) (hj : ranges[j]? = some r')
    (hr : r.1 ≤ o ∧ o < r.2) (hr' : r'.1 ≤ o ∧ o < r'.2) : i = j := by
  induction ranges generalizing a i j with
  | nil => exact absurd hi (by simp)
  | cons first rest ih =>
    obtain ⟨rfl, hle, hrest⟩ := h
    cases i with
    | zero =>
      cases j with
      | zero => rfl
      | succ j =>
        cases hi
        have hapart := tiles_start hrest hj
        omega
    | succ i =>
      cases j with
      | zero =>
        cases hj
        have hapart := tiles_start hrest hi
        omega
      | succ j => exact congrArg Nat.succ (ih hrest hi hj)

inductive Occupies (text : Bytes) : MessagePart → Nat × Nat → Prop where
  | text (index start stop : Nat) : Occupies text
      { id := sourceId index
        sourceIndex := some index
        kind := .text
        textStart := some start
        textLength := some (stop - start) } (start, stop)
  | attachment (index start stop : Nat) (id : Bytes)
      (h : window text start stop = objectReplacement) : Occupies text
      { id := sourceId index
        sourceIndex := some index
        kind := .attachment
        attachmentId := some id } (start, stop)

theorem Occupies.identified {text : Bytes} {p : MessagePart} {r : Nat × Nat}
    (h : Occupies text p r) : ∃ index, p.sourceIndex = some index ∧ p.id = sourceId index := by
  cases h with
  | text index => exact ⟨index, rfl, rfl⟩
  | attachment index => exact ⟨index, rfl, rfl⟩

def Tiled (text : Bytes) (parts : List MessagePart) (ranges : List (Nat × Nat)) (stop : Nat) :
    Prop :=
  Tiles 0 ranges stop ∧ (∀ r ∈ ranges, Aligned text r.1 ∧ Aligned text r.2) ∧
    List.Forall₂ (Occupies text) parts ranges

/-- A part of the text without U+FFFC, or an attachment. -/
def Plain (text : Bytes) (p : MessagePart) : Prop :=
  ∀ start length, p.textStart = some start → p.textLength = some length →
    hasReplacement ((text.drop start).take length) = false

/-- A run of an attributed body, in places of the text. -/
structure Run where
  start : Nat
  stop : Nat
  index : Option Nat
  transfer : Option Bytes

def runAt (boundaries : List Nat) (cursor : Nat) (range : Range Object) : Run :=
  let found := (placement range.attributes (none, none)).toOption.getD (none, none)
  { start := boundaries.getD cursor 0
    stop := boundaries.getD (cursor + range.length) 0
    index := found.1
    transfer := found.2 }

def layout (boundaries : List Nat) : Nat → List (Range Object) → List Run
  | _, [] => []
  | cursor, range :: rest =>
    runAt boundaries cursor range :: layout boundaries (cursor + range.length) rest

/-- The second run continues the first, and holds a U+FFFC. -/
def Overruns (text : Bytes) (r r' : Run) : Prop :=
  r.transfer = none ∧ r'.transfer = none ∧ r.index = r'.index ∧
    hasReplacement (window text r'.start r'.stop) = true

section Placing

variable (hashId : Bytes → Bytes) (text : Bytes) (attachments : List Attachment)

structure Laid (marks : List Nat) (done : List Run) (s : Placing) : Prop where
  tiled : ∃ ranges stop, marks[s.cursor]? = some stop ∧ stop ≠ unaligned ∧
    Tiled text s.parts ranges stop
  seen : s.parts.map MessagePart.sourceIndex = s.seen.reverse.map some
  distinct : s.seen.Nodup
  supplied : ∀ p ∈ s.parts, ∀ id, p.attachmentId = some id → ∃ a ∈ attachments, a.id = id
  used : s.used.reverse = s.parts.filterMap MessagePart.attachmentId
  transfers : s.parts.filterMap MessagePart.attachmentId =
    done.filterMap fun r => r.transfer.map hashId
  last : s.parts.getLast?.map (fun p => (p.sourceIndex, decide (p.kind = .text))) =
    done.getLast?.map fun r => (r.index, r.transfer.isNone)
  plain : (∀ p ∈ s.parts, Plain text p) ↔ done.IsChain fun r r' => ¬Overruns text r r'

variable {hashId text attachments} {marks : List Nat} {done : List Run} {s s' : Placing}

theorem isChain_concat {α : Type} {R : α → α → Prop} {l : List α} {a : α} :
    (l ++ [a]).IsChain R ↔ l.IsChain R ∧ ∀ x ∈ l.getLast?, R x a := by
  rw [List.isChain_append]
  simp

theorem Laid.begins (h : Laid hashId text attachments marks done s) {p : MessagePart}
    {r : Run} {index next : Nat} (hoccupies : Occupies text p (r.start, r.stop))
    (hstart : marks[s.cursor]? = some r.start) (hnext : marks[next]? = some r.stop)
    (hreal : r.stop ≠ unaligned) (hfrom : Aligned text r.start) (hto : Aligned text r.stop)
    (hle : r.start ≤ r.stop) (hindex : p.sourceIndex = some index) (hfresh : index ∉ s.seen)
    (hsupplied : ∀ id, p.attachmentId = some id → ∃ a ∈ attachments, a.id = id)
    (htransfer : r.transfer.map hashId = p.attachmentId)
    (hlast : (p.sourceIndex, decide (p.kind = .text)) = (r.index, r.transfer.isNone))
    (hplain : Plain text p) (hchain : ∀ x ∈ done.getLast?, ¬Overruns text x r) :
    Laid hashId text attachments marks (done ++ [r])
      { cursor := next
        parts := s.parts ++ [p]
        seen := index :: s.seen
        used := p.attachmentId.toList ++ s.used } := by
  obtain ⟨ranges, stop, hcursor, -, htiles, haligned, hparts⟩ := h.tiled
  rw [hstart] at hcursor
  cases hcursor
  refine ⟨⟨ranges ++ [(r.start, r.stop)], r.stop, hnext, hreal, ?_, ?_, ?_⟩, ?_, ?_, ?_, ?_,
    ?_, ?_, ?_⟩
  · exact tiles_concat.mpr ⟨htiles, hle, rfl⟩
  · intro r' hr'
    rcases List.mem_append.mp hr' with hold | hnew
    · exact haligned r' hold
    · rw [List.mem_singleton.mp hnew]
      exact ⟨hfrom, hto⟩
  · exact List.rel_append hparts (.cons hoccupies .nil)
  · simp only [List.map_append, List.map_cons, List.map_nil, List.reverse_cons, h.seen, hindex]
  · exact List.nodup_cons.mpr ⟨hfresh, h.distinct⟩
  · intro p' hp'
    rcases List.mem_append.mp hp' with hold | hnew
    · exact h.supplied p' hold
    · rw [List.mem_singleton.mp hnew]
      exact hsupplied
  · rw [List.reverse_append, h.used, List.filterMap_append]
    congr 1
    cases hid : p.attachmentId with
    | none => simp [hid]
    | some id => simp [hid]
  · rw [List.filterMap_append, List.filterMap_append, h.transfers]
    simp only [List.filterMap_cons, List.filterMap_nil, htransfer]
  · simpa only [List.getLast?_concat, Option.map_some] using congrArg some hlast
  · rw [isChain_concat, ← h.plain]
    constructor
    · exact fun hall => ⟨fun p' hp' => hall p' (List.mem_append_left _ hp'), hchain⟩
    · rintro ⟨hold, -⟩ p' hp'
      rcases List.mem_append.mp hp' with hp' | hnew
      · exact hold p' hp'
      · rw [List.mem_singleton.mp hnew]
        exact hplain

theorem forall₂_concat {α β : Type} {R : α → β → Prop} {as : List α} {a : α} {bs : List β}
    (h : List.Forall₂ R (as ++ [a]) bs) :
    ∃ bs' b, bs = bs' ++ [b] ∧ List.Forall₂ R as bs' ∧ R a b := by
  induction as generalizing bs with
  | nil =>
    cases h with
    | cons hb hrest =>
      cases hrest
      exact ⟨[], _, rfl, .nil, hb⟩
  | cons first as ih =>
    cases h with
    | cons hb hrest =>
      obtain ⟨bs', b, rfl, has, ha⟩ := ih hrest
      exact ⟨_ :: bs', b, rfl, .cons hb has, ha⟩

theorem Laid.extends (h : Laid hashId text attachments marks done s)
    {init : List MessagePart} {previous : MessagePart} {r : Run} {start next : Nat}
    (hparts : s.parts = init ++ [previous]) (hkind : previous.kind = .text)
    (hindex : previous.sourceIndex = r.index) (htransfer : r.transfer = none)
    (hbegan : previous.textStart = some start)
    (hstart : marks[s.cursor]? = some r.start) (hnext : marks[next]? = some r.stop)
    (hreal : r.stop ≠ unaligned) (hfrom : Aligned text r.start) (hto : Aligned text r.stop)
    (hle : r.start ≤ r.stop) :
    Laid hashId text attachments marks (done ++ [r])
      { s with
        cursor := next
        parts := init ++ [{ previous with textLength := some (r.stop - start) }] } := by
  obtain ⟨ranges, stop, hcursor, -, htiles, haligned, hoccupies⟩ := h.tiled
  rw [hstart] at hcursor
  cases hcursor
  rw [hparts] at hoccupies
  obtain ⟨ranges, range, rfl, hinit, hprevious⟩ := forall₂_concat hoccupies
  have hends := tiles_concat.mp htiles
  have hlast := h.last
  rw [hparts, List.getLast?_concat, Option.map_some] at hlast
  obtain ⟨x, hx, hpair⟩ := Option.map_eq_some_iff.mp hlast.symm
  obtain ⟨hxindex, hxtransfer⟩ := Prod.mk.inj hpair
  rw [decide_eq_true hkind, Option.isNone_iff_eq_none] at hxtransfer
  have hsame : x.index = r.index := hxindex.trans hindex
  cases hprevious with
  | attachment => cases hkind
  | text index start' stop' =>
    cases hbegan
    obtain ⟨hbefore, hfirst, rfl⟩ : Tiles 0 ranges start ∧ start ≤ stop' ∧ stop' = r.start :=
      hends
    have hopened : Aligned text start := 
      (haligned (start, r.start) (List.mem_append_right _ List.mem_cons_self)).1
    have hwindow := window_append text hfirst hle
    have hholds : hasReplacement (window text start r.stop) =
        (hasReplacement (window text start r.start) ||
          hasReplacement (window text r.start r.stop)) := by
      rw [← hwindow]
      exact hasReplacement_append (hopened.window_valid hfrom hfirst) _
    have hplain (stop : Nat) : Plain text
        { id := sourceId index, sourceIndex := some index, kind := .text,
          textStart := some start, textLength := some (stop - start) } ↔
        hasReplacement (window text start stop) = false := by
      constructor
      · exact fun hall => hall start _ rfl rfl
      · intro hclean start' length hs hl
        cases hs
        cases hl
        exact hclean
    refine ⟨⟨ranges ++ [(start, r.stop)], r.stop, hnext, hreal, ?_, ?_, ?_⟩, ?_, h.distinct, ?_,
      ?_, ?_, ?_, ?_⟩
    · exact tiles_concat.mpr ⟨hbefore, hfirst.trans hle, rfl⟩
    · intro r' hr'
      rcases List.mem_append.mp hr' with hold | hnew
      · exact haligned r' (List.mem_append_left _ hold)
      · rw [List.mem_singleton.mp hnew]
        exact ⟨hopened, hto⟩
    · exact List.rel_append hinit (.cons (.text index start r.stop) .nil)
    · rw [← h.seen, hparts, List.map_append, List.map_append]
      rfl
    · intro p' hp'
      rcases List.mem_append.mp hp' with hold | hnew
      · exact h.supplied p' (by rw [hparts]; exact List.mem_append_left _ hold)
      · rw [List.mem_singleton.mp hnew]
        exact fun _ habsurd => nomatch habsurd
    · rw [h.used, hparts, List.filterMap_append, List.filterMap_append]
      rfl
    · rw [List.filterMap_append, List.filterMap_append, ← h.transfers, hparts,
        List.filterMap_append]
      simp [htransfer]
    · rw [List.getLast?_concat, List.getLast?_concat, Option.map_some, Option.map_some, htransfer]
      exact congrArg some (Prod.ext hindex rfl)
    · rw [isChain_concat, ← h.plain, hparts]
      have hover : (∀ x ∈ done.getLast?, ¬Overruns text x r) ↔
          hasReplacement (window text r.start r.stop) = false := by
        rw [hx]
        simp [Overruns, hxtransfer, htransfer, hsame]
      rw [hover]
      simp only [List.forall_mem_append, List.forall_mem_singleton, hplain, hholds,
        Bool.or_eq_false_iff, and_assoc]

theorem continued_some {parts : List MessagePart} {index : Nat} {transfer : Option Bytes}
    {previous : MessagePart} (h : continued parts index transfer = some previous) :
    transfer = none ∧ parts = parts.dropLast ++ [previous] ∧
      previous.sourceIndex = some index ∧ previous.kind = .text := by
  unfold continued at h
  split at h
  · next last hlast =>
    split_ifs at h with hsame
    cases h
    simp only [Bool.and_eq_true, decide_eq_true_eq] at hsame
    exact ⟨rfl, (List.dropLast_append_getLast? _ hlast).symm, hsame⟩
  · exact nomatch h

section Runs

variable {cps : List Nat} (hcps : codepoints text = some cps) {range : Range Object}

/-- A run that was read: its ends are aligned, and it has an index. -/
structure Located (text : Bytes) (marks : List Nat) (cursor length : Nat) (r : Run) (index : Nat) : Prop where
  start : marks[cursor]? = some r.start
  stop : marks[cursor + length]? = some r.stop
  real : r.stop ≠ unaligned
  before : Aligned text r.start
  after : Aligned text r.stop
  ordered : r.start ≤ r.stop
  index : r.index = some index

theorem extendPart_laid {r : Run} {index next : Nat} {previous : MessagePart}
    (h : Laid hashId text attachments marks done s)
    (hrun : Located text marks s.cursor next r index)
    (hprevious : continued s.parts index r.transfer = some previous)
    (hextend : extendPart previous r.stop { s with cursor := s.cursor + next } = (.ok (), s')) :
    Laid hashId text attachments marks (done ++ [r]) s' ∧ s'.cursor = s.cursor + next := by
  obtain ⟨htransfer, hparts, hindex, hkind⟩ := continued_some hprevious
  unfold extendPart at hextend
  simp only [Checked.bind_ok, Checked.orTrap_ok, Checked.sub_ok, Checked.modify_ok, existsAndEq,
    true_and, and_assoc] at hextend
  obtain ⟨start, hbegan, -, rfl⟩ := hextend
  exact ⟨h.extends hparts hkind (hindex.trans hrun.index.symm) htransfer hbegan hrun.start
    hrun.stop hrun.real hrun.before hrun.after hrun.ordered, rfl⟩

theorem beginPart_laid {r : Run} {index next : Nat}
    (h : Laid hashId text attachments marks done s)
    (hrun : Located text marks s.cursor next r index)
    (hbegin : beginPart hashId text attachments index r.transfer r.start r.stop
      { s with cursor := s.cursor + next } = (.ok (), s')) :
    Laid hashId text attachments marks (done ++ [r]) s' ∧ s'.cursor = s.cursor + next := by
  unfold beginPart at hbegin
  simp only [Checked.bind_ok, Checked.get_ok, Checked.require_ok, Checked.modify_ok,
    Checked.sub_ok, Checked.slice_ok, existsAndEq, true_and, and_assoc, exists_const] at hbegin
  obtain ⟨hfresh, -, -, hbegin⟩ := hbegin
  have hfresh : index ∉ s.seen := by simpa using hfresh
  cases htransfer : r.transfer with
  | some guid =>
    rw [htransfer] at hbegin
    simp only [Checked.bind_ok, Checked.require_ok, Checked.orFail_ok, Checked.modify_ok,
      existsAndEq, true_and, and_assoc, exists_const] at hbegin
    obtain ⟨hcovered, attachment, hfound, rfl⟩ := hbegin
    have hid : attachment.id = hashId guid := by simpa using List.find?_some hfound
    refine ⟨h.begins (.attachment index r.start r.stop attachment.id (of_decide_eq_true hcovered))
      hrun.start hrun.stop hrun.real hrun.before hrun.after hrun.ordered rfl hfresh ?_ ?_ ?_ ?_ ?_,
      rfl⟩
    · intro id hsome
      exact ⟨attachment, List.mem_of_find?_eq_some hfound, Option.some.inj hsome⟩
    · rw [htransfer, hid]
      rfl
    · rw [hrun.index, htransfer]
      rfl
    · exact fun _ _ habsurd => by cases habsurd
    · intro x _ hover
      rw [hover.2.1] at htransfer
      cases htransfer
  | none =>
    rw [htransfer] at hbegin
    simp only [Checked.bind_ok, Checked.require_ok, Checked.modify_ok, existsAndEq, and_assoc,
      true_and, Bool.not_eq_true', exists_const] at hbegin
    obtain ⟨hclean, rfl⟩ := hbegin
    have hclean : hasReplacement (window text r.start r.stop) = false := hclean
    refine ⟨h.begins (.text index r.start r.stop) hrun.start hrun.stop hrun.real hrun.before
      hrun.after hrun.ordered rfl hfresh (fun _ habsurd => by cases habsurd) ?_ ?_ ?_ ?_, rfl⟩
    · rw [htransfer]
      rfl
    · rw [hrun.index, htransfer]
      rfl
    · intro start length hstart hlength
      cases hstart
      cases hlength
      exact hclean
    · intro x _ hover
      cases hclean.symm.trans hover.2.2.2

include hcps

theorem placeRange_laid (h : Laid hashId text attachments (boundaries text cps) done s)
    (hrun : placeRange hashId text attachments (boundaries text cps) range s = (.ok (), s')) :
    Laid hashId text attachments (boundaries text cps)
      (done ++ [runAt (boundaries text cps) s.cursor range]) s' ∧
      s'.cursor = s.cursor + range.length := by
  unfold placeRange at hrun
  simp only [Checked.bind_ok, Checked.get_ok, Checked.sub_ok, Checked.require_ok, Checked.index_ok,
    Checked.add_ok, Checked.modify_ok, Checked.ofExcept_ok, Checked.orFail_ok, existsAndEq,
    true_and, and_assoc, Bool.and_eq_true, decide_eq_true_eq, exists_const] at hrun
  obtain ⟨-, -, start, hstart, -, stop, hstop, hreal, hreal', found, hfound, index, hindex,
    hrun⟩ := hrun
  have hplaced : runAt (boundaries text cps) s.cursor range =
      { start := start, stop := stop, index := some index, transfer := found.2 } := by
    unfold runAt
    rw [hfound, List.getD_eq_getElem?_getD, hstart, List.getD_eq_getElem?_getD, hstop, ← hindex]
    rfl
  have hlocated : Located text (boundaries text cps) s.cursor range.length
      { start := start, stop := stop, index := some index, transfer := found.2 } index :=
    { start := hstart
      stop := hstop
      real := hreal'
      before := boundaries_aligned hcps (List.mem_of_getElem? hstart) hreal
      after := boundaries_aligned hcps (List.mem_of_getElem? hstop) hreal'
      ordered := boundaries_between hcps hstart hstop (Nat.le_add_right _ _) hreal hreal'
      index := rfl }
  rw [hplaced]
  cases hprevious : continued s.parts index found.2 with
  | some previous =>
    rw [hprevious] at hrun
    exact extendPart_laid h hlocated hprevious hrun
  | none =>
    rw [hprevious] at hrun
    exact beginPart_laid h hlocated hrun

theorem placeRanges_laid {ranges : List (Range Object)}
    (h : Laid hashId text attachments (boundaries text cps) done s)
    (hrun : placeRanges hashId text attachments (boundaries text cps) ranges s = (.ok (), s')) :
    Laid hashId text attachments (boundaries text cps)
      (done ++ layout (boundaries text cps) s.cursor ranges) s' := by
  induction ranges generalizing done s with
  | nil =>
    obtain ⟨-, rfl⟩ := Checked.pure_ok.mp hrun
    rw [layout, List.append_nil]
    exact h
  | cons range rest ih =>
    obtain ⟨_, s₁, hfirst, hrest⟩ := Checked.bind_ok.mp hrun
    obtain ⟨hlaid, hcursor⟩ := placeRange_laid hcps h hfirst
    have hall := ih hlaid hrest
    rw [hcursor, List.append_assoc] at hall
    exact hall

omit hcps in
theorem laid_start (hcps : codepoints text = some cps) :
    Laid hashId text attachments (boundaries text cps) [] {} where
  tiled := ⟨[], 0, boundaries_zero hcps, by decide, rfl, by simp, .nil⟩
  seen := rfl
  distinct := .nil
  supplied := by simp
  used := rfl
  transfers := rfl
  last := rfl
  plain := by simp

theorem place_laid {ranges : List (Range Object)} {parts : List MessagePart} {s : Placing}
    (hrun : place hashId text attachments (boundaries text cps) ranges {} = (.ok parts, s)) :
    Laid hashId text attachments (boundaries text cps)
        (layout (boundaries text cps) 0 ranges) s ∧
      s.parts = parts ∧ (∃ tiles, Tiled text parts tiles text.length) ∧
      ∀ a ∈ attachments, a.id ∈ s.used := by
  obtain ⟨_, s₁, hranges, hfinish⟩ := Checked.bind_ok.mp hrun
  have hlaid := placeRanges_laid hcps (laid_start hcps) hranges
  unfold finish at hfinish
  simp only [Checked.bind_ok, Checked.get_ok, Checked.sub_ok, Checked.require_ok, existsAndEq,
    true_and, and_assoc, decide_eq_true_eq, List.all_eq_true, List.contains_iff_mem,
    exists_const] at hfinish
  obtain ⟨-, hcursor, hused, rfl, rfl⟩ := hfinish
  refine ⟨hlaid, rfl, ?_, hused⟩
  obtain ⟨tiles, stop, hstop, -, htiled⟩ := hlaid.tiled
  rw [hcursor, boundaries_last] at hstop
  cases hstop
  exact ⟨tiles, htiled⟩

end Runs

end Placing

end Zimbr.Relay.BodyParts
