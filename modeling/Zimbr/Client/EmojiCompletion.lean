import Mathlib.Data.List.Lex
import Zimbr.Client.Emoji

set_option autoImplicit false

/-!
# Completion of emoji shortcodes

The current composer query and keyboard selection. A query is looked up once for each
revision of the text and position of the caret.
-/
namespace Zimbr.Emoji
open Library Editor

def matches_ (entries : List Entry) (stem : Bytes) : List Entry :=
  if stem.length = 0 then []
  else (entries.drop (lowerBound entries stem 0 entries.length)).takeWhile fun entry =>
    stem.isPrefixOf entry.name

/-- An unfinished shortcode at a collapsed caret, with what remains of it after the caret. -/
def query (text : Bytes) (caret : Nat) : Option Editor.Range :=
  let start := nameStart text caret
  if start = caret || start = 0 || text[start - 1]? ≠ some colon then none
  else if !opening text (start - 1) then none
  else
    let stop := nameEnd text text.length caret
    some ⟨start - 1, if stop < text.length && text[stop]? = some colon then stop + 1 else stop⟩

structure Completion where
  revision : Option Nat := none
  caret : Nat := 0
  range : Editor.Range := ⟨0, 0⟩
  items : List Entry := []
  selected : Nat := 0
  dismissed : Bool := false
  deriving DecidableEq, Repr

def stemOf (text : Bytes) (range : Editor.Range) (caret : Nat) : Bytes :=
  (text.drop (range.start + 1)).take (caret - (range.start + 1))

namespace Completion

def update (entries : List Entry) (editor : Editor) (enabled : Bool) (s : Completion) :
    Completion :=
  if !enabled || editor.preedit.length > 0 || editor.anchor ≠ editor.caret then {}
  else if s.revision = some editor.revision && s.caret = editor.caret then s
  else match query editor.text editor.caret with
  | none => { revision := some editor.revision, caret := editor.caret }
  | some range => {
      revision := some editor.revision
      caret := editor.caret
      range := range
      items := matches_ entries (stemOf editor.text range editor.caret) }

def visible (s : Completion) : Bool := !s.dismissed && s.items.length > 0

def cycle (backwards : Bool) (s : Completion) : Completion :=
  if !s.visible then s
  else { s with selected :=
    (s.selected + if backwards then s.items.length - 1 else 1) % s.items.length }

def dismiss (s : Completion) : Completion := { s with dismissed := true }

end Completion

structure Composer where
  editor : Editor := Editor.empty
  completion : Completion := {}
  deriving DecidableEq, Repr

namespace Composer

def edit (boundary : Bytes → Nat → Int → Nat) (op : Op) (allocations : List Bool)
    (s : Composer) : Composer :=
  { s with editor := (op.run boundary ⟨s.editor, allocations⟩).2.editor }

def place (caret anchor : Nat) (s : Composer) : Composer :=
  { s with editor := { s.editor with caret := caret, anchor := anchor } }

def refresh (entries : List Entry) (enabled : Bool) (s : Composer) : Composer :=
  { s with completion := s.completion.update entries s.editor enabled }

def chooseEmoji (entries : List Entry) (enabled : Bool) (index : Nat) (allocations : List Bool)
    (s : Composer) : Composer :=
  let s := s.refresh entries enabled
  if !s.completion.visible then s
  else match s.completion.items[index]? with
  | none => s
  | some entry =>
    match Editor.replace s.completion.range entry.text ⟨s.editor, allocations⟩ with
    | (.ok (), after) => { editor := after.editor }
    | (.error _, after) => { s with editor := after.editor }

end Composer

inductive Composing (boundary : Bytes → Nat → Int → Nat) (entries : List Entry) :
    Composer → Prop where
  | empty : Composing boundary entries {}
  | edit {s : Composer} (h : Composing boundary entries s) (op : Op) (hop : op.Allowed s.editor)
      (allocations : List Bool) : Composing boundary entries (s.edit boundary op allocations)
  | place {s : Composer} (h : Composing boundary entries s) (hclear : s.editor.preedit = [])
      {caret anchor : Nat} (hcaret : Boundary s.editor.text caret)
      (hanchor : Boundary s.editor.text anchor) : Composing boundary entries (s.place caret anchor)
  | refresh {s : Composer} (h : Composing boundary entries s) (enabled : Bool) :
      Composing boundary entries (s.refresh entries enabled)
  | cycle {s : Composer} (h : Composing boundary entries s) (backwards : Bool) :
      Composing boundary entries { s with completion := s.completion.cycle backwards }
  | dismiss {s : Composer} (h : Composing boundary entries s) :
      Composing boundary entries { s with completion := s.completion.dismiss }
  | choose {s : Composer} (h : Composing boundary entries s) (enabled : Bool) (index : Nat)
      (allocations : List Bool) :
      Composing boundary entries (s.chooseEmoji entries enabled index allocations)

/-! ## The catalog -/

section Catalog

variable {entries : List Entry} {low high : Nat} {name stem : Bytes}

/-- The order of `catalog.tsv`. -/
def Ordered (entries : List Entry) : Prop := entries.Pairwise fun a b => a.name < b.name

theorem Ordered.lt (h : Ordered entries) {i j : Nat} {a b : Entry} (hij : i < j)
    (hi : entries[i]? = some a) (hj : entries[j]? = some b) : a.name < b.name := by
  obtain ⟨hleni, rfl⟩ := List.getElem?_eq_some_iff.mp hi
  obtain ⟨hlenj, rfl⟩ := List.getElem?_eq_some_iff.mp hj
  exact List.pairwise_iff_getElem.mp h i j hleni hlenj hij

/-- All names before the bound are before the name, and none after it is. -/
theorem lowerBound_spec (name : Bytes) (h : Ordered entries) (hle : low ≤ high)
    (hhigh : high ≤ entries.length)
    (hbefore : ∀ (i : Nat) e, i < low → entries[i]? = some e → e.name < name)
    (hafter : ∀ (i : Nat) e, high ≤ i → entries[i]? = some e → ¬ e.name < name) :
    (∀ (i : Nat) e, i < lowerBound entries name low high → entries[i]? = some e →
        e.name < name) ∧
      ∀ (i : Nat) e, lowerBound entries name low high ≤ i → entries[i]? = some e →
        ¬ e.name < name := by
  fun_induction lowerBound entries name low high with
  | case1 low high hlt mid hnone =>
    have hlength := List.getElem?_eq_none_iff.mp hnone
    omega
  | case2 low high hlt mid entry hentry hless ih =>
    refine ih (by omega) hhigh (fun i e hi he => ?_) hafter
    rcases Nat.lt_or_eq_of_le (Nat.le_of_lt_succ hi) with hmid | rfl
    · exact (h.lt hmid he hentry).trans hless
    · rw [hentry] at he
      rwa [← Option.some.inj he]
  | case3 low high hlt mid entry hentry hnot ih =>
    refine ih (by omega) (by omega) hbefore fun i e hi he hless => hnot ?_
    rcases Nat.lt_or_eq_of_le hi with hmid | rfl
    · exact (h.lt hmid hentry he).trans hless
    · rw [hentry] at he
      rwa [Option.some.inj he]
  | case4 low high hnot =>
    have heq : low = high := by omega
    exact ⟨hbefore, heq ▸ hafter⟩

theorem not_lt_of_stem (h : stem <+: name) : ¬ name < stem := by
  induction stem generalizing name with
  | nil => exact List.not_lt_nil name
  | cons b stem ih =>
    obtain ⟨rest, rfl⟩ := h
    rw [List.cons_append, List.cons_lt_cons_iff]
    rintro (hlt | ⟨-, hlt⟩)
    · exact lt_irrefl b hlt
    · exact ih (List.prefix_append stem rest) hlt

theorem stem_between {later : Bytes} (hnot : ¬ name < stem) (hlt : name < later)
    (hlater : stem <+: later) : stem <+: name := by
  induction stem generalizing name later with
  | nil => exact List.nil_prefix
  | cons b stem ih =>
    obtain ⟨rest, rfl⟩ := hlater
    cases name with
    | nil => exact absurd (List.nil_lt_cons b stem) hnot
    | cons c name =>
      rw [List.cons_lt_cons_iff, not_or, not_and] at hnot
      rw [List.cons_append, List.cons_lt_cons_iff] at hlt
      rcases hlt with hfirst | ⟨rfl, hrest⟩
      · exact absurd hfirst hnot.1
      · have htail := ih (hnot.2 rfl) hrest (List.prefix_append stem rest)
        exact (List.prefix_cons_inj c).mpr htail

theorem takeWhile_eq_filter {α : Type} {p : α → Bool} {l : List α}
    (h : l.Pairwise fun a b => p b = true → p a = true) : l.takeWhile p = l.filter p := by
  induction l with
  | nil => rfl
  | cons a rest ih =>
    obtain ⟨hfirst, hrest⟩ := List.pairwise_cons.mp h
    by_cases ha : p a = true
    · rw [List.takeWhile_cons_of_pos ha, List.filter_cons_of_pos ha, ih hrest]
    · rw [List.takeWhile_cons_of_neg ha, List.filter_cons_of_neg ha]
      exact (List.filter_eq_nil_iff.mpr fun b hb hp => ha (hfirst b hb hp)).symm

/-- The binary search finds exactly the entries that begin with the stem. -/
theorem matches_eq (h : Ordered entries) (hne : stem ≠ []) :
    matches_ entries stem = entries.filter fun entry => stem.isPrefixOf entry.name := by
  obtain ⟨hbefore, hafter⟩ := lowerBound_spec stem h (Nat.zero_le entries.length)
    le_rfl (fun i e hi => absurd hi (Nat.not_lt_zero i)) fun i e hi he => by
      rw [List.getElem?_eq_none hi] at he
      cases he
  rw [matches_, if_neg fun hlength => hne (List.eq_nil_of_length_eq_zero hlength)]
  generalize lowerBound entries stem 0 entries.length = bound at hbefore hafter
  have hnone : (entries.take bound).filter (fun entry => stem.isPrefixOf entry.name) = [] := by
    refine List.filter_eq_nil_iff.mpr fun e he hstem => ?_
    obtain ⟨i, hi, hget⟩ := List.mem_iff_getElem.mp he
    have hlt : i < bound := by
      rw [List.length_take] at hi
      omega
    refine not_lt_of_stem (List.isPrefixOf_iff_prefix.mp hstem) (hbefore i e hlt ?_)
    rw [← hget, List.getElem_take]
    exact List.getElem?_eq_getElem _
  conv_rhs => rw [← List.take_append_drop bound entries]
  rw [List.filter_append, hnone, List.nil_append]
  refine takeWhile_eq_filter ((List.Pairwise.sublist (List.drop_sublist bound entries)
    h).imp_of_mem fun ha hb hlt hstem => ?_)
  obtain ⟨i, hi, hget⟩ := List.mem_iff_getElem.mp ha
  rw [List.getElem_drop] at hget
  refine List.isPrefixOf_iff_prefix.mpr (stem_between
    (hafter (bound + i) _ (Nat.le_add_right _ _) ?_) hlt (List.isPrefixOf_iff_prefix.mp hstem))
  rw [← hget]
  exact List.getElem?_eq_getElem _

end Catalog

/-! ## What a query finds -/

section Query

variable {text stem : Bytes} {caret stop : Nat} {range : Editor.Range}

/-- After the caret the name goes on to its last byte, and one colon that closes it belongs to
the shortcode too. -/
def Closes (after left : Bytes) : Prop :=
  ∃ rest, (∀ b ∈ rest, nameByte b = true) ∧ (after = rest ++ colon :: left ∨
    after = rest ++ left ∧ ∀ b ∈ left.head?, b ≠ colon ∧ nameByte b = false)

/-- An unfinished shortcode around a caret. -/
structure Asked (text : Bytes) (caret : Nat) (range : Editor.Range) (stem : Bytes) : Prop where
  typed : stem ≠ []
  named : ∀ b ∈ stem, nameByte b = true
  before : text.take caret = text.take range.start ++ colon :: stem
  opened : opening text range.start = true
  start : range.start < caret
  order : caret ≤ range.stop
  within : range.stop ≤ text.length
  after : Closes (text.drop caret) (text.drop range.stop)

theorem query_stop (hcaret : caret ≤ text.length)
    (h : stop = nameEnd text text.length caret ∧
        text[nameEnd text text.length caret]? ≠ some colon ∨
      stop = nameEnd text text.length caret + 1 ∧
        text[nameEnd text text.length caret]? = some colon) :
    caret ≤ stop ∧ stop ≤ text.length ∧ Closes (text.drop caret) (text.drop stop) := by
  obtain ⟨name, hname, hdrop, hend, hrest⟩ := nameEnd_spec text text.length caret
  rw [List.take_length] at hdrop hrest
  have hbound := congrArg List.length hdrop
  rw [List.length_append, List.length_drop, List.length_drop] at hbound
  rcases h with ⟨rfl, hopen⟩ | ⟨rfl, hcolon⟩
  · refine ⟨by omega, by omega, name, hname, Or.inr ⟨hdrop, fun b hb => ⟨?_, ?_⟩⟩⟩
    · rintro rfl
      rw [List.head?_drop] at hb
      exact hopen hb
    · have hlast := List.head?_dropWhile_not nameByte (text.drop caret)
      rw [← hrest, Option.mem_def.mp hb] at hlast
      simpa using hlast
  · have hinside := (List.getElem?_eq_some_iff.mp hcolon).1
    refine ⟨by omega, by omega, name, hname, Or.inl ?_⟩
    rwa [List.drop_eq_getElem_cons hinside, (List.getElem?_eq_some_iff.mp hcolon).2] at hdrop

theorem stemOf_eq (hcaret : caret ≤ text.length)
    (h : text.take caret = text.take range.start ++ colon :: stem)
    (hstart : range.start < caret) : stemOf text range caret = stem := by
  have hlength : (text.take range.start).length = range.start :=
    List.length_take_of_le (by omega)
  have hsplit : text.take caret = text.take range.start ++ [colon] ++ stem := by
    rw [h, List.append_assoc]
    rfl
  rw [stemOf, ← List.drop_take, hsplit, List.drop_left']
  rw [List.length_append, hlength, List.length_singleton]

theorem query_spec (hcaret : caret ≤ text.length) (h : query text caret = some range) :
    Asked text caret range (stemOf text range caret) := by
  obtain ⟨name, hname, htake, -, hlength⟩ := nameStart_spec hcaret
  unfold query at h
  dsimp only at h
  split at h
  next => cases h
  next hnone =>
    split at h
    next => cases h
    next hopening =>
      rw [Bool.not_eq_true, Bool.or_eq_false_iff, Bool.or_eq_false_iff] at hnone
      obtain ⟨⟨htyped, hpositive⟩, hcolon⟩ := hnone
      have htyped := of_decide_eq_false htyped
      have hpositive := of_decide_eq_false hpositive
      have hcolon := not_not.mp (of_decide_eq_false hcolon)
      generalize nameStart text caret = start at *
      obtain ⟨k, rfl⟩ := Nat.exists_eq_add_one_of_ne_zero hpositive
      rw [Nat.add_sub_cancel] at hcolon hopening h
      obtain ⟨hfirst, hlast⟩ : range.start = k ∧ (range.stop = nameEnd text text.length caret ∧
          text[nameEnd text text.length caret]? ≠ some colon ∨
          range.stop = nameEnd text text.length caret + 1 ∧
            text[nameEnd text text.length caret]? = some colon) := by
        obtain rfl := Option.some.inj h
        refine ⟨rfl, ?_⟩
        dsimp only
        split_ifs with hclose
        · rw [Bool.and_eq_true, decide_eq_true_eq] at hclose
          exact Or.inr ⟨rfl, of_decide_eq_true hclose.2⟩
        · refine Or.inl ⟨rfl, fun hcolon => hclose ?_⟩
          rw [hcolon, decide_eq_true (List.getElem?_eq_some_iff.mp hcolon).1]
          rfl
      have hbefore : text.take caret = text.take range.start ++ colon :: name := by
        rw [htake, hfirst, List.take_add_one, hcolon, List.append_assoc]
        rfl
      have hstart : range.start < caret := by omega
      obtain ⟨horder, hwithin, hafter⟩ := query_stop hcaret hlast
      rw [stemOf_eq hcaret hbefore hstart]
      refine ⟨?_, hname, hbefore, ?_, hstart, horder, hwithin, hafter⟩
      · rintro rfl
        exact htyped (by simpa using hlength)
      · rw [hfirst]
        simpa using hopening

variable {e : Editor}

/-- Only names and a colon stand between the caret and the end of the shortcode. -/
theorem Closes.taken {after left : Bytes} (h : Closes after left) :
    ∃ taken, after = taken ++ left ∧ ∀ b ∈ taken, b = colon ∨ nameByte b = true := by
  obtain ⟨rest, hrest, hcolon | ⟨hplain, -⟩⟩ := h
  · refine ⟨rest ++ [colon], ?_, fun b hb => ?_⟩
    · rw [hcolon, List.append_assoc, List.singleton_append]
    · rcases List.mem_append.mp hb with hname | hlast
      · exact Or.inr (hrest b hname)
      · exact Or.inl (List.mem_singleton.mp hlast)
  · exact ⟨rest, hplain, fun b hb => Or.inr (hrest b hb)⟩

theorem Asked.boundaries (h : Asked e.text caret range stem) (hcaret : Boundary e.text caret) :
    Boundary e.text range.start ∧ Boundary e.text range.stop := by
  constructor
  · refine boundary_start ((h.start.trans_le h.order).le.trans h.within) hcaret h.before
      fun b hb => ?_
    rcases List.mem_cons.mp hb with rfl | hmem
    · exact Or.inl rfl
    · exact Or.inr (h.named b hmem)
  · have hrest : Boundary (e.text.drop caret) (range.stop - caret) := by
      refine ⟨?_, utf8_of_ascii fun b hb => ?_⟩
      · rw [List.length_drop]
        exact Nat.sub_le_sub_right h.within caret
      · obtain ⟨taken, hsplit, hnames⟩ := h.after.taken
        have hlength := congrArg List.length hsplit
        rw [List.length_append, List.length_drop, List.length_drop] at hlength
        have hstop := h.within
        rw [hsplit, List.take_left' (by omega)] at hb
        rcases hnames b hb with rfl | hname
        · decide
        · exact named_ascii hname
    have hstop := hcaret.after hrest
    rwa [Nat.add_sub_cancel' h.order] at hstop

end Query

/-! ## No completion outlives the text it was found in -/

section Composers

def Advances (e e' : Editor) : Prop :=
  e'.text = e.text ∧ e'.revision = e.revision ∨ e.revision < e'.revision

variable {e : Editor} {range : Editor.Range} {value : Bytes}
  {boundary : Bytes → Nat → Int → Nat} {entries : List Entry} {s : Composer}

theorem cancelled_kept (e : Editor) :
    (cancelled e).text = e.text ∧ (cancelled e).revision = e.revision := by
  rcases cancelled_cases e with ⟨h, -⟩ | h
  · rw [h]
    exact ⟨rfl, rfl⟩
  · rw [h]
    exact ⟨rfl, rfl⟩

theorem edited_revision (e : Editor) : (edited e).revision = e.revision + 1 :=
  congrArg (· + 1) (cancelled_kept e).2

theorem edited_advances {e' : Editor} (h : e'.revision = e.revision) : Advances e (edited e') := by
  right
  rw [edited_revision, h]
  exact Nat.lt_succ_self e.revision

theorem replaced_advances : Advances e (replaced (recorded e) range value) := edited_advances rfl

theorem extended_revision (back : Bool) : (extended boundary back e).revision = e.revision := by
  unfold extended
  split_ifs <;> rfl

theorem run_advances (hb : Boundaries boundary) (h : Valid e) (op : Op) (hop : op.Allowed e) :
    Spec e (op.run boundary) fun _ e' => Advances e e' := by
  cases op with
  | set text => exact .require fun _ => .alloc (.change (edited_advances rfl))
  | insert value =>
    exact (insert_spec h.high_le).weaken fun _ s hs => by
      rw [hs.2]
      exact replaced_advances
  | replace range value =>
    exact (replace_spec hop.1 hop.2.2.1).weaken fun _ s hs => by
      rw [hs.2]
      exact replaced_advances
  | delete back =>
    refine (delete_spec hb h back).weaken fun _ s hs => ?_
    rcases hs with hsame | ⟨-, -, hdone⟩
    · rw [hsame]
      exact Or.inl ⟨rfl, rfl⟩
    · rw [hdone]
      exact edited_advances (extended_revision back)
  | move direction select => exact .change (Or.inl (cancelled_kept e))
  | setPreedit text start length =>
    exact (setPreedit_spec h text start length).weaken fun _ s hs => Or.inl hs.2
  | commitPreedit =>
    refine .current ?_
    split_ifs
    · exact .pure (Or.inl ⟨rfl, rfl⟩)
    · exact (insert_spec h.high_le).weaken fun _ s hs => by
        rw [hs.2]
        exact replaced_advances
  | cancelPreedit => exact .change (Or.inl (cancelled_kept e))
  | history forward =>
    refine (history_spec forward).weaken fun _ s hs => ?_
    rcases hs with ⟨-, hsame⟩ | ⟨v, rest, -, hdone⟩
    · rw [hsame]
      exact Or.inl ⟨rfl, rfl⟩
    · rw [hdone]
      exact edited_advances rfl

structure Fresh (entries : List Entry) (e : Editor) (c : Completion) : Prop where
  past : ∀ r ∈ c.revision, r ≤ e.revision
  found : c.items ≠ [] → c.revision = some e.revision → query e.text c.caret = some c.range ∧
    c.items = matches_ entries (stemOf e.text c.range c.caret)
  selected : c.items ≠ [] → c.selected < c.items.length

variable {c : Completion}

theorem Fresh.default (entries : List Entry) (e : Editor) : Fresh entries e {} :=
  ⟨nofun, fun h => absurd rfl h, fun h => absurd rfl h⟩

theorem Fresh.advances {e' : Editor} (h : Fresh entries e c) (he : Advances e e') :
    Fresh entries e' c := by
  rcases he with ⟨htext, hrevision⟩ | hlater
  · refine ⟨?_, ?_, h.selected⟩
    · rw [hrevision]
      exact h.past
    · rw [hrevision, htext]
      exact h.found
  · refine ⟨fun r hr => (h.past r hr).trans hlater.le, fun _ hr => ?_, h.selected⟩
    exact absurd (h.past e'.revision hr) (Nat.not_le.mpr hlater)

/-- An update clears the completion, leaves it, or looks it up anew. -/
theorem update_cases (c : Completion) (enabled : Bool) : c.update entries e enabled = {} ∨
    enabled = true ∧ e.preedit = [] ∧ e.anchor = e.caret ∧
      (c.revision = some e.revision ∧ c.caret = e.caret ∧ c.update entries e enabled = c ∨
        c.update entries e enabled = { revision := some e.revision, caret := e.caret } ∨
        ∃ range, query e.text e.caret = some range ∧ c.update entries e enabled = {
          revision := some e.revision
          caret := e.caret
          range := range
          items := matches_ entries (stemOf e.text range e.caret) }) := by
  unfold Completion.update
  split
  next => exact Or.inl rfl
  next hon =>
    rw [Bool.not_eq_true, Bool.or_eq_false_iff, Bool.or_eq_false_iff] at hon
    obtain ⟨⟨henabled, hpreedit⟩, hselected⟩ := hon
    have hpreedit := of_decide_eq_false hpreedit
    have hclear := List.eq_nil_of_length_eq_zero (Nat.eq_zero_of_not_pos hpreedit)
    rw [Bool.not_eq_false'] at henabled
    refine Or.inr ⟨henabled, hclear, not_not.mp (of_decide_eq_false hselected), ?_⟩
    split
    next hsame =>
      rw [Bool.and_eq_true] at hsame
      exact Or.inl ⟨of_decide_eq_true hsame.1, of_decide_eq_true hsame.2, rfl⟩
    next =>
      split
      next => exact Or.inr (Or.inl rfl)
      next range hquery => exact Or.inr (Or.inr ⟨range, hquery, rfl⟩)

theorem Fresh.update (h : Fresh entries e c) (enabled : Bool) :
    Fresh entries e (c.update entries e enabled) := by
  rcases update_cases c enabled with hoff | ⟨-, -, -, ⟨-, -, hsame⟩ | hnone | ⟨range, hquery, hfound⟩⟩
  · rw [hoff]
    exact .default entries e
  · rw [hsame]
    exact h
  · rw [hnone]
    exact ⟨fun r hr => (Option.some.inj hr).ge, fun hne => absurd rfl hne, fun hne => absurd rfl hne⟩
  · rw [hfound]
    exact ⟨fun r hr => (Option.some.inj hr).ge, fun _ _ => ⟨hquery, rfl⟩,
      fun hne => List.length_pos_of_ne_nil hne⟩

theorem Fresh.cycle (h : Fresh entries e c) (backwards : Bool) :
    Fresh entries e (c.cycle backwards) := by
  unfold Completion.cycle
  split
  next => exact h
  next => exact ⟨h.past, h.found, fun hne => Nat.mod_lt _ (List.length_pos_of_ne_nil hne)⟩

structure Composer.Valid (entries : List Entry) (s : Composer) : Prop where
  editor : Editor.Valid s.editor
  fresh : Fresh entries s.editor s.completion

theorem visible_items (h : c.visible = true) : c.items ≠ [] := by
  rw [Completion.visible, Bool.and_eq_true] at h
  exact List.ne_nil_of_length_pos (of_decide_eq_true h.2)

/-- What is visible after an update was looked up for the text and the caret as they are. -/
theorem visible_current {enabled : Bool}
    (h : (c.update entries e enabled).visible = true) :
    enabled = true ∧ e.preedit = [] ∧ e.anchor = e.caret ∧
      (c.update entries e enabled).revision = some e.revision ∧
      (c.update entries e enabled).caret = e.caret := by
  rcases update_cases c enabled with hoff | ⟨henabled, hclear, hcollapsed, hlooked⟩
  · rw [hoff] at h
    exact absurd rfl (visible_items h)
  · refine ⟨henabled, hclear, hcollapsed, ?_⟩
    rcases hlooked with ⟨hrevision, hcaret, hsame⟩ | hnone | ⟨range, -, hfound⟩
    · rw [hsame]
      exact ⟨hrevision, hcaret⟩
    · rw [hnone]
      exact ⟨rfl, rfl⟩
    · rw [hfound]
      exact ⟨rfl, rfl⟩

theorem Composer.Valid.asked (h : s.Valid entries) {enabled : Bool}
    (hvisible : (s.completion.update entries s.editor enabled).visible = true) :
    ∃ stem, Asked s.editor.text s.editor.caret
        (s.completion.update entries s.editor enabled).range stem ∧
      (s.completion.update entries s.editor enabled).items = matches_ entries stem ∧
      (s.completion.update entries s.editor enabled).selected <
        (s.completion.update entries s.editor enabled).items.length := by
  have hfresh := h.fresh.update enabled
  obtain ⟨-, -, -, hrevision, hcaret⟩ := visible_current hvisible
  have hitems := visible_items hvisible
  obtain ⟨hquery, hmatches⟩ := hfresh.found hitems hrevision
  rw [hcaret] at hquery hmatches
  exact ⟨_, query_spec h.editor.here.caret.1 hquery, hmatches, hfresh.selected hitems⟩

/-- An entry that is chosen replaces the shortcode, or the editor stays as it is. -/
theorem choose_spec (h : s.Valid entries) (enabled : Bool) (index : Nat)
    (allocations : List Bool) :
    (s.chooseEmoji entries enabled index allocations).Valid entries ∧
      ((s.chooseEmoji entries enabled index allocations).editor = s.editor ∨
        ∃ entry, (s.completion.update entries s.editor enabled).items[index]? = some entry ∧
          (s.chooseEmoji entries enabled index allocations).editor = replaced (recorded s.editor)
            (s.completion.update entries s.editor enabled).range entry.text) := by
  have hfresh := h.fresh.update enabled
  unfold Composer.chooseEmoji
  dsimp only [Composer.refresh]
  split
  next => exact ⟨⟨h.editor, hfresh⟩, Or.inl rfl⟩
  next hvisible =>
    rw [Bool.not_eq_true, Bool.not_eq_false'] at hvisible
    split
    next => exact ⟨⟨h.editor, hfresh⟩, Or.inl rfl⟩
    next entry hentry =>
      obtain ⟨stem, hasked, -⟩ := h.asked hvisible
      obtain ⟨hstart, hstop⟩ := hasked.boundaries h.editor.here.caret
      have hle := hasked.start.le.trans hasked.order
      have hreplace : Spec s.editor (Editor.replace _ entry.text) _ := replace_spec hle hstop.1
      have hrun := hreplace ⟨s.editor, allocations⟩ rfl
      generalize Editor.replace _ entry.text ⟨s.editor, allocations⟩ = done at hrun ⊢
      obtain ⟨(err | _) | _, after⟩ := done
      · change after.editor = s.editor at hrun
        exact ⟨⟨hrun ▸ h.editor, hrun ▸ hfresh⟩, Or.inl hrun⟩
      · exact hrun.elim
      · obtain ⟨hfits, hdone⟩ := hrun
        refine ⟨⟨?_, .default entries _⟩, Or.inr ⟨entry, hentry, hdone⟩⟩
        change Editor.Valid after.editor
        rw [hdone]
        exact replace_valid h.editor hle hstart hstop hfits

theorem replace_fitting (hrange : range.start ≤ range.stop) (hstop : range.stop ≤ e.text.length)
    (hfits : Fits e range value) (hclean : 0 ∉ value) :
    (Editor.replace range value ⟨e, []⟩).1 = .ok () := by
  have hok : (utf8ValidateSlice value && !value.contains 0) = true := by
    rw [hfits.valid, Bool.true_and]
    simpa using hclean
  have hshort := hfits.short
  have halloc {P : Session → Prop} : Checked.Meets (fun s => P s ∧ s.allocations = [])
      (fun _ _ => False) alloc fun _ s => P s ∧ s.allocations = [] := by
    rintro ⟨editor, allocations⟩ ⟨hp, rfl⟩
    exact ⟨hp, rfl⟩
  have hmeets : Checked.Meets (fun s => s.editor = e ∧ s.allocations = []) (fun _ _ => False)
      (Editor.replace range value) fun _ _ => True := by
    refine Checked.Keeps.andThen (Checked.Keeps.get (Q := fun now => now = e) fun _ hs => hs.1)
      fun now hnow => ?_
    subst hnow
    refine Checked.Meets.bind (Q := fun _ s => s.editor = now ∧ s.allocations = [])
      (Checked.Meets.assert (by simp [hrange, hstop]) fun _ h => h) fun _ => ?_
    refine Checked.Meets.bind (Checked.Meets.passed hok) fun _ => ?_
    refine Checked.Keeps.andThen (Checked.Keeps.sub (by omega)) fun kept hkept => ?_
    refine Checked.Meets.bind (Checked.Meets.passed (decide_eq_true (hkept ▸ hshort))) fun _ => ?_
    refine Checked.Meets.bind halloc fun _ => ?_
    refine Checked.Meets.bind (Checked.Meets.bind halloc fun _ => Checked.Meets.bind halloc
      fun _ => Checked.Meets.modify (Q := fun _ _ => True) fun _ _ => trivial) fun _ => ?_
    exact Checked.Meets.modify fun _ _ => trivial
  have hrun := hmeets ⟨e, []⟩ ⟨rfl, rfl⟩
  generalize Editor.replace range value ⟨e, []⟩ = done at hrun ⊢
  obtain ⟨(err | _) | _, after⟩ := done
  · exact hrun.elim
  · exact hrun.elim
  · rfl

theorem choose_fitting (h : s.Valid entries) {enabled : Bool}
    (hvisible : (s.completion.update entries s.editor enabled).visible = true)
    {index : Nat} {entry : Entry}
    (hentry : (s.completion.update entries s.editor enabled).items[index]? = some entry)
    (hfits : Fits s.editor (s.completion.update entries s.editor enabled).range entry.text)
    (hclean : 0 ∉ entry.text) :
    (s.chooseEmoji entries enabled index []).editor = replaced (recorded s.editor)
      (s.completion.update entries s.editor enabled).range entry.text := by
  obtain ⟨stem, hasked, -⟩ := h.asked hvisible
  have hle := hasked.start.le.trans hasked.order
  have hreplace : Spec s.editor (Editor.replace _ entry.text) _ := replace_spec hle hasked.within
  have hrun := hreplace ⟨s.editor, []⟩ rfl
  have hmade := replace_fitting hle hasked.within hfits hclean
  unfold Composer.chooseEmoji
  dsimp only [Composer.refresh]
  rw [if_neg (by simp [hvisible]), hentry]
  dsimp only
  generalize Editor.replace _ entry.text ⟨s.editor, []⟩ = done at hrun hmade ⊢
  obtain ⟨(err | _) | _, after⟩ := done
  · cases hmade
  · cases hmade
  · exact hrun.2

theorem Composing.valid (hb : Boundaries boundary) (h : Composing boundary entries s) :
    s.Valid entries := by
  induction h with
  | empty => exact ⟨Valid.empty, .default entries _⟩
  | edit _ op hop allocations ih =>
    have hspec := (op.run_spec hb ih.editor hop).and (run_advances hb ih.editor op hop)
    have hrun := hspec.leaves (s := ⟨_, allocations⟩) rfl
      (B := fun after => Editor.Valid after.editor ∧ Advances _ after.editor) (fun _ _ hs => hs)
      fun _ after hs => ⟨hs.1 ▸ ih.editor, hs.1 ▸ Or.inl ⟨rfl, rfl⟩⟩
    exact ⟨hrun.2.1, ih.fresh.advances hrun.2.2⟩
  | place _ hclear hcaret hanchor ih =>
    refine ⟨⟨⟨ih.editor.here.valid, ih.editor.here.short, hcaret, hanchor⟩, ih.editor.undo,
      ih.editor.redo, ih.editor.bounded, fun hne => absurd hclear hne⟩, ?_⟩
    exact ih.fresh.advances (Or.inl ⟨rfl, rfl⟩)
  | refresh _ enabled ih => exact ⟨ih.editor, ih.fresh.update enabled⟩
  | cycle _ backwards ih => exact ⟨ih.editor, ih.fresh.cycle backwards⟩
  | dismiss _ ih => exact ⟨ih.editor, ih.fresh.past, ih.fresh.found, ih.fresh.selected⟩
  | choose _ enabled index allocations ih => exact (choose_spec ih enabled index allocations).1

def Chosen (e e' : Editor) (range : Editor.Range) (entry : Entry) : Prop :=
  e'.here = ⟨e.text.take range.start ++ entry.text ++ e.text.drop range.stop,
    range.start + entry.text.length, range.start + entry.text.length⟩

/-- The shortcode at the caret, and what it may become. -/
structure Completes (entries : List Entry) (e : Editor) (c : Completion) (stem : Bytes) : Prop where
  clear : e.preedit = []
  collapsed : e.anchor = e.caret
  asked : Asked e.text e.caret c.range stem
  items : c.items = entries.filter fun entry => stem.isPrefixOf entry.name
  selected : c.selected < c.items.length

/-- No completion that can be seen is stale: however the text was edited, it completes what
stands at the caret, with all entries that begin with what was typed. A choice replaces
that shortcode or nothing. -/
theorem completion_current (hb : Boundaries boundary) (hordered : Ordered entries)
    (h : Composing boundary entries s) (enabled : Bool)
    (hvisible : (s.refresh entries enabled).completion.visible = true) :
    enabled = true ∧
      (∃ stem, Completes entries s.editor (s.refresh entries enabled).completion stem) ∧
      (∀ index allocations, (s.chooseEmoji entries enabled index allocations).editor = s.editor ∨
        ∃ entry, (s.refresh entries enabled).completion.items[index]? = some entry ∧
          Chosen s.editor (s.chooseEmoji entries enabled index allocations).editor
            (s.refresh entries enabled).completion.range entry) ∧
      ∀ (index : Nat) entry, (s.refresh entries enabled).completion.items[index]? = some entry →
        Fits s.editor (s.refresh entries enabled).completion.range entry.text →
        0 ∉ entry.text → Chosen s.editor (s.chooseEmoji entries enabled index []).editor
          (s.refresh entries enabled).completion.range entry := by
  have hvalid := h.valid hb
  obtain ⟨henabled, hclear, hcollapsed, -⟩ := visible_current hvisible
  obtain ⟨stem, hasked, hitems, hselected⟩ := hvalid.asked hvisible
  refine ⟨henabled, ⟨stem, hclear, hcollapsed, hasked, ?_, hselected⟩, fun index allocations => ?_,
    fun index entry hentry hfits hclean => ?_⟩
  · exact hitems.trans (matches_eq hordered hasked.typed)
  · rcases (choose_spec hvalid enabled index allocations).2 with hsame | ⟨entry, hentry, hdone⟩
    · exact Or.inl hsame
    · refine Or.inr ⟨entry, hentry, ?_⟩
      rw [Chosen, hdone]
      exact replaced_here _ _ _
  · rw [Chosen, choose_fitting hvalid hvisible hentry hfits hclean]
    exact replaced_here _ _ _

end Composers

def faces : List Entry := smile ++ [⟨[0x73, 0x6D], [0xF0, 0x9F, 0x98, 0x83]⟩]

/-- The caret is put inside the first of two shortcodes, and the second face that it may become
replaces it with its colon. The second shortcode stays. -/
theorem completion_current_faces :
    (((Composer.edit ends (.insert [0x3A, 0x73, 0x6D, 0x3A, 0x73, 0x3A]) [] {}).place 2
      2).chooseEmoji faces true 1 []).editor.text =
        [0xF0, 0x9F, 0x98, 0x83, 0x73, 0x3A] := by
  have hordered : Ordered faces := by
    unfold Ordered faces smile
    decide
  have htyped : Composing ends faces
      (Composer.edit ends (.insert [0x3A, 0x73, 0x6D, 0x3A, 0x73, 0x3A]) [] {}) :=
    .edit .empty (.insert [0x3A, 0x73, 0x6D, 0x3A, 0x73, 0x3A]) trivial []
  have hcomposing : Composing ends faces
      ((Composer.edit ends (.insert [0x3A, 0x73, 0x6D, 0x3A, 0x73, 0x3A]) [] {}).place 2 2) :=
    htyped.place (by decide +kernel) ⟨by decide +kernel, by decide +kernel⟩
      ⟨by decide +kernel, by decide +kernel⟩
  have hcurrent := completion_current ends_boundaries hordered hcomposing true (by decide +kernel)
  have hchosen := hcurrent.2.2.2 1 ⟨[0x73, 0x6D], [0xF0, 0x9F, 0x98, 0x83]⟩ (by decide +kernel)
    ⟨by decide +kernel, by decide +kernel⟩ (by decide)
  rw [Chosen] at hchosen
  refine (congrArg Checkpoint.text hchosen).trans ?_
  decide +kernel

end Zimbr.Emoji
