import Zimbr.Client.Editor
import Zimbr.Library.Timeline

set_option autoImplicit false

/-!
# Undoing edits

Undoing goes back over what the edits saved of the document and its selection. A deletion
without a selection saves the one it has made up.
-/
namespace Zimbr.Editor
open Library

variable (boundary : Bytes → Nat → Int → Nat)

def Makes (op : Op) (e e' : Editor) : Prop :=
  ∃ allocations rest, op.run boundary ⟨e, allocations⟩ = (.ok (), ⟨e', rest⟩)

inductive MakesAll : List Op → Editor → Editor → Prop where
  | nil (e : Editor) : MakesAll [] e e
  | cons {op : Op} {ops : List Op} {e e₁ e' : Editor} (first : Makes boundary op e e₁)
      (rest : MakesAll ops e₁ e') : MakesAll (op :: ops) e e'

namespace Op

def edits : Op → Bool
  | insert _ | replace _ _ | delete _ | commitPreedit => true
  | _ => false

def Unselected (e : Editor) : Op → Prop
  | delete _ => e.caret = e.anchor
  | _ => False

def saved (e : Editor) : Op → Checkpoint
  | delete back => (extended boundary back e).here
  | _ => e.here

end Op

/-- An edit that changed the document, as its revision counts the changes. -/
structure Changes (op : Op) (e e' : Editor) : Prop where
  edits : op.edits = true
  allowed : op.Allowed e
  makes : Makes boundary op e e'
  changed : e'.revision ≠ e.revision

inductive ChangesAll : List Op → Editor → Editor → Prop where
  | nil (e : Editor) : ChangesAll [] e e
  | cons {op : Op} {ops : List Op} {e e₁ e' : Editor} (first : Changes boundary op e e₁)
      (rest : ChangesAll ops e₁ e') : ChangesAll (op :: ops) e e'

def timeline (e : Editor) : Timeline Checkpoint := ⟨e.undo, e.here, e.redo⟩

variable {boundary} {e e' : Editor} {op : Op} {ops : List Op}

theorem bounded_take {stack : List Checkpoint} (h : stack.length ≤ 101) :
    bounded stack = stack.take 100 := by
  unfold bounded
  split_ifs with hfull
  · rw [List.dropLast_eq_take]
    congr 1
    omega
  · exact (List.take_of_length_le (by omega)).symm

theorem replaced_timeline (h : Valid e) (range : Range) (value : Bytes) :
    (replaced (recorded e) range value).timeline =
      e.timeline.record 100 e.here (replaced (recorded e) range value).here := by
  have hlength : (e.here :: e.undo).length ≤ 101 := by
    have hbounded := h.bounded
    rw [List.length_cons]
    omega
  have hundo : (replaced (recorded e) range value).undo = (e.here :: e.undo).take 100 :=
    (edited_undo _).trans (bounded_take hlength)
  have hredo : (replaced (recorded e) range value).redo = [] := edited_redo _
  rw [timeline, hundo, hredo]
  rfl

theorem extended_selected (back : Bool) (h : e.caret ≠ e.anchor) : extended boundary back e = e :=
  if_neg (Ne.symm h)

theorem extended_undo (back : Bool) (e : Editor) : (extended boundary back e).undo = e.undo := by
  unfold extended
  split_ifs <;> rfl

/-- An edit saves one state and drops what was undone. -/
theorem Changes.timeline (hb : Boundaries boundary) (hv : Valid e) (h : Changes boundary op e e') :
    e'.timeline = e.timeline.record 100 (op.saved boundary e) e'.here := by
  obtain ⟨hedits, hallowed, ⟨allocations, rest, hrun⟩, hchanged⟩ := h
  cases op with
  | insert value =>
    rw [((insert_spec hv.high_le).made hrun).2]
    exact replaced_timeline hv _ _
  | replace range value =>
    rw [((replace_spec hallowed.1 hallowed.2.2.1).made hrun).2]
    exact replaced_timeline hv _ _
  | delete back =>
    rcases (delete_spec hb hv back).made hrun with rfl | ⟨-, -, hdone⟩
    · exact absurd rfl hchanged
    · have hext := replaced_timeline (extended_valid hb hv back)
        (extended boundary back e).selection []
      rw [hdone, hext]
      unfold Editor.timeline Timeline.record
      rw [extended_undo]
      rfl
  | commitPreedit =>
    change Editor.commitPreedit _ = _ at hrun
    obtain ⟨now, s, hnow, hrun⟩ := Checked.bind_ok.mp hrun
    obtain ⟨rfl, rfl⟩ := Checked.get_ok.mp hnow
    split_ifs at hrun
    · cases (Checked.pure_ok.mp hrun).2
      exact absurd rfl hchanged
    · rw [((insert_spec hv.high_le).made hrun).2]
      exact replaced_timeline hv _ _
  | _ => exact nomatch hedits

theorem Changes.saved_iff (hb : Boundaries boundary) (hv : Valid e) (h : Changes boundary op e e') :
    op.saved boundary e = e.here ↔ ¬op.Unselected e := by
  obtain ⟨-, -, ⟨allocations, rest, hrun⟩, hchanged⟩ := h
  cases op with
  | delete back =>
    rcases (delete_spec hb hv back).made hrun with rfl | ⟨hmoved, -, -⟩
    · exact absurd rfl hchanged
    · change (extended boundary back e).here = e.here ↔ e.caret ≠ e.anchor
      constructor
      · intro hsame hnone
        refine hmoved ?_
        have hanchor := congrArg Checkpoint.anchor hsame
        have hcaret := congrArg Checkpoint.caret hsame
        exact hanchor.trans (hnone.symm.trans hcaret.symm)
      · intro hselected
        rw [extended_selected back hselected]
  | _ => exact iff_of_true rfl not_false

theorem Changes.valid (hb : Boundaries boundary) (hv : Valid e) (h : Changes boundary op e e') :
    Valid e' := by
  obtain ⟨allocations, rest, hrun⟩ := h.makes
  exact (op.run_spec hb hv h.allowed).made hrun

theorem ChangesAll.records (hb : Boundaries boundary) (hv : Valid e)
    (h : ChangesAll boundary ops e e') : ∃ edits, edits.length = ops.length ∧
      e'.timeline = e.timeline.records 100 edits ∧
      edits.head?.map Prod.fst = ops.head?.map (Op.saved boundary e) := by
  induction h with
  | nil e => exact ⟨[], rfl, rfl, rfl⟩
  | @cons op ops e e₁ e' first _ ih =>
    obtain ⟨edits, hlength, htimeline, -⟩ := ih (first.valid hb hv)
    refine ⟨(op.saved boundary e, e₁.here) :: edits, congrArg (· + 1) hlength, ?_, rfl⟩
    rw [htimeline, first.timeline hb hv]
    rfl

theorem restored_timeline (forward : Bool) (v : Checkpoint) (rest : List Checkpoint) :
    (restored forward v rest e).timeline =
      ⟨if forward then e.here :: e.undo else rest, v, if forward then rest else e.here :: e.redo⟩ := by
  unfold restored timeline
  rw [edited_undo, edited_redo, edited_here]
  rfl

theorem Makes.timeline {forward : Bool} (h : Makes boundary (.history forward) e e') :
    e'.timeline = if forward then e.timeline.forth else e.timeline.back := by
  obtain ⟨allocations, rest, hrun⟩ := h
  rcases (history_spec forward).made hrun with ⟨hnil, rfl⟩ | ⟨v, rest, hcons, rfl⟩
  · cases forward with
    | true =>
      change e'.redo = [] at hnil
      rw [if_pos rfl, Timeline.forth, timeline, hnil]
    | false =>
      change e'.undo = [] at hnil
      rw [if_neg Bool.false_ne_true, Timeline.back, timeline, hnil]
  · rw [restored_timeline]
    cases forward with
    | true =>
      change e.redo = v :: rest at hcons
      rw [if_pos rfl, Timeline.forth, timeline, hcons]
      rfl
    | false =>
      change e.undo = v :: rest at hcons
      rw [if_neg Bool.false_ne_true, Timeline.back, timeline, hcons]
      rfl

theorem MakesAll.back {n : Nat} (h : MakesAll boundary (.replicate n (.history false)) e e') :
    e'.timeline = Timeline.back^[n] e.timeline := by
  induction n generalizing e with
  | zero =>
    cases h
    rfl
  | succ n ih =>
    cases h with
    | cons first rest => rw [ih rest, first.timeline, Function.iterate_succ_apply, if_neg Bool.false_ne_true]

theorem MakesAll.forth {n : Nat} (h : MakesAll boundary (.replicate n (.history true)) e e') :
    e'.timeline = Timeline.forth^[n] e.timeline := by
  induction n generalizing e with
  | zero =>
    cases h
    rfl
  | succ n ih =>
    cases h with
    | cons first rest => rw [ih rest, first.timeline, Function.iterate_succ_apply, if_pos rfl]

theorem history_made (forward : Bool) (e : Editor) : ∃ e', Makes boundary (.history forward) e e' := by
  change ∃ e' allocations rest, history forward ⟨e, allocations⟩ = (.ok (), ⟨e', rest⟩)
  cases hfrom : if forward then e.redo else e.undo with
  | nil =>
    refine ⟨e, [], [], Checked.bind_ok.mpr ⟨e, ⟨e, []⟩, rfl, ?_⟩⟩
    rw [hfrom]
    rfl
  | cons v rest =>
    refine ⟨restored forward v rest e, [], [], Checked.bind_ok.mpr ⟨e, ⟨e, []⟩, rfl, ?_⟩⟩
    rw [hfrom]
    rfl

theorem histories_made (forward : Bool) (n : Nat) (e : Editor) :
    ∃ e', MakesAll boundary (.replicate n (.history forward)) e e' := by
  induction n generalizing e with
  | zero => exact ⟨e, .nil e⟩
  | succ n ih =>
    obtain ⟨e₁, hfirst⟩ := history_made forward e
    obtain ⟨e', hrest⟩ := ih e₁
    exact ⟨e', .cons hfirst hrest⟩

theorem ChangesAll.kept (hb : Boundaries boundary) (hv : Valid e)
    (h : ChangesAll boundary ops e e') (hlength : ops.length ≤ 100) :
    ops.length ≤ e'.timeline.past.length := by
  obtain ⟨edits, hedits, htimeline, -⟩ := h.records hb hv
  have hbounded : e.timeline.past.length ≤ 100 := (Nat.le_add_right _ _).trans hv.bounded
  rw [htimeline, Timeline.records_past hbounded, List.length_take, List.length_append,
    List.length_reverse, List.length_map, hedits]
  omega

/-- The oldest state gone back to is the one the first edit saved. -/
theorem ChangesAll.back (hb : Boundaries boundary) (hv : Valid e) {undone : Editor}
    (h : ChangesAll boundary (op :: ops) e e') (hlength : (op :: ops).length ≤ 100)
    (hundo : MakesAll boundary (.replicate (op :: ops).length (.history false)) e' undone) :
    undone.here = op.saved boundary e := by
  obtain ⟨edits, hedits, htimeline, hhead⟩ := h.records hb hv
  have hbounded : e.timeline.past.length ≤ 100 := (Nat.le_add_right _ _).trans hv.bounded
  cases edits with
  | nil => exact nomatch hedits
  | cons edit edits =>
    have hback := hundo.back
    have hsaved : edit.1 = op.saved boundary e := Option.some.inj hhead
    rw [htimeline, ← hedits] at hback
    have hhere : (Timeline.back^[edits.length + 1] (e.timeline.records 100 (edit :: edits))).here =
        edit.1 := Timeline.back_records hbounded (hedits.trans_le hlength)
    rw [← hsaved, ← hhere]
    exact congrArg Timeline.here hback

/-- Undoing up to a hundred edits comes back to where they started exactly if the first
of them is not a deletion without a selection; redoing them comes back to where they ended. -/
theorem undo_restores (hb : Boundaries boundary) (h : Reachable boundary e)
    (hops : ChangesAll boundary ops e e') (hlength : ops.length ≤ 100) :
    (∃ undone, MakesAll boundary (.replicate ops.length (.history false)) e' undone) ∧
      ∀ undone, MakesAll boundary (.replicate ops.length (.history false)) e' undone →
        (undone.here = e.here ↔ ∀ op ∈ ops.head?, ¬op.Unselected e) ∧
        (∃ redone, MakesAll boundary (.replicate ops.length (.history true)) undone redone) ∧
        ∀ redone, MakesAll boundary (.replicate ops.length (.history true)) undone redone →
          redone.here = e'.here := by
  have hv := h.valid hb
  refine ⟨histories_made _ _ _, fun undone hundo => ⟨?_, histories_made _ _ _, fun redone hredo => ?_⟩⟩
  · cases ops with
    | nil =>
      cases hops
      cases hundo
      exact iff_of_true rfl nofun
    | cons op ops =>
      rw [hops.back hb hv hlength hundo]
      have hfirst : op.saved boundary e = e.here ↔ ¬op.Unselected e := by
        cases hops with
        | cons first rest => exact first.saved_iff hb hv
      rw [hfirst, List.head?_cons]
      simp
  · have hforth := hredo.forth
    rw [hundo.back, Timeline.forth_back_iterate _ (hops.kept hb hv hlength)] at hforth
    exact congrArg Timeline.here hforth

def typed : Editor := ((Op.insert [0x61]).run ends ⟨empty, []⟩).2.editor

def shortened : Editor := ((Op.delete true).run ends ⟨typed, []⟩).2.editor

theorem typed_reachable : Reachable ends typed := .step .empty (.insert [0x61]) trivial []

theorem shortened_changes : Changes ends (.delete true) typed shortened :=
  ⟨rfl, trivial, ⟨[], [], rfl⟩, by decide⟩

/-- A typed character is undone. -/
theorem undo_restores_typed : ∃ undone, MakesAll ends [.history false] typed undone ∧
    undone.here = empty.here := by
  have hops : ChangesAll ends [.insert [0x61]] empty typed :=
    .cons ⟨rfl, trivial, ⟨[], [], rfl⟩, by decide⟩ (.nil typed)
  obtain ⟨⟨undone, hundo⟩, hall⟩ := undo_restores ends_boundaries .empty hops (by decide)
  refine ⟨undone, hundo, (hall undone hundo).1.mpr fun op hop => ?_⟩
  cases hop
  exact not_false

/-- A deleted character is selected once it is back. -/
theorem deletion_selected : ¬∀ boundary, Boundaries boundary → ∀ e, Reachable boundary e →
    ∀ op e' undone, Changes boundary op e e' → Makes boundary (.history false) e' undone →
      undone.here = e.here := by
  intro h
  have hsame := h ends ends_boundaries typed typed_reachable (.delete true) shortened
    ((Op.history false).run ends ⟨shortened, []⟩).2.editor shortened_changes ⟨[], [], rfl⟩
  exact absurd hsame (by decide)

end Zimbr.Editor
