import Mathlib.Order.MinMax
import Zimbr.Library.Checked
import Zimbr.Protocol.Types
import Zimbr.Protocol.Utf8Decode

set_option autoImplicit false

/-!
# The text editor

A document with a caret and the other end of its selection, the text being composed, and
what can be undone. Offsets count bytes and stay on character boundaries.
-/
namespace Zimbr
open Library

structure Checkpoint where
  text : Bytes
  caret : Nat
  anchor : Nat
  deriving DecidableEq, Repr

/-- The undone and the undoable states stand newest first. -/
structure Editor where
  text : Bytes
  caret : Nat
  anchor : Nat
  undo : List Checkpoint
  redo : List Checkpoint
  revision : Nat
  preedit : Bytes
  preeditStart : Nat
  preeditEnd : Nat
  preeditRevision : Nat
  deriving DecidableEq, Repr

namespace Editor

def empty : Editor := ⟨[], 0, 0, [], [], 0, [], 0, 0, 0⟩

structure Range where
  start : Nat
  stop : Nat
  deriving DecidableEq, Repr

inductive EditError where
  | outOfMemory | invalidText | textTooLarge
  deriving DecidableEq, Repr

/-- An editor, and whether the allocations to come succeed; those past the list do. -/
structure Session where
  editor : Editor
  allocations : List Bool

abbrev Edits (α : Type) : Type := Checked EditError Session α

def alloc : Edits Unit := fun s =>
  match s.allocations with
  | [] => (.ok (), s)
  | true :: rest => (.ok (), { s with allocations := rest })
  | false :: rest => (.error (.error .outOfMemory), { s with allocations := rest })

def current : Edits Editor := Checked.get (·.editor)

def change (f : Editor → Editor) : Edits Unit :=
  Checked.modify fun s => { s with editor := f s.editor }

def here (e : Editor) : Checkpoint := ⟨e.text, e.caret, e.anchor⟩

def low (e : Editor) : Nat := min e.caret e.anchor

def high (e : Editor) : Nat := max e.caret e.anchor

def selection (e : Editor) : Range := ⟨e.low, e.high⟩

def cancelled (e : Editor) : Editor :=
  if e.preedit.isEmpty then e
  else { e with preedit := [], preeditRevision := e.preeditRevision + 1 }

def cancelPreedit : Edits Unit := change cancelled

def edited (e : Editor) : Editor :=
  let e := cancelled e
  { e with revision := e.revision + 1 }

def set (text : Bytes) : Edits Unit := do
  Checked.require (text.length ≤ maxText && utf8ValidateSlice text) .invalidText
  alloc
  change fun e => edited { e with
    text := text, caret := text.length, anchor := text.length, undo := [], redo := [] }

def selected (e : Editor) : Edits Bytes := Checked.slice e.text e.low (e.high - e.low)

/-- The loop of `characterOffset` from an offset on. -/
def offsetFrom (text : Bytes) : Nat → Nat → Edits Nat
  | 0, offset => pure offset
  | remaining + 1, offset =>
    if offset < text.length then do
      let first ← Checked.index text offset
      let n ← Checked.orTrap (utf8ByteSequenceLength first)
      offsetFrom text remaining (offset + n)
    else pure offset

def characterOffset (text : Bytes) (count : Nat) : Edits Nat := offsetFrom text count 0

/-- Where a selection of the composed text starts; a negative offset is unknown. -/
def firstOffset (text : Bytes) (start : Int) : Edits Nat :=
  if start < 0 then pure text.length else characterOffset text start.toNat

def setPreedit (text : Bytes) (start length : Int) : Edits Unit := do
  Checked.require (utf8ValidateSlice text && !text.contains 0) .invalidText
  let e ← current
  let selected ← selected e
  let kept ← Checked.sub e.text.length selected.length
  let room ← Checked.sub maxText kept
  Checked.require (text.length ≤ room) .textTooLarge
  alloc
  let first ← firstOffset text start
  let rest ← Checked.slice text first (text.length - first)
  let count ← characterOffset rest (max 0 length).toNat
  change fun e => { e with
    preedit := text, preeditStart := first, preeditEnd := first + count,
    preeditRevision := e.preeditRevision + 1 }

def bounded (stack : List Checkpoint) : List Checkpoint :=
  if 100 < stack.length then stack.dropLast else stack

/-- Room for the text is made before room in the history. -/
def checkpoint : Edits Unit := do
  alloc
  alloc
  change fun e => { e with undo := bounded (e.here :: e.undo), redo := [] }

def replaced (e : Editor) (range : Range) (value : Bytes) : Editor :=
  edited { e with
    text := e.text.take range.start ++ value ++ e.text.drop range.stop
    caret := range.start + value.length
    anchor := range.start + value.length }

def replace (range : Range) (value : Bytes) : Edits Unit := do
  let e ← current
  Checked.assert (range.start ≤ range.stop && range.stop ≤ e.text.length)
  Checked.require (utf8ValidateSlice value && !value.contains 0) .invalidText
  let kept ← Checked.sub e.text.length (range.stop - range.start)
  Checked.require (kept + value.length ≤ maxText) .textTooLarge
  alloc
  checkpoint
  change fun e => replaced e range value

def insert (value : Bytes) : Edits Unit := do
  let e ← current
  replace e.selection value

/-- The composed text is inserted as one edit; it stays if that fails. -/
def commitPreedit : Edits Unit := do
  let e ← current
  if e.preedit.isEmpty then pure () else insert e.preedit

structure Display where
  text : Bytes
  caret : Nat
  selection : Range
  composition : Option Range
  deriving DecidableEq, Repr

/-- What is shown, unless a part of it lies outside its text or the buffer. -/
def display (e : Editor) : Option Display :=
  let preeditEnd := e.low + e.preedit.length
  let length := preeditEnd + e.text.length - e.high
  if e.preedit.isEmpty then some ⟨e.text, e.caret, e.selection, none⟩
  else if e.high ≤ e.text.length ∧ preeditEnd ≤ length ∧ length ≤ maxText then
    some {
      text := e.text.take e.low ++ e.preedit ++ e.text.drop e.high
      caret := e.low + e.preeditStart
      selection := ⟨e.low + e.preeditStart, e.low + e.preeditEnd⟩
      composition := some ⟨e.low, preeditEnd⟩ }
  else none

def restored (forward : Bool) (v : Checkpoint) (rest : List Checkpoint) (e : Editor) : Editor :=
  edited { e with
    text := v.text, caret := v.caret, anchor := v.anchor
    undo := if forward then e.here :: e.undo else rest
    redo := if forward then rest else e.here :: e.redo }

def history (forward : Bool) : Edits Unit := do
  let e ← current
  match if forward then e.redo else e.undo with
  | [] => pure ()
  | v :: rest => do
    alloc
    alloc
    alloc
    change (restored forward v rest)

section Boundaries

-- `zc_text_boundary`, of a text, a position and a direction
variable (boundary : Bytes → Nat → Int → Nat)

def moved (direction : Int) (select : Bool) (e : Editor) : Editor :=
  let e := cancelled e
  let caret :=
    if !select && e.anchor ≠ e.caret then if direction < 0 then e.low else e.high
    else boundary e.text e.caret direction
  { e with caret := caret, anchor := if select then e.anchor else caret }

def move (direction : Int) (select : Bool) : Edits Unit := change (moved boundary direction select)

/-- The selection, or what lies up to the next boundary if there is none. -/
def extended (back : Bool) (e : Editor) : Editor :=
  if e.anchor = e.caret then { e with anchor := boundary e.text e.caret (if back then -1 else 1) }
  else e

def delete (back : Bool) : Edits Unit := do
  let before ← current
  Checked.errdefer (do
    change (extended boundary back)
    let e ← current
    if e.anchor = e.caret then pure () else insert [])
    fun s => { s with editor := { s.editor with anchor := before.anchor } }

inductive Op where
  | set (text : Bytes)
  | insert (value : Bytes)
  | replace (range : Range) (value : Bytes)
  | delete (back : Bool)
  | move (direction : Int) (select : Bool)
  | setPreedit (text : Bytes) (start length : Int)
  | commitPreedit
  | cancelPreedit
  | history (forward : Bool)
  deriving DecidableEq, Repr

namespace Op

def run : Op → Edits Unit
  | set text => Editor.set text
  | insert value => Editor.insert value
  | replace range value => Editor.replace range value
  | delete back => Editor.delete boundary back
  | move direction select => Editor.move boundary direction select
  | setPreedit text start length => Editor.setPreedit text start length
  | commitPreedit => Editor.commitPreedit
  | cancelPreedit => Editor.cancelPreedit
  | history forward => Editor.history forward

/-- What `replace` assumes of its range. -/
def Allowed (e : Editor) : Op → Prop
  | replace range _ =>
    range.start ≤ range.stop ∧ Boundary e.text range.start ∧ Boundary e.text range.stop
  | _ => True

end Op

inductive Reachable : Editor → Prop where
  | empty : Reachable Editor.empty
  | step {e : Editor} (h : Reachable e) (op : Op) (hop : op.Allowed e) (allocations : List Bool) :
      Reachable (op.run boundary ⟨e, allocations⟩).2.editor

end Boundaries

/-! What an operation makes of an editor, and that it leaves it as it was if it fails. -/

section Specs

variable {α β : Type} {e : Editor}

def Spec (e : Editor) (m : Edits α) (Q : α → Editor → Prop) : Prop :=
  Checked.Meets (fun s => s.editor = e) (fun _ s => s.editor = e) m fun a s => Q a s.editor

abbrev Leaves (e : Editor) (m : Edits α) (Q : α → Prop) : Prop :=
  Checked.Keeps (fun s => s.editor = e) (fun _ s => s.editor = e) m Q

theorem same_editor : ∀ (_ : EditError) (s : Session), s.editor = e → s.editor = e := fun _ _ h => h

theorem alloc_leaves : Leaves e alloc fun _ => True := by
  intro s hs
  obtain ⟨editor, allocations⟩ := s
  match allocations with
  | [] => exact ⟨trivial, hs⟩
  | true :: rest => exact ⟨trivial, hs⟩
  | false :: rest => exact hs

theorem current_leaves : Leaves e current fun now => now = e := Checked.Keeps.get fun _ hs => hs

theorem require_leaves (ok : Bool) (err : EditError) :
    Leaves e (Checked.require ok err) fun _ => ok = true := Checked.Keeps.require same_editor

variable {m : Edits α} {k : α → Edits β} {R : α → Prop} {Q : β → Editor → Prop}

theorem Spec.bind (hm : Leaves e m R) (hk : ∀ a, R a → Spec e (k a) Q) : Spec e (m >>= k) Q :=
  hm.andThen hk

theorem Spec.pure {b : β} (h : Q b e) : Spec e (Pure.pure b) Q := by
  intro s hs
  change Q b s.editor
  rwa [hs]

theorem Spec.change {f : Editor → Editor} {Q : Unit → Editor → Prop} (h : Q () (f e)) :
    Spec e (Editor.change f) Q := by
  intro s hs
  change Q () (f s.editor)
  rwa [hs]

theorem Spec.current {k : Editor → Edits β} (h : Spec e (k e) Q) :
    Spec e (Editor.current >>= k) Q := .bind current_leaves fun now hnow => by rwa [hnow]

theorem Spec.alloc {k : Edits β} (h : Spec e k Q) : Spec e (Editor.alloc >>= fun _ => k) Q :=
  .bind alloc_leaves fun _ _ => h

theorem Spec.require {ok : Bool} {err : EditError} {k : Edits β} (h : ok = true → Spec e k Q) :
    Spec e (Checked.require ok err >>= fun _ => k) Q :=
  .bind (require_leaves ok err) fun _ hok => h hok

theorem Spec.assert {ok : Bool} {k : Edits β} (hok : ok = true) (h : Spec e k Q) :
    Spec e (Checked.assert ok >>= fun _ => k) Q := by
  subst hok
  exact h

theorem Spec.made {Q : α → Editor → Prop} (h : Spec e m Q) {a : α} {allocations rest : List Bool}
    {e' : Editor} (hm : m ⟨e, allocations⟩ = (.ok a, ⟨e', rest⟩)) : Q a e' :=
  Checked.Meets.returned h (s := ⟨e, allocations⟩) rfl hm

def recorded (e : Editor) : Editor := { e with undo := bounded (e.here :: e.undo), redo := [] }

theorem Spec.checkpoint {f : Editor → Editor} {Q : Unit → Editor → Prop} (h : Q () (f (recorded e))) :
    Spec e (Editor.checkpoint >>= fun _ => Editor.change f) Q := by
  have hsaved : Checked.Meets (fun s => s.editor = e) (fun _ s => s.editor = e) Editor.checkpoint
      fun _ s => s.editor = recorded e := by
    refine .bind (alloc_leaves.mono (fun _ h => h) fun _ _ h => h.2) fun _ => ?_
    refine .bind (alloc_leaves.mono (fun _ h => h) fun _ _ h => h.2) fun _ => ?_
    refine Checked.Meets.modify fun s hs => ?_
    rw [hs]
    rfl
  refine Checked.Meets.bind hsaved fun _ => Checked.Meets.modify fun s hs => ?_
  change Q () (f s.editor)
  rwa [hs]

variable {range : Range} {value : Bytes}

/-- What `replace` checks of its value. -/
structure Fits (e : Editor) (range : Range) (value : Bytes) : Prop where
  valid : utf8ValidateSlice value = true
  short : e.text.length - (range.stop - range.start) + value.length ≤ maxText

theorem replace_spec (hrange : range.start ≤ range.stop) (hstop : range.stop ≤ e.text.length) :
    Spec e (replace range value) fun _ e' =>
      Fits e range value ∧ e' = replaced (recorded e) range value := by
  refine .current (.assert (by simp [hrange, hstop]) (.require fun hvalid => ?_))
  refine .bind (.sub (by omega)) fun kept hkept => .require fun hshort => ?_
  rw [Bool.and_eq_true] at hvalid
  exact .alloc (.checkpoint ⟨⟨hvalid.1, hkept ▸ of_decide_eq_true hshort⟩, rfl⟩)

end Specs

/-! The representation invariant. -/

section Valid

structure Document (c : Checkpoint) : Prop where
  valid : utf8ValidateSlice c.text = true
  short : c.text.length ≤ maxText
  caret : Boundary c.text c.caret
  anchor : Boundary c.text c.anchor

/-- The composed text fits the document, and its offsets lie within it. -/
structure Composed (e : Editor) : Prop where
  order : e.preeditStart ≤ e.preeditEnd
  within : e.preeditEnd ≤ e.preedit.length
  short : e.text.length - (e.high - e.low) + e.preedit.length ≤ maxText

structure Valid (e : Editor) : Prop where
  here : Document e.here
  undo : ∀ c ∈ e.undo, Document c
  redo : ∀ c ∈ e.redo, Document c
  bounded : e.undo.length + e.redo.length ≤ 100
  composed : e.preedit ≠ [] → Composed e

variable {e : Editor} {range : Range} {value : Bytes}

theorem cancelled_cases (e : Editor) : cancelled e = e ∧ e.preedit = [] ∨
    cancelled e = { e with preedit := [], preeditRevision := e.preeditRevision + 1 } := by
  unfold cancelled
  split_ifs with h
  · exact Or.inl ⟨rfl, List.isEmpty_iff.mp h⟩
  · exact Or.inr rfl

@[simp] theorem cancelled_here (e : Editor) : (cancelled e).here = e.here := by
  rcases cancelled_cases e with ⟨h, -⟩ | h
  · rw [h]
  · rw [h]
    rfl

@[simp] theorem cancelled_undo (e : Editor) : (cancelled e).undo = e.undo := by
  rcases cancelled_cases e with ⟨h, -⟩ | h <;> rw [h]

@[simp] theorem cancelled_redo (e : Editor) : (cancelled e).redo = e.redo := by
  rcases cancelled_cases e with ⟨h, -⟩ | h <;> rw [h]

@[simp] theorem cancelled_preedit (e : Editor) : (cancelled e).preedit = [] := by
  rcases cancelled_cases e with ⟨h, hnil⟩ | h
  · rw [h, hnil]
  · rw [h]

@[simp] theorem edited_here (e : Editor) : (edited e).here = e.here := cancelled_here e

@[simp] theorem edited_undo (e : Editor) : (edited e).undo = e.undo := cancelled_undo e

@[simp] theorem edited_redo (e : Editor) : (edited e).redo = e.redo := cancelled_redo e

@[simp] theorem edited_preedit (e : Editor) : (edited e).preedit = [] := cancelled_preedit e

theorem Valid.cancelled (h : Valid e) : Valid (cancelled e) where
  here := by simpa only [cancelled_here] using h.here
  undo := by simpa only [cancelled_undo] using h.undo
  redo := by simpa only [cancelled_redo] using h.redo
  bounded := by simpa only [cancelled_undo, cancelled_redo] using h.bounded
  composed hne := absurd (cancelled_preedit e) hne

theorem Valid.edited (here : Document e.here) (undo : ∀ c ∈ e.undo, Document c)
    (redo : ∀ c ∈ e.redo, Document c) (bounded : e.undo.length + e.redo.length ≤ 100) :
    Valid (edited e) where
  here := by simpa only [edited_here] using here
  undo := by simpa only [edited_undo] using undo
  redo := by simpa only [edited_redo] using redo
  bounded := by simpa only [edited_undo, edited_redo] using bounded
  composed hne := absurd (edited_preedit e) hne

theorem Valid.high_le (h : Valid e) : e.high ≤ e.text.length := max_le h.here.caret.1 h.here.anchor.1

theorem Valid.boundary_low (h : Valid e) : Boundary e.text e.low := by
  rcases min_choice e.caret e.anchor with hmin | hmin
  · rw [low, hmin]
    exact h.here.caret
  · rw [low, hmin]
    exact h.here.anchor

theorem Valid.boundary_high (h : Valid e) : Boundary e.text e.high := by
  rcases max_choice e.caret e.anchor with hmax | hmax
  · rw [high, hmax]
    exact h.here.caret
  · rw [high, hmax]
    exact h.here.anchor

theorem low_le_high (e : Editor) : e.low ≤ e.high := (min_le_left _ _).trans (le_max_left _ _)

theorem bounded_length {stack : List Checkpoint} (h : stack.length ≤ 101) :
    (bounded stack).length ≤ 100 := by
  unfold bounded
  split_ifs
  · rw [List.length_dropLast]
    omega
  · omega

theorem bounded_mem {stack : List Checkpoint} {c : Checkpoint} (h : c ∈ bounded stack) :
    c ∈ stack := by
  unfold bounded at h
  split_ifs at h
  · exact List.mem_of_mem_dropLast h
  · exact h

theorem Valid.recorded (h : Valid e) : Valid (recorded e) where
  here := h.here
  undo c hc := by
    rcases List.mem_cons.mp (bounded_mem hc) with rfl | hold
    · exact h.here
    · exact h.undo c hold
  redo := nofun
  bounded := by
    have hlength : (e.here :: e.undo).length ≤ 101 := by
      have hbounded := h.bounded
      rw [List.length_cons]
      omega
    exact bounded_length hlength
  composed hne := ⟨(h.composed hne).order, (h.composed hne).within, (h.composed hne).short⟩

theorem Valid.replaced (h : Valid e) (hle : range.start ≤ range.stop)
    (hstart : Boundary e.text range.start) (hstop : Boundary e.text range.stop)
    (hfits : Fits e range value) : Valid (replaced e range value) := by
  have hvalid : utf8ValidateSlice (e.text.take range.start ++ value) = true :=
    utf8_append hstart.2 hfits.valid
  have hlength : (e.text.take range.start ++ value).length = range.start + value.length := by
    rw [List.length_append, List.length_take_of_le hstart.1]
  have hcaret : Boundary (e.text.take range.start ++ value ++ e.text.drop range.stop)
      (range.start + value.length) := by
    rw [← hlength]
    exact Boundary.append hvalid _
  refine .edited ⟨?_, ?_, hcaret, hcaret⟩ h.undo h.redo h.bounded
  · change utf8ValidateSlice (_ ++ _ ++ _) = true
    rw [utf8_rest hvalid, hstop.drop]
    exact h.here.valid
  · have hshort := hfits.short
    have hbound := hstop.1
    change (_ ++ _ ++ _ : Bytes).length ≤ maxText
    rw [List.length_append, hlength, List.length_drop]
    omega

theorem set_valid (text : Bytes) : Spec e (set text) fun _ e' => Valid e' := by
  refine .require fun hok => .alloc (.change ?_)
  rw [Bool.and_eq_true, decide_eq_true_eq] at hok
  have hend := boundary_length hok.2
  exact .edited ⟨hok.2, hok.1, hend, hend⟩ nofun nofun (Nat.zero_le _)

theorem boundary_next {text : Bytes} {i : Nat} (hvalid : utf8ValidateSlice text = true)
    (hi : Boundary text i) (hlt : i < text.length) :
    ∃ b n, text[i]? = some b ∧ utf8ByteSequenceLength b = some n ∧ Boundary text (i + n) := by
  have hrest := hi.drop.trans hvalid
  obtain ⟨cps, hcps⟩ := Option.isSome_iff_exists.mp hrest
  have hne : text.drop i ≠ [] := by
    rw [ne_eq, List.drop_eq_nil_iff]
    omega
  obtain ⟨cp, n, rest, hfirst, -, -⟩ := codepoints_start (List.prefix_refl _) hne hcps
  obtain ⟨b, tail, hcons⟩ := List.exists_cons_of_ne_nil hne
  refine ⟨b, n, ?_, ?_, hi.after ⟨(firstCodepoint_bounds hfirst).2, ?_⟩⟩
  · have hhead := congrArg List.head? hcons
    rwa [List.head?_drop] at hhead
  · rw [hcons] at hfirst
    obtain ⟨m, hm, h⟩ := Option.bind_eq_some_iff.mp hfirst
    split_ifs at h
    obtain ⟨_, -, heq⟩ := Option.map_eq_some_iff.mp h
    cases heq
    exact hm
  · have hunit := codepoints_unit hfirst le_rfl []
    rw [List.append_nil] at hunit
    rw [utf8ValidateSlice, hunit]
    rfl

theorem offsetFrom_leaves {text : Bytes} (hvalid : utf8ValidateSlice text = true) (count : Nat)
    {offset : Nat} (h : Boundary text offset) :
    Leaves e (offsetFrom text count offset) fun r => Boundary text r := by
  induction count generalizing offset with
  | zero => exact .pure h
  | succ count ih =>
    unfold offsetFrom
    split_ifs with hmore
    · obtain ⟨b, n, hb, hn, hnext⟩ := boundary_next hvalid h hmore
      refine .bind (.index hmore) fun first hfirst => ?_
      obtain rfl := Option.some.inj (hb.symm.trans hfirst)
      rw [hn]
      exact ih hnext
    · exact .pure h

theorem setPreedit_spec (h : Valid e) (text : Bytes) (start length : Int) :
    Spec e (setPreedit text start length) fun _ e' =>
      Valid e' ∧ e'.text = e.text ∧ e'.revision = e.revision := by
  refine .require fun hok => .current ?_
  rw [Bool.and_eq_true] at hok
  have hhigh := h.high_le
  have hlow := low_le_high e
  refine .bind (.slice (by omega)) fun selected hselected => ?_
  refine .bind (.sub (by omega)) fun kept hkept => ?_
  have hshort := h.here.short
  change e.text.length ≤ maxText at hshort
  refine .bind (.sub (by omega)) fun room hroom => .require fun hfits => .alloc ?_
  have hfits := of_decide_eq_true hfits
  have hfirst : Leaves e (firstOffset text start) fun first => Boundary text first := by
    unfold firstOffset
    split_ifs
    · exact .pure (boundary_length hok.1)
    · exact offsetFrom_leaves hok.1 _ (boundary_zero text)
  refine .bind hfirst fun first hfirst => ?_
  have hwithin := hfirst.1
  refine .bind (.slice (by omega)) fun rest hrest => ?_
  have hvalid : utf8ValidateSlice rest = true := by
    rw [hrest.1]
    exact hfirst.between (boundary_length hok.1) hwithin
  refine .bind (offsetFrom_leaves hvalid _ (boundary_zero rest)) fun count hcount => .change ?_
  have hcount := hcount.1
  refine ⟨⟨h.here, h.undo, h.redo, h.bounded, fun _ => ⟨?_, ?_, ?_⟩⟩, rfl, rfl⟩
  · dsimp only
    omega
  · dsimp only
    omega
  · change e.text.length - (e.high - e.low) + text.length ≤ maxText
    omega

theorem insert_spec (h : e.high ≤ e.text.length) : Spec e (insert value) fun _ e' =>
    Fits e e.selection value ∧ e' = replaced (recorded e) e.selection value :=
  .current (replace_spec (low_le_high e) h)

theorem replace_valid (h : Valid e) (hle : range.start ≤ range.stop)
    (hstart : Boundary e.text range.start) (hstop : Boundary e.text range.stop)
    (hfits : Fits e range value) : Valid (Editor.replaced (Editor.recorded e) range value) :=
  h.recorded.replaced hle hstart hstop ⟨hfits.valid, hfits.short⟩

theorem insert_valid (h : Valid e) (hfits : Fits e e.selection value) :
    Valid (Editor.replaced (Editor.recorded e) e.selection value) :=
  replace_valid h (low_le_high e) h.boundary_low h.boundary_high hfits

theorem restored_valid (h : Valid e) {forward : Bool} {v : Checkpoint} {rest : List Checkpoint}
    (hfrom : (if forward then e.redo else e.undo) = v :: rest) :
    Valid (restored forward v rest e) := by
  have hbounded := h.bounded
  cases forward with
  | true =>
    change e.redo = v :: rest at hfrom
    have hredo := h.redo
    rw [hfrom] at hredo hbounded
    rw [List.length_cons] at hbounded
    refine .edited (hredo v List.mem_cons_self) ?_ (fun c hc => hredo c (List.mem_cons_of_mem v hc)) ?_
    · exact List.forall_mem_cons.mpr ⟨h.here, h.undo⟩
    · change (e.here :: e.undo).length + rest.length ≤ 100
      rw [List.length_cons]
      omega
  | false =>
    change e.undo = v :: rest at hfrom
    have hundo := h.undo
    rw [hfrom] at hundo hbounded
    rw [List.length_cons] at hbounded
    refine .edited (hundo v List.mem_cons_self) (fun c hc => hundo c (List.mem_cons_of_mem v hc)) ?_ ?_
    · exact List.forall_mem_cons.mpr ⟨h.here, h.redo⟩
    · change rest.length + (e.here :: e.redo).length ≤ 100
      rw [List.length_cons]
      omega

theorem history_spec (forward : Bool) : Spec e (history forward) fun _ e' =>
    (if forward then e.redo else e.undo) = [] ∧ e' = e ∨
      ∃ v rest, (if forward then e.redo else e.undo) = v :: rest ∧ e' = restored forward v rest e := by
  refine .current ?_
  split
  next hnil => exact .pure (Or.inl ⟨hnil, rfl⟩)
  next v rest hcons => exact .alloc (.alloc (.alloc (.change (Or.inr ⟨v, rest, hcons, rfl⟩))))

end Valid

section Steps

variable (boundary : Bytes → Nat → Int → Nat)

def Boundaries : Prop :=
  ∀ text position direction, utf8ValidateSlice text = true → Boundary text position →
    Boundary text (boundary text position direction)

variable {boundary} {e : Editor}

theorem moved_valid (hb : Boundaries boundary) (h : Valid e) (direction : Int) (select : Bool) :
    Valid (moved boundary direction select e) := by
  have hc := h.cancelled
  have hcaret : Boundary (cancelled e).text
      (if !select && (cancelled e).anchor ≠ (cancelled e).caret then
        if direction < 0 then (cancelled e).low else (cancelled e).high
      else boundary (cancelled e).text (cancelled e).caret direction) := by
    split_ifs
    · exact hc.boundary_low
    · exact hc.boundary_high
    · exact hb _ _ _ hc.here.valid hc.here.caret
  refine ⟨⟨hc.here.valid, hc.here.short, hcaret, ?_⟩, hc.undo, hc.redo, hc.bounded,
    fun hne => absurd (cancelled_preedit e) hne⟩
  cases select with
  | true => exact hc.here.anchor
  | false => exact hcaret

theorem extended_valid (hb : Boundaries boundary) (h : Valid e) (back : Bool) :
    Valid (extended boundary back e) := by
  unfold extended
  by_cases hnone : e.anchor = e.caret
  · rw [if_pos hnone]
    refine ⟨⟨h.here.valid, h.here.short, h.here.caret, hb _ _ _ h.here.valid h.here.caret⟩,
      h.undo, h.redo, h.bounded, fun hne => ?_⟩
    -- there was nothing selected, so no less of the document is kept than before
    have hbefore := (h.composed hne).short
    have hempty : e.high - e.low = 0 := by
      rw [high, low, hnone, max_self, min_self, Nat.sub_self]
    rw [hempty] at hbefore
    refine ⟨(h.composed hne).order, (h.composed hne).within, ?_⟩
    change e.text.length - _ + e.preedit.length ≤ maxText
    omega
  · rw [if_neg hnone]
    exact h

theorem extended_same {back : Bool}
    (h : (extended boundary back e).anchor = (extended boundary back e).caret) :
    extended boundary back e = e := by
  unfold extended at h ⊢
  by_cases hnone : e.anchor = e.caret
  · rw [if_pos hnone] at h ⊢
    change boundary _ _ _ = e.caret at h
    rw [h]
    cases e
    cases hnone
    rfl
  · rw [if_neg hnone]

/-- The edit of `delete`, if there is anything to delete. -/
theorem delete_spec (hb : Boundaries boundary) (h : Valid e) (back : Bool) :
    Spec e (delete boundary back) fun _ e' => e' = e ∨
      (extended boundary back e).anchor ≠ (extended boundary back e).caret ∧
        Fits (extended boundary back e) (extended boundary back e).selection [] ∧
        e' = replaced (recorded (extended boundary back e)) (extended boundary back e).selection [] := by
  refine .current (Checked.Meets.errdefer (F := fun _ s => s.editor = extended boundary back e)
    (Checked.Meets.bind (Q := fun _ s => s.editor = extended boundary back e) ?_ fun _ => ?_) ?_)
  · exact Checked.Meets.modify fun s hs => by rw [hs]
  · have hedit : Spec (extended boundary back e) (do
        let now ← current
        if now.anchor = now.caret then pure () else insert []) fun _ e' => e' = e ∨
          (extended boundary back e).anchor ≠ (extended boundary back e).caret ∧
            Fits (extended boundary back e) (extended boundary back e).selection [] ∧
            e' = replaced (recorded (extended boundary back e)) (extended boundary back e).selection [] := by
      refine .current ?_
      split_ifs with hsame
      · exact .pure (Or.inl (extended_same hsame))
      · exact (insert_spec (extended_valid hb h back).high_le).weaken fun _ _ hs => Or.inr ⟨hsame, hs⟩
    exact hedit
  · intro _ s hs
    dsimp only
    rw [hs]
    unfold extended
    split_ifs <;> rfl

namespace Op

/-- Every operation keeps the invariant; one that fails leaves the editor as it was. -/
theorem run_spec (hb : Boundaries boundary) (h : Valid e) (op : Op) (hop : op.Allowed e) :
    Spec e (op.run boundary) fun _ e' => Valid e' := by
  cases op with
  | set text => exact set_valid text
  | insert value =>
    exact (insert_spec h.high_le).weaken fun _ s hs => by
      rw [hs.2]
      exact insert_valid h hs.1
  | replace range value =>
    obtain ⟨hle, hstart, hstop⟩ := hop
    exact (replace_spec hle hstop.1).weaken fun _ s hs => by
      rw [hs.2]
      exact replace_valid h hle hstart hstop hs.1
  | delete back =>
    refine (delete_spec hb h back).weaken fun _ s hs => ?_
    rcases hs with hsame | ⟨-, hfits, hdone⟩
    · rwa [hsame]
    · rw [hdone]
      exact insert_valid (extended_valid hb h back) hfits
  | move direction select => exact .change (moved_valid hb h direction select)
  | setPreedit text start length =>
    exact (setPreedit_spec h text start length).weaken fun _ _ hs => hs.1
  | commitPreedit =>
    refine .current ?_
    split_ifs
    · exact .pure h
    · exact (insert_spec h.high_le).weaken fun _ s hs => by
        rw [hs.2]
        exact insert_valid h hs.1
  | cancelPreedit => exact .change h.cancelled
  | history forward =>
    refine (history_spec forward).weaken fun _ s hs => ?_
    rcases hs with ⟨-, hsame⟩ | ⟨v, rest, hfrom, hdone⟩
    · rwa [hsame]
    · rw [hdone]
      exact restored_valid h hfrom

end Op

theorem display_fits (h : Valid e) : ∃ d, display e = some d ∧ d.text.length ≤ maxText := by
  unfold display
  dsimp only
  have hhigh := h.high_le
  have hlow := low_le_high e
  split_ifs with hnone hfits
  · exact ⟨_, rfl, h.here.short⟩
  · refine ⟨_, rfl, ?_⟩
    dsimp only
    rw [List.length_append, List.length_append, List.length_take, List.length_drop]
    omega
  · refine absurd ?_ hfits
    have hshort := (h.composed fun hnil => hnone (List.isEmpty_iff.mpr hnil)).short
    omega

theorem Valid.empty : Valid empty where
  here := ⟨rfl, Nat.zero_le _, boundary_zero _, boundary_zero _⟩
  undo := nofun
  redo := nofun
  bounded := Nat.zero_le _
  composed hne := absurd rfl hne

theorem Reachable.valid (hb : Boundaries boundary) (h : Reachable boundary e) : Valid e := by
  induction h with
  | empty => exact Valid.empty
  | step _ op hop allocations ih =>
    have hrun := (op.run_spec hb ih hop).leaves (s := ⟨_, allocations⟩) rfl (B := fun s => Valid s.editor)
    exact (hrun (fun _ _ hs => hs) fun _ s hs => hs ▸ ih).2

/-- In every reachable editor the invariant holds and the display fits its buffer; no
operation traps, and one that fails changes nothing. -/
theorem editor_kept (hb : Boundaries boundary) (h : Reachable boundary e) :
    Valid e ∧ (∃ d, display e = some d ∧ d.text.length ≤ maxText) ∧ e.undo.length ≤ 100 ∧
      ∀ op : Op, op.Allowed e → ∀ allocations,
        (op.run boundary ⟨e, allocations⟩).1 ≠ .error .trap ∧
        ∀ err, (op.run boundary ⟨e, allocations⟩).1 = .error (.error err) →
          (op.run boundary ⟨e, allocations⟩).2.editor = e := by
  have hv := h.valid hb
  refine ⟨hv, display_fits hv, (Nat.le_add_right _ _).trans hv.bounded, fun op hop allocations => ?_⟩
  have hrun := op.run_spec hb hv hop ⟨e, allocations⟩ rfl
  rcases hdone : op.run boundary ⟨e, allocations⟩ with ⟨(err | _) | a, s⟩
  · rw [hdone] at hrun
    exact ⟨nofun, fun _ _ => hrun⟩
  · rw [hdone] at hrun
    exact hrun.elim
  · exact ⟨nofun, nofun⟩

end Steps

def ends (text : Bytes) (_ : Nat) (direction : Int) : Nat := if direction < 0 then 0 else text.length

theorem ends_boundaries : Boundaries ends := by
  intro text position direction hvalid _
  unfold ends
  split_ifs
  · exact boundary_zero text
  · exact boundary_length hvalid

/-- A character composed, and the caret moved after it. -/
theorem editor_kept_one :
    Valid ((Op.move 1 false).run ends
      ⟨((Op.setPreedit [0xC3, 0xA9] 1 0).run ends
        ⟨((Op.insert [0x61]).run ends ⟨empty, []⟩).2.editor, [true]⟩).2.editor, []⟩).2.editor :=
  (editor_kept ends_boundaries
    (.step (.step (.step .empty (.insert [0x61]) trivial []) (.setPreedit [0xC3, 0xA9] 1 0) trivial
      [true]) (.move 1 false) trivial [])).1

/-- The offsets of cancelled text stay behind. -/
theorem cancelled_offsets : ¬∀ boundary, Boundaries boundary → ∀ e, Reachable boundary e →
    e.preeditStart ≤ e.preedit.length ∧ e.preeditEnd ≤ e.preedit.length := by
  intro h
  have hreach := (@Reachable.empty ends).step (.setPreedit [0x61, 0x62] (-1) (-1)) trivial []
  have hoffsets := h ends ends_boundaries _ (hreach.step .cancelPreedit trivial [])
  exact absurd hoffsets.1 (by decide)

end Editor

end Zimbr
