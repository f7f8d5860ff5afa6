import Mathlib.Logic.Relation
import Zimbr.Relay.LinkPreview

set_option autoImplicit false

/-!
# Archives are resolved within bounds

A shared object is resolved wherever it is referred to, so its copies are counted
and charged each time.
-/
namespace Zimbr.Relay.LinkPreview
open Library Plist

mutual

def Node.size : Node → Nat
  | .array items => 1 + itemsSize items
  | .dict entries => 1 + entriesSize entries
  | _ => 1

def itemsSize : List Node → Nat
  | [] => 0
  | item :: rest => Node.size item + itemsSize rest

def entriesSize : List (Bytes × Node) → Nat
  | [] => 0
  | (_, item) :: rest => Node.size item + entriesSize rest

end

theorem itemsSize_eq (items : List Node) : itemsSize items = (items.map Node.size).sum := by
  induction items with
  | nil => simp [itemsSize]
  | cons item rest ih => simp [itemsSize, ih]

theorem entriesSize_append (entries : List (Bytes × Node)) (key : Bytes) (item : Node) :
    entriesSize (entries ++ [(key, item)]) = entriesSize entries + Node.size item := by
  induction entries with
  | nil => simp [entriesSize]
  | cons entry rest ih =>
    obtain ⟨key', item'⟩ := entry
    simp only [List.cons_append, entriesSize, ih]
    omega

theorem size_dict (entries : List (Bytes × Node)) :
    Node.size (.dict entries) = 1 + entriesSize entries := by
  rw [Node.size]

/-- The budgets are kept, and at least so many values were visited. -/
structure Expanding (objects : List Node) (least : Nat) (s : Archive) : Prop where
  active : s.active.length = objects.length
  least : least ≤ s.visits
  visits : s.visits ≤ maxObjects
  expanded : s.expandedBytes ≤ maxExpanded

/-- Resolving failed; a visit that was refused is the last. -/
structure Spilled (e : Failure) (s : Archive) : Prop where
  visits : s.visits ≤ maxObjects ∨ e = .oversized ∧ s.visits = maxObjects + 1
  expanded : s.expandedBytes ≤ maxExpanded

section Bounds

variable {objects : List Node} {least : Nat}

theorem Expanding.spilled (e : Failure) (s : Archive) (h : Expanding objects least s) :
    Spilled e s := ⟨Or.inl h.visits, h.expanded⟩

theorem Expanding.less {more : Nat} {s : Archive} (h : Expanding objects more s)
    (hle : least ≤ more) : Expanding objects least s :=
  ⟨h.active, hle.trans h.least, h.visits, h.expanded⟩

theorem Expanding.setActive {s : Archive} (h : Expanding objects least s) (uid : Nat)
    (busy : Bool) : Expanding objects least (setActive uid busy s) :=
  ⟨List.length_set.trans h.active, h.least, h.visits, h.expanded⟩

abbrev Expands (objects : List Node) (least : Nat) {α : Type} (m : Resolving α) (Q : α → Prop) :
    Prop :=
  Checked.Keeps (Expanding objects least) Spilled m Q

theorem visit_expands (deep : Bool) :
    Checked.Meets (Expanding objects least) Spilled (visit deep)
      fun _ s => deep = false ∧ Expanding objects (least + 1) s := by
  apply Checked.Meets.count
  case hmost => decide
  case hle => exact fun s hs => hs.visits
  case hlast =>
    intro s hs _
    refine ⟨?_, hs.expanded⟩
    rcases hs.visits.lt_or_eq with hfree | hfull
    · exact Or.inl hfree
    · exact Or.inr ⟨rfl, congrArg Nat.succ hfull⟩
  case hnext => exact fun s hs hfree =>
    ⟨hs.active, Nat.succ_le_succ hs.least, hfree, hs.expanded⟩

theorem charge_expands (bytes : Nat) : Expands objects least (charge bytes) fun _ => True := by
  have hsize : maxExpanded < 2 ^ 63 := by decide
  refine Checked.Meets.bind (Q := fun expanded s => expanded = s.expandedBytes ∧
    Expanding objects least s) (.get fun s hs => ⟨rfl, hs⟩) fun expanded => ?_
  refine Checked.Meets.bind (.sub fun s hs => hs.1 ▸ hs.2.expanded) fun left => ?_
  refine Checked.Meets.bind (.require fun s hs => hs.2.2.spilled _) fun _ => ?_
  refine Checked.Meets.bind (.add fun s hs => ?_) fun after => .modify fun s hs => ?_
  · obtain ⟨hroom, hleft, hexpanded, hexpanding⟩ := hs
    have hroom := of_decide_eq_true hroom
    have hbound := hexpanding.expanded
    omega
  · obtain ⟨hafter, hroom, hleft, hexpanded, hexpanding⟩ := hs
    have hroom := of_decide_eq_true hroom
    have hbound := hexpanding.expanded
    refine ⟨trivial, hexpanding.active, hexpanding.least, hexpanding.visits, ?_⟩
    dsimp only
    omega

theorem enter_expands {uid : Nat} (huid : uid < objects.length) :
    Expands objects least (enter uid) fun _ => True := by
  refine Checked.Meets.bind (Q := fun active s => active = s.active ∧ Expanding objects least s)
    (.get fun s hs => ⟨rfl, hs⟩) fun active => ?_
  refine Checked.Meets.bind (.index fun s hs => ?_) fun busy => ?_
  · rw [hs.1, hs.2.active]
    exact huid
  · exact (Checked.Meets.require fun s hs => hs.2.2.spilled _).weaken fun _ _ hs =>
      ⟨trivial, hs.2.2.2⟩

theorem checkClass_expands (value : Node) :
    Expands objects least (checkClass objects value) fun _ => True := by
  unfold checkClass
  split
  · exact .pure trivial
  · exact .bind (.require Expanding.spilled) fun _ huid =>
      .bind (.index (of_decide_eq_true huid)) fun _ _ => .bind (.orFail Expanding.spilled)
        fun _ _ => .bind (.orFail Expanding.spilled) fun _ _ =>
        (Checked.Keeps.require Expanding.spilled).weaken fun _ _ => trivial
  · exact .fail Expanding.spilled

variable {inner : Node → Resolving Node}
  (hinner : ∀ value least, Checked.Meets (Expanding objects least) Spilled (inner value)
    fun r => Expanding objects (least + Node.size r))

include hinner

theorem inner_expands (value : Node) : Expands objects least (inner value) fun _ => True :=
  (hinner value least).weaken fun _ _ hs => ⟨trivial, hs.less (Nat.le_add_right _ _)⟩

theorem resolveUid_expands (uid : Nat) :
    Checked.Meets (Expanding objects (least + 1)) Spilled (resolveUid objects inner uid)
      fun r => Expanding objects (least + Node.size r) := by
  refine Checked.Keeps.andThen (.require Expanding.spilled) fun _ huid => ?_
  have huid := of_decide_eq_true huid
  refine Checked.Keeps.andThen (enter_expands huid) fun _ _ => ?_
  refine Checked.Keeps.andThen (.index huid) fun target _ => ?_
  split_ifs
  · exact .pure fun s hs => hs.less (by simp [Node.size])
  · refine Checked.Meets.bind (Q := fun _ => Expanding objects (least + 1))
      (.modify fun s hs => hs.setActive uid true) fun _ => ?_
    refine .after (hinner target (least + 1)) (fun r s hs => ?_) fun e s hs => ⟨hs.visits, hs.expanded⟩
    exact (hs.setActive uid false).less (by omega)

theorem checkBase_expands (base : Option Node) :
    Expands objects least (checkBase inner base) fun _ => True := by
  cases base with
  | none => exact .pure trivial
  | some base =>
    refine .bind (inner_expands hinner base) fun r _ => ?_
    split
    · exact .pure trivial
    · exact .fail Expanding.spilled

theorem keyedEntries_expands (least : Nat) (pairs : List (Node × Node)) (done : List (Bytes × Node)) :
    Checked.Meets (Expanding objects (least + entriesSize done)) Spilled
      (keyedEntries inner pairs done) fun r => Expanding objects (least + entriesSize r) := by
  induction pairs generalizing done with
  | nil => exact .pure fun _ hs => hs
  | cons pair rest ih =>
    obtain ⟨key, item⟩ := pair
    refine Checked.Keeps.andThen (.orFail Expanding.spilled) fun name _ => ?_
    split_ifs
    · exact ih done
    · refine Checked.Keeps.andThen (.require Expanding.spilled) fun _ _ => ?_
      refine Checked.Meets.bind (hinner item _) fun value => ?_
      have hnext := ih (done ++ [(name, value)])
      rw [entriesSize_append, ← Nat.add_assoc] at hnext
      exact hnext

theorem plainEntries_expands (least : Nat) (entries done : List (Bytes × Node)) :
    Checked.Meets (Expanding objects (least + entriesSize done)) Spilled
      (plainEntries inner entries done) fun r => Expanding objects (least + entriesSize r) := by
  induction entries generalizing done with
  | nil => exact .pure fun _ hs => hs
  | cons entry rest ih =>
    obtain ⟨key, item⟩ := entry
    unfold plainEntries
    split_ifs
    · refine Checked.Meets.bind (hinner item _) fun value => ?_
      have hnext := ih (done ++ [(key, value)])
      rw [entriesSize_append, ← Nat.add_assoc] at hnext
      exact hnext
    · exact ih done

theorem resolveKeyed_expands (keys : Node) (values : Option Node) :
    Checked.Meets (Expanding objects (least + 1)) Spilled (resolveKeyed inner keys values)
      fun r => Expanding objects (least + Node.size r) := by
  refine Checked.Keeps.andThen (inner_expands hinner keys) fun keys _ => ?_
  refine Checked.Keeps.andThen (.orFail Expanding.spilled) fun values _ => ?_
  split
  · refine Checked.Keeps.andThen (.require Expanding.spilled) fun _ _ => ?_
    exact Checked.Meets.bind (keyedEntries_expands hinner (least + 1) _ []) fun entries =>
      .pure fun s hs => hs.less (by rw [size_dict]; omega)
  · exact .fail fun _ hs => hs.spilled _

theorem resolveDict_expands (entries : List (Bytes × Node)) :
    Checked.Meets (Expanding objects (least + 1)) Spilled (resolveDict objects inner entries)
      fun r => Expanding objects (least + Node.size r) := by
  have hrest (value : Node) : Checked.Meets (Expanding objects (least + 1)) Spilled (inner value)
      fun r => Expanding objects (least + Node.size r) :=
    (hinner value (least + 1)).weaken fun _ _ hs => hs.less (by omega)
  refine Checked.Keeps.andThen (checkClass_expands _) fun _ _ => ?_
  split
  · exact Checked.Keeps.andThen (checkBase_expands hinner _) fun _ _ => hrest _
  · exact hrest _
  · exact resolveKeyed_expands hinner _ _
  · exact Checked.Meets.bind (plainEntries_expands hinner (least + 1) entries []) fun entries =>
      .pure fun s hs => hs.less (by rw [size_dict]; omega)

theorem resolveBody_expands (value : Node) :
    Checked.Meets (Expanding objects (least + 1)) Spilled (resolveBody objects inner value)
      fun r => Expanding objects (least + Node.size r) := by
  refine Checked.Keeps.andThen (charge_expands _) fun _ _ => ?_
  have hleaf {r : Node} (hone : Node.size r = 1) : Checked.Meets (Expanding objects (least + 1))
      Spilled (pure r : Resolving Node) fun r => Expanding objects (least + Node.size r) :=
    .pure fun s hs => hs.less (by omega)
  cases value with
  | uid uid => exact resolveUid_expands hinner uid
  | dict entries => exact resolveDict_expands hinner entries
  | array items =>
    refine Checked.Meets.bind (.each_sum (fun item _ n => hinner item n) (least + 1)) fun items =>
      .pure fun s hs => ?_
    rw [← itemsSize_eq] at hs
    simpa only [Node.size, Nat.add_assoc] using hs
  | none => exact hleaf (by simp [Node.size])
  | boolean => exact hleaf (by simp [Node.size])
  | integer => exact hleaf (by simp [Node.size])
  | string => exact hleaf (by simp [Node.size])
  | data => exact hleaf (by simp [Node.size])

end Bounds

theorem resolveAt_expands (objects : List Node) (levels : Nat) : ∀ value least,
    Checked.Meets (Expanding objects least) Spilled (resolveAt objects levels value)
      fun r => Expanding objects (least + Node.size r) := by
  induction levels with
  | zero =>
    exact fun _ _ => .bind (visit_expands true) fun _ => .of_fact (fun _ hs => hs.1) nofun
  | succ levels ih =>
    intro value least
    refine .bind (visit_expands false) fun _ => ?_
    exact (resolveBody_expands ih value).mono (fun _ hs => hs.2) fun _ _ h => h

end Zimbr.Relay.LinkPreview
