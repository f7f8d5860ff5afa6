import Zimbr.Relay.PlistXml

set_option autoImplicit false

/-!
# Chains of references

How deep the tree of an object is, is how long the chains of references from it are.
-/
namespace Zimbr.Relay.Plist
open Library

mutual

def Node.height : Node → Nat
  | .array items => 1 + itemsHeight items
  | .dict entries => 1 + entriesHeight entries
  | _ => 1

def itemsHeight : List Node → Nat
  | [] => 0
  | item :: rest => max item.height (itemsHeight rest)

def entriesHeight : List (Bytes × Node) → Nat
  | [] => 0
  | (_, item) :: rest => max item.height (entriesHeight rest)

end

theorem entriesHeight_eq (entries : List (Bytes × Node)) :
    entriesHeight entries = itemsHeight (entries.map Prod.snd) := by
  induction entries with
  | nil => simp [entriesHeight, itemsHeight]
  | cons entry rest ih =>
    obtain ⟨key, item⟩ := entry
    simp only [entriesHeight, itemsHeight, List.map_cons, ih]

theorem height_array (items : List Node) : (Node.array items).height = 1 + itemsHeight items := by
  rw [Node.height]

theorem height_dict (entries : List (Bytes × Node)) :
    (Node.dict entries).height = 1 + itemsHeight (entries.map Prod.snd) := by
  rw [Node.height, entriesHeight_eq]

theorem Node.height_pos (value : Node) : 1 ≤ value.height := by
  cases value <;> unfold Node.height <;> omega

theorem le_itemsHeight {items : List Node} {item : Node} (h : item ∈ items) :
    item.height ≤ itemsHeight items := by
  induction items with
  | nil => exact absurd h List.not_mem_nil
  | cons first rest ih =>
    unfold itemsHeight
    rcases List.mem_cons.mp h with rfl | hrest
    · exact Nat.le_max_left _ _
    · exact (ih hrest).trans (Nat.le_max_right _ _)

theorem itemsHeight_mem (items : List Node) :
    itemsHeight items = 0 ∨ ∃ item ∈ items, itemsHeight items = item.height := by
  induction items with
  | nil => exact Or.inl (by unfold itemsHeight; rfl)
  | cons first rest ih =>
    right
    unfold itemsHeight
    by_cases hfirst : itemsHeight rest ≤ first.height
    · exact ⟨first, List.mem_cons_self, Nat.max_eq_left hfirst⟩
    · rw [Nat.max_eq_right (by omega)]
      rcases ih with hzero | ⟨item, hitem, hheight⟩
      · omega
      · exact ⟨item, List.mem_cons_of_mem first hitem, hheight⟩

section References

variable (b : Binary)

def taken (position length : Nat) : Option Bytes :=
  if position + length ≤ b.table then some ((b.bytes.drop position).take length) else none

def sizeAt (position small : Nat) : Option (Nat × Nat) :=
  if small ≠ 15 then some (small, position)
  else do
    let bytes ← taken b position 1
    let tag ← bytes[0]?
    let bytes ← taken b (position + 1) (2 ^ (tag.toNat % 16))
    some (bigEndian bytes, position + 1 + 2 ^ (tag.toNat % 16))

def refAt (refs : Bytes) (i : Nat) : Nat :=
  bigEndian ((refs.drop (i * b.refWidth)).take b.refWidth)

/-- What the object at a position refers to: an array its items, a dictionary its keys
and its values. -/
def referencesAt (position : Nat) : Option (List Nat) := do
  let bytes ← taken b position 1
  let tag ← bytes[0]?
  let kind := tag.toNat / 16
  if kind = 10 || kind = 13 then do
    let (length, position) ← sizeAt b (position + 1) (tag.toNat % 16)
    let places := length * (if kind = 13 then 2 else 1)
    let refs ← taken b position (places * b.refWidth)
    some ((List.range places).map (refAt b refs))
  else some []

def references (index : Nat) : List Nat :=
  (b.offsets[index]?.bind (referencesAt b)).getD []

/-- A chain of that many objects, each of which refers to the next. -/
inductive Chain : Nat → Nat → Prop where
  | one (index : Nat) : Chain index 1
  | more {index next n : Nat} (h : next ∈ references b index) (rest : Chain next n) :
    Chain index (n + 1)

def Longest (index height : Nat) : Prop :=
  Chain b index height ∧ ∀ n, Chain b index n → n ≤ height

/-- The height of a value is one more than the longest chains of these objects are. -/
structure Tops (refs : List Nat) (value : Node) : Prop where
  below : ∀ next ∈ refs, ∃ h, Longest b next h ∧ h + 1 ≤ value.height
  reached : value.height = 1 ∨ ∃ next ∈ refs, ∃ h, Longest b next h ∧ value.height = h + 1

variable {b}

theorem Tops.longest {index : Nat} {value : Node} (h : Tops b (references b index) value) :
    Longest b index value.height := by
  constructor
  · rcases h.reached with hone | ⟨next, hnext, height, hlongest, heq⟩
    · rw [hone]
      exact .one index
    · rw [heq]
      exact .more hnext hlongest.1
  · intro n hchain
    cases hchain with
    | one => exact value.height_pos
    | more hnext hrest =>
      obtain ⟨height, hlongest, hle⟩ := h.below _ hnext
      have hbound := hlongest.2 _ hrest
      omega

theorem tops_leaf {value : Node} (h : value.height = 1) : Tops b [] value :=
  ⟨fun _ habsurd => absurd habsurd List.not_mem_nil, Or.inl h⟩

theorem tops_array {refs : Nat → Nat} {length : Nat} {items : List Node}
    (h : List.Forall₂ (fun i item => Longest b (refs i) item.height) (List.range length) items) :
    Tops b ((List.range length).map refs) (.array items) := by
  have hheight := height_array items
  refine ⟨?_, ?_⟩
  · intro next hnext
    obtain ⟨i, hi, rfl⟩ := List.mem_map.mp hnext
    obtain ⟨j, hj⟩ := List.getElem?_of_mem hi
    obtain ⟨item, hitem, hlongest⟩ := forall₂_getElem? h hj
    have hle := le_itemsHeight (List.mem_of_getElem? hitem)
    exact ⟨item.height, hlongest, by omega⟩
  · rcases itemsHeight_mem items with hzero | ⟨item, hmem, hmax⟩
    · exact Or.inl (by omega)
    · obtain ⟨j, hj⟩ := List.getElem?_of_mem hmem
      obtain ⟨i, hi, hlongest⟩ := forall₂_getElem? h.flip hj
      exact Or.inr ⟨refs i, List.mem_map_of_mem (List.mem_of_getElem? hi), item.height, hlongest,
        by omega⟩

theorem tops_dict {refs : Nat → Nat} {length : Nat} {entries : List (Bytes × Node)}
    (h : List.Forall₂ (fun i entry => Longest b (refs i) 1 ∧
      Longest b (refs (i + length)) entry.2.height) (List.range length) entries) :
    Tops b ((List.range (length * 2)).map refs) (.dict entries) := by
  have hheight := height_dict entries
  refine ⟨?_, ?_⟩
  · intro next hnext
    obtain ⟨i, hi, rfl⟩ := List.mem_map.mp hnext
    have hi := List.mem_range.mp hi
    have hplace {i : Nat} (hi : i < length) : ∃ entry ∈ entries, Longest b (refs i) 1 ∧
        Longest b (refs (i + length)) entry.2.height := by
      obtain ⟨entry, hentry, hlongest⟩ := forall₂_getElem? h
        ((List.getElem?_eq_getElem (by simpa using hi)).trans
          (congrArg some (List.getElem_range (by simpa using hi))))
      exact ⟨entry, List.mem_of_getElem? hentry, hlongest⟩
    by_cases hkey : i < length
    · obtain ⟨entry, hentry, hlongest, -⟩ := hplace hkey
      have hle := le_itemsHeight (List.mem_map_of_mem (f := Prod.snd) hentry)
      have hpos := entry.2.height_pos
      exact ⟨1, hlongest, by omega⟩
    · obtain ⟨entry, hentry, -, hlongest⟩ := hplace (i := i - length) (by omega)
      have hle := le_itemsHeight (List.mem_map_of_mem (f := Prod.snd) hentry)
      have hindex : i - length + length = i := by omega
      rw [hindex] at hlongest
      exact ⟨entry.2.height, hlongest, by omega⟩
  · rcases itemsHeight_mem (entries.map Prod.snd) with hzero | ⟨item, hmem, hmax⟩
    · exact Or.inl (by omega)
    · obtain ⟨entry, hentry, rfl⟩ := List.mem_map.mp hmem
      obtain ⟨j, hj⟩ := List.getElem?_of_mem hentry
      obtain ⟨i, hi, -, hlongest⟩ := forall₂_getElem? h.flip hj
      have hi := List.mem_range.mp (List.mem_of_getElem? hi)
      refine Or.inr ⟨refs (i + length), List.mem_map_of_mem (List.mem_range.mpr ?_),
        entry.2.height, hlongest, by omega⟩
      omega

end References

end Zimbr.Relay.Plist
