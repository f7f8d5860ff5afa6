import Mathlib.Logic.Relation
import Zimbr.Relay.PlistBounds
import Zimbr.Relay.PlistXmlBounds

set_option autoImplicit false

/-!
# Property lists are read within bounds

The reader is total and finds every cycle, but the nesting that it bounds is that of
its own calls.
-/
namespace Zimbr.Relay.Plist
open Library

section Nesting

/-- The recursion of `object` in terms of its depth. -/
theorem object_depth (b : Binary) (depth index : Nat) :
    object b depth index = count >>= fun _ =>
      if maxDepth ≤ depth then Checked.fail .oversized
      else objectBody b (object b (depth + 1)) index := by
  unfold object
  split_ifs with hdeep
  · rw [Nat.sub_eq_zero_of_le hdeep]
    rfl
  · obtain ⟨levels, hlevels⟩ : ∃ levels, maxDepth - depth = levels + 1 :=
      ⟨maxDepth - depth - 1, by omega⟩
    have hnext : maxDepth - (depth + 1) = levels := by omega
    rw [hlevels, hnext]
    rfl

theorem visit_refuses (s : Xml) (x : Unit) (s' : Xml) : visit true s ≠ (.ok x, s') := by
  intro h
  obtain ⟨_, _, -, h⟩ := Checked.bind_ok.mp h
  obtain ⟨_, _, -, h⟩ := Checked.bind_ok.mp h
  obtain ⟨_, _, -, h⟩ := Checked.bind_ok.mp h
  exact absurd (Checked.require_ok.mp h).1 (by simp)

/-- The recursion of `value` in terms of its depth. -/
theorem value_depth (bytes : Bytes) (depth : Nat) :
    value bytes depth = visit (maxDepth ≤ depth) >>= fun _ => spaces bytes >>= fun _ =>
      tagged bytes (value bytes (depth + 1)) := by
  unfold value
  by_cases hdeep : maxDepth ≤ depth
  · rw [decide_eq_true hdeep, Nat.sub_eq_zero_of_le hdeep]
    exact Checked.bind_stopped visit_refuses _ _
  · rw [decide_eq_false hdeep]
    obtain ⟨levels, hlevels⟩ : ∃ levels, maxDepth - depth = levels + 1 :=
      ⟨maxDepth - depth - 1, by omega⟩
    have hnext : maxDepth - (depth + 1) = levels := by omega
    rw [hlevels, hnext]
    rfl

end Nesting

section Cycles

variable (b : Binary)

def RefersTo (index next : Nat) : Prop := next ∈ references b index

/-- Following the references of the root comes back to an object. -/
def Cyclic (root : Nat) : Prop :=
  ∃ index, Relation.ReflTransGen (RefersTo b) root index ∧
    Relation.TransGen (RefersTo b) index index

variable {b}

theorem chain_reach {index next n : Nat} (hreach : Relation.ReflTransGen (RefersTo b) index next)
    (hchain : Chain b next n) : ∃ m, n ≤ m ∧ Chain b index m := by
  induction hreach using Relation.ReflTransGen.head_induction_on with
  | refl => exact ⟨n, le_rfl, hchain⟩
  | head hstep _ ih =>
    obtain ⟨m, hle, hrest⟩ := ih
    exact ⟨m + 1, by omega, .more hstep hrest⟩

theorem chain_cycle {index : Nat} (hcycle : Relation.TransGen (RefersTo b) index index) (n : Nat) :
    ∃ m, n ≤ m ∧ Chain b index m := by
  induction n with
  | zero => exact ⟨1, by omega, .one index⟩
  | succ n ih =>
    obtain ⟨m, hle, hchain⟩ := ih
    obtain ⟨next, hstep, hreach⟩ := Relation.TransGen.head'_iff.mp hcycle
    obtain ⟨k, hmore, hrest⟩ := chain_reach hreach hchain
    exact ⟨k + 1, by omega, .more hstep hrest⟩

theorem Longest.acyclic {root height : Nat} (h : Longest b root height) : ¬Cyclic b root := by
  rintro ⟨index, hreach, hcycle⟩
  obtain ⟨n, hlong, hchain⟩ := chain_cycle hcycle (height + 1)
  obtain ⟨m, hle, hroot⟩ := chain_reach hreach hchain
  have hbound := h.2 m hroot
  omega

end Cycles

section Parse

variable {bytes : Bytes} {node : Node}

theorem start_within (bytes : Bytes) : Within bytes 0 0 {} :=
  ⟨Nat.zero_le _, Nat.zero_le _, Nat.zero_le _, Nat.zero_le _⟩

/-- The value that was read from a binary file is as high as its longest chain is long. -/
theorem parse_longest (h : parse bytes = .ok node) (hbinary : isBinary bytes = true) :
    ∃ b root s, open' bytes {} = (.ok (b, root), s) ∧ Longest b root node.height := by
  unfold parse at h
  rw [if_pos hbinary] at h
  split_ifs at h with hsize
  have hrun : parseBinary bytes {} = (.ok node, (parseBinary bytes {}).2) := Prod.ext h rfl
  obtain ⟨⟨b, root⟩, s, hopen, hobject⟩ := Checked.bind_ok.mp hrun
  have hopened := (open_walks (Nat.le_of_not_lt hsize)).returned rfl hopen
  exact ⟨b, root, s, hopen, ((objectAt_walks hopened.1.1 maxDepth root 0 hopened.1.2).returned
    hopened.2 hobject).1⟩

/-- Parsing stops on every byte string, without a trap and within its budgets, and what
it accepts has no cycle of references. -/
theorem parse_total (bytes : Bytes) :
    (∀ b depth index, object b depth index = count >>= fun _ =>
      if maxDepth ≤ depth then Checked.fail .oversized
      else objectBody b (object b (depth + 1)) index) ∧
    (∀ depth, value bytes depth = visit (maxDepth ≤ depth) >>= fun _ => spaces bytes >>= fun _ =>
      tagged bytes (value bytes (depth + 1))) ∧
    parse bytes ≠ .error .trap ∧
    (bytes.length ≤ maxBytes →
      (parseBinary bytes {}).2.work ≤ maxBytes * 8 ∧
      (parseBinary bytes {}).2.visits ≤ maxBytes * 8 + 1 ∧
      (parseXml bytes {}).2.pos ≤ bytes.length ∧
      (parseXml bytes {}).2.objects ≤ maxObjects + 1) ∧
    ∀ node, parse bytes = .ok node → isBinary bytes = true →
      ∃ b root s, open' bytes {} = (.ok (b, root), s) ∧ ¬Cyclic b root := by
  have hbinary (hsize : bytes.length ≤ maxBytes) := (parseBinary_walks hsize).leaves rfl
    (B := fun s => s.work ≤ maxBytes * 8 ∧ s.visits ≤ s.work + 1) (fun _ _ hs => hs)
    fun _ _ hs => ⟨hs.work, hs.visits⟩
  have hxml (hsize : bytes.length ≤ maxBytes) := (parseXml_parses hsize).leaves
    (start_within bytes)
    (B := fun s => s.pos ≤ bytes.length ∧ s.objects ≤ maxObjects + 1)
    (fun _ _ hs => ⟨hs.2.pos, hs.2.objects.trans (Nat.le_succ _)⟩)
    fun _ _ hs => ⟨hs.pos, by have hobjects := hs.objects; omega⟩
  refine ⟨object_depth, value_depth bytes, ?_, fun hsize => ?_, fun node h hfile => ?_⟩
  · unfold parse
    split_ifs with hsize hfile
    · nofun
    · exact (hbinary (Nat.le_of_not_lt hsize)).1
    · exact (hxml (Nat.le_of_not_lt hsize)).1
  · obtain ⟨-, hwork, hvisits⟩ := hbinary hsize
    obtain ⟨-, hpos, hobjects⟩ := hxml hsize
    exact ⟨hwork, by omega, hpos, hobjects⟩
  · obtain ⟨b, root, s, hopen, hlongest⟩ := parse_longest h hfile
    exact ⟨b, root, s, hopen, hlongest.acyclic⟩

def Shallow (bytes : Bytes) : Prop :=
  isBinary bytes = true → ∀ b root s, open' bytes {} = (.ok (b, root), s) →
    ∀ n, Chain b root n → n ≤ maxDepth

/-- A value is at most 32 levels deep exactly if the chains of references are. -/
theorem depth_bounded (h : parse bytes = .ok node) : node.height ≤ maxDepth ↔ Shallow bytes := by
  cases hbinary : isBinary bytes with
  | true =>
    obtain ⟨b, root, s, hopen, hlongest⟩ := parse_longest h hbinary
    constructor
    · intro hheight _ b' root' s' hopen' n hchain
      rw [hopen] at hopen'
      cases hopen'
      exact (hlongest.2 n hchain).trans hheight
    · exact fun hshallow => hshallow hbinary b root s hopen _ hlongest.1
  | false =>
    have hheight : node.height ≤ maxDepth := by
      unfold parse at h
      rw [hbinary, if_neg Bool.false_ne_true] at h
      split_ifs at h with hsize
      have hrun : parseXml bytes {} = (.ok node, (parseXml bytes {}).2) := Prod.ext h rfl
      exact ((parseXml_parses (Nat.le_of_not_lt hsize)).returned
        (start_within bytes) hrun).1
    exact ⟨fun _ habsurd => (by cases hbinary.symm.trans habsurd), fun _ => hheight⟩

/-- Two chains of sixteen arrays each, of which the second goes on to the first. -/
def deepObjects : Bytes :=
  text "bplist00" ++ [0xA2, 1, 17] ++ (List.range 15).flatMap (fun i => [0xA1, byte (i + 2)]) ++
    [0xA0] ++ (List.range 15).flatMap (fun i => [0xA1, byte (i + 18)]) ++ [0xA1, 1]

def deepOffsets : Bytes :=
  [8] ++ (List.range 15).map (fun i => byte (11 + 2 * i)) ++ [41] ++
    (List.range 16).map fun i => byte (42 + 2 * i)

def deepFile : Bytes :=
  deepObjects ++ deepOffsets ++ [0, 0, 0, 0, 0, 0, 1, 1] ++ [0, 0, 0, 0, 0, 0, 0, 33] ++
    [0, 0, 0, 0, 0, 0, 0, 0] ++ [0, 0, 0, 0, 0, 0, 0, byte deepObjects.length]

theorem deepFile_height : (parse deepFile).toOption.map Node.height = some 33 := by
  decide +kernel

theorem deepFile_parsed : ∃ node : Node, parse deepFile = .ok node ∧ node.height = 33 := by
  have hheight := deepFile_height
  cases hparse : parse deepFile with
  | error e =>
    rw [hparse] at hheight
    cases hheight
  | ok node =>
    rw [hparse] at hheight
    exact ⟨node, rfl, Option.some.inj hheight⟩

theorem depth_bounded_deep :
    ∃ node : Node, node.height = 33 ∧ (node.height ≤ maxDepth ↔ Shallow deepFile) := by
  obtain ⟨node, hparse, hheight⟩ := deepFile_parsed
  exact ⟨node, hheight, depth_bounded hparse⟩

/-- The first chain is read at depth 1 and returned at depth 17. -/
theorem depth_exceeded : ∃ node : Node, parse deepFile = .ok node ∧ ¬node.height ≤ maxDepth := by
  obtain ⟨node, hparse, hheight⟩ := deepFile_parsed
  refine ⟨node, hparse, ?_⟩
  rw [hheight]
  decide

theorem parse_total_deep : (parseBinary deepFile {}).2.visits ≤ maxBytes * 8 + 1 :=
  ((parse_total deepFile).2.2.2.1 (by decide +kernel)).2.1

end Parse

end Zimbr.Relay.Plist
