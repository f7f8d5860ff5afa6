import Mathlib.Logic.Relation
import Zimbr.Relay.LinkPreviewBounds

set_option autoImplicit false

/-!
# Archives have no cycles

What is resolved does not depend on the budgets, so the references of an archive are
a relation between its values, and one that was resolved has no cycle of them.
-/
namespace Zimbr.Relay.LinkPreview
open Library Plist

section Nesting

theorem visit_refuses (s : Archive) (x : Unit) (s' : Archive) : visit true s ≠ (.ok x, s') := by
  intro h
  obtain ⟨_, _, -, h⟩ := Checked.bind_ok.mp h
  obtain ⟨_, _, -, h⟩ := Checked.bind_ok.mp h
  obtain ⟨_, _, -, h⟩ := Checked.bind_ok.mp h
  exact absurd (Checked.require_ok.mp h).1 (by simp)

/-- The recursion of `resolve` in terms of its depth. -/
theorem resolve_depth (objects : List Node) (value : Node) (depth : Nat) :
    resolve objects value depth = visit (maxDepth ≤ depth) >>= fun _ =>
      resolveBody objects (fun inner => resolve objects inner (depth + 1)) value := by
  unfold resolve
  by_cases hdeep : maxDepth ≤ depth
  · rw [decide_eq_true hdeep, Nat.sub_eq_zero_of_le hdeep]
    exact Checked.bind_stopped visit_refuses _ _
  · rw [decide_eq_false hdeep]
    obtain ⟨levels, hlevels⟩ : ∃ levels, maxDepth - depth = levels + 1 :=
      ⟨maxDepth - depth - 1, by omega⟩
    have hnext : maxDepth - (depth + 1) = levels := by omega
    rw [hlevels, hnext]
    rfl

end Nesting

section Agree

variable {objects : List Node} {inner inner' : Node → Resolving Node}
  (hinner : ∀ value, Checked.Agree (inner value) (inner' value))

include hinner

theorem resolveUid_agree (uid : Nat) :
    Checked.Agree (resolveUid objects inner uid) (resolveUid objects inner' uid) := by
  refine .bind (.unit _ _) fun _ => .bind (.unit _ _) fun _ => .bind (.index _ _) fun target => ?_
  split_ifs
  · exact .pure _
  · exact .bind (.unit _ _) fun _ => .after (hinner target)

theorem keyedEntries_agree (pairs : List (Node × Node)) (done : List (Bytes × Node)) :
    Checked.Agree (keyedEntries inner pairs done) (keyedEntries inner' pairs done) := by
  induction pairs generalizing done with
  | nil => exact .pure done
  | cons pair rest ih =>
    obtain ⟨key, item⟩ := pair
    refine .bind (.orFail _ _) fun name => ?_
    split_ifs
    · exact ih done
    · exact .bind (.unit _ _) fun _ => .bind (hinner item) fun value => ih _

theorem plainEntries_agree (entries done : List (Bytes × Node)) :
    Checked.Agree (plainEntries inner entries done) (plainEntries inner' entries done) := by
  induction entries generalizing done with
  | nil => exact .pure done
  | cons entry rest ih =>
    obtain ⟨key, item⟩ := entry
    unfold plainEntries
    split_ifs
    · exact .bind (hinner item) fun value => ih _
    · exact ih done

theorem resolveKeyed_agree (keys : Node) (values : Option Node) :
    Checked.Agree (resolveKeyed inner keys values) (resolveKeyed inner' keys values) := by
  refine .bind (hinner keys) fun keys => .bind (.orFail _ _) fun values => ?_
  split
  · exact .bind (.unit _ _) fun _ => .bind (keyedEntries_agree hinner _ _) fun _ => .pure _
  · exact .fail

theorem resolveDict_agree (entries : List (Bytes × Node)) :
    Checked.Agree (resolveDict objects inner entries) (resolveDict objects inner' entries) := by
  refine .bind (.unit _ _) fun _ => ?_
  split
  · exact .bind (.unit _ _) fun _ => hinner _
  · exact hinner _
  · exact resolveKeyed_agree hinner _ _
  · exact .bind (plainEntries_agree hinner _ _) fun _ => .pure _

theorem resolveBody_agree (value : Node) :
    Checked.Agree (resolveBody objects inner value) (resolveBody objects inner' value) := by
  refine .bind (.unit _ _) fun _ => ?_
  cases value with
  | uid uid => exact resolveUid_agree hinner uid
  | array items => exact .bind (.each hinner items) fun _ => .pure _
  | dict entries => exact resolveDict_agree hinner entries
  | none => exact .pure _
  | boolean => exact .pure _
  | integer => exact .pure _
  | string => exact .pure _
  | data => exact .pure _

end Agree

/-- The levels and the budgets that are left decide only whether a value is resolved. -/
theorem resolveAt_agree (objects : List Node) (levels levels' : Nat) (value : Node) :
    Checked.Agree (resolveAt objects levels value) (resolveAt objects levels' value) := by
  induction levels generalizing levels' value with
  | zero =>
    intro s s' a a' t t' h
    obtain ⟨_, _, -, hfail⟩ := Checked.bind_ok.mp h
    exact absurd hfail Checked.fail_ok
  | succ levels ih =>
    cases levels' with
    | zero =>
      intro s s' a a' t t' _ h'
      obtain ⟨_, _, -, hfail⟩ := Checked.bind_ok.mp h'
      exact absurd hfail Checked.fail_ok
    | succ levels' =>
      exact .bind (.unit _ _) fun _ => resolveBody_agree (fun inner => ih levels' inner) value

section Cycles

variable (objects : List Node)

inductive Follows : Node → Node → Prop where
  | uid {uid : Nat} {target : Node} (htarget : objects[uid]? = some target)
      (hvalue : isNull uid target = false) : Follows (.uid uid) target
  | item {items : List Node} {item : Node} (hmem : item ∈ items) : Follows (.array items) item
  | base {entries : List (Bytes × Node)} {url base : Node}
      (hshape : shapeOf (.dict entries) = .relative url (some base)) : Follows (.dict entries) base
  | relative {entries : List (Bytes × Node)} {url : Node} {base : Option Node}
      (hshape : shapeOf (.dict entries) = .relative url base) : Follows (.dict entries) url
  | wrapped {entries : List (Bytes × Node)} {value : Node}
      (hshape : shapeOf (.dict entries) = .wrapped value) : Follows (.dict entries) value
  | keys {entries : List (Bytes × Node)} {keys : Node} {values : Option Node}
      (hshape : shapeOf (.dict entries) = .keyed keys values) : Follows (.dict entries) keys
  | value {entries : List (Bytes × Node)} {keys key item : Node} {names items : List Node}
      {levels : Nat} {s s' : Archive} {name : Bytes}
      (hshape : shapeOf (.dict entries) = .keyed keys (some (.array items)))
      (hkeys : resolveAt objects levels keys s = (.ok (.array names), s'))
      (hpair : (key, item) ∈ names.zip items) (hname : key.text = some name)
      (hknown : knownKey name = true) : Follows (.dict entries) item
  | entry {entries : List (Bytes × Node)} {key : Bytes} {item : Node}
      (hshape : shapeOf (.dict entries) = .plain) (hmem : (key, item) ∈ entries)
      (hknown : knownKey key = true) : Follows (.dict entries) item

/-- Following references comes back to a value. -/
def Cyclic (root : Node) : Prop :=
  ∃ value, Relation.ReflTransGen (Follows objects) root value ∧
    Relation.TransGen (Follows objects) value value

variable {objects}

/-- The value was resolved by a computation that returned. -/
def Resolved (inner : Node → Resolving Node) (value : Node) : Prop :=
  ∃ s r s', inner value s = (.ok r, s')

section Resolved

variable {inner : Node → Resolving Node} {s s' : Archive}

theorem keyedEntries_resolved {pairs : List (Node × Node)} {done r : List (Bytes × Node)}
    (h : keyedEntries inner pairs done s = (.ok r, s')) {key item : Node} {name : Bytes}
    (hmem : (key, item) ∈ pairs) (hname : key.text = some name) (hknown : knownKey name = true) :
    Resolved inner item := by
  induction pairs generalizing done s with
  | nil => exact absurd hmem List.not_mem_nil
  | cons pair rest ih =>
    obtain ⟨key', item'⟩ := pair
    obtain ⟨name', s₁, hname', hrest⟩ := Checked.bind_ok.mp h
    have hfirst := (Checked.orFail_ok.mp hname').1
    rcases List.mem_cons.mp hmem with heq | hlater
    · cases heq
      cases hfirst.symm.trans hname
      rw [hknown, Bool.not_true, if_neg Bool.false_ne_true] at hrest
      obtain ⟨_, _, -, hrest⟩ := Checked.bind_ok.mp hrest
      obtain ⟨value, s₃, hvalue, -⟩ := Checked.bind_ok.mp hrest
      exact ⟨_, value, s₃, hvalue⟩
    · split_ifs at hrest
      · exact ih hrest hlater
      · obtain ⟨_, _, -, hrest⟩ := Checked.bind_ok.mp hrest
        obtain ⟨_, _, -, hrest⟩ := Checked.bind_ok.mp hrest
        exact ih hrest hlater

theorem plainEntries_resolved {entries done r : List (Bytes × Node)}
    (h : plainEntries inner entries done s = (.ok r, s')) {key : Bytes} {item : Node}
    (hmem : (key, item) ∈ entries) (hknown : knownKey key = true) : Resolved inner item := by
  induction entries generalizing done s with
  | nil => exact absurd hmem List.not_mem_nil
  | cons entry rest ih =>
    obtain ⟨key', item'⟩ := entry
    unfold plainEntries at h
    rcases List.mem_cons.mp hmem with heq | hlater
    · cases heq
      rw [if_pos hknown] at h
      obtain ⟨value, s₁, hvalue, -⟩ := Checked.bind_ok.mp h
      exact ⟨_, value, s₁, hvalue⟩
    · split_ifs at h
      · obtain ⟨_, _, -, hrest⟩ := Checked.bind_ok.mp h
        exact ih hrest hlater
      · exact ih h hlater

theorem resolveUid_resolved {uid : Nat} {target r : Node}
    (h : resolveUid objects inner uid s = (.ok r, s')) (htarget : objects[uid]? = some target)
    (hvalue : isNull uid target = false) : Resolved inner target := by
  obtain ⟨_, _, -, h⟩ := Checked.bind_ok.mp h
  obtain ⟨_, _, -, h⟩ := Checked.bind_ok.mp h
  obtain ⟨found, _, hindex, h⟩ := Checked.bind_ok.mp h
  cases (Checked.index_ok.mp hindex).1.symm.trans htarget
  rw [hvalue, if_neg Bool.false_ne_true] at h
  obtain ⟨_, s₁, -, h⟩ := Checked.bind_ok.mp h
  obtain ⟨s₂, hrun, -⟩ := Checked.after_ok.mp h
  exact ⟨s₁, r, s₂, hrun⟩

theorem checkBase_resolved {base : Node} {x : Unit}
    (h : checkBase inner (some base) s = (.ok x, s')) : Resolved inner base := by
  obtain ⟨value, s₁, hvalue, -⟩ := Checked.bind_ok.mp h
  exact ⟨s, value, s₁, hvalue⟩

theorem resolveKeyed_resolved {keys r : Node} {values : Option Node}
    (h : resolveKeyed inner keys values s = (.ok r, s')) :
    ∃ s₁ names, inner keys s = (.ok names, s₁) ∧
      ∀ names' items, names = .array names' → values = some (.array items) →
        ∀ key item name, (key, item) ∈ names'.zip items → key.text = some name →
          knownKey name = true → Resolved inner item := by
  obtain ⟨names, s₁, hkeys, h⟩ := Checked.bind_ok.mp h
  obtain ⟨values', s₂, hvalues, h⟩ := Checked.bind_ok.mp h
  refine ⟨s₁, names, hkeys, ?_⟩
  rintro names items rfl rfl key item name hpair hname hknown
  cases (Checked.orFail_ok.mp hvalues).1
  obtain ⟨_, _, -, h⟩ := Checked.bind_ok.mp h
  obtain ⟨_, _, hentries, -⟩ := Checked.bind_ok.mp h
  exact keyedEntries_resolved hentries hpair hname hknown

theorem Follows.resolved {levels : Nat} {value next r : Node}
    (hfollows : Follows objects value next)
    (h : resolveAt objects (levels + 1) value s = (.ok r, s')) :
    Resolved (resolveAt objects levels) next := by
  obtain ⟨_, _, -, h⟩ := Checked.bind_ok.mp h
  obtain ⟨_, _, -, h⟩ := Checked.bind_ok.mp h
  cases hfollows with
  | uid htarget hvalue => exact resolveUid_resolved h htarget hvalue
  | item hmem =>
    obtain ⟨_, _, hitems, -⟩ := Checked.bind_ok.mp h
    exact Checked.each_ok hitems hmem
  | base hshape =>
    obtain ⟨_, _, -, h⟩ := Checked.bind_ok.mp h
    rw [hshape] at h
    obtain ⟨_, _, hbase, -⟩ := Checked.bind_ok.mp h
    exact checkBase_resolved hbase
  | relative hshape =>
    obtain ⟨_, _, -, h⟩ := Checked.bind_ok.mp h
    rw [hshape] at h
    obtain ⟨_, s₁, -, hurl⟩ := Checked.bind_ok.mp h
    exact ⟨s₁, r, s', hurl⟩
  | wrapped hshape =>
    obtain ⟨_, s₁, -, h⟩ := Checked.bind_ok.mp h
    rw [hshape] at h
    exact ⟨s₁, r, s', h⟩
  | keys hshape =>
    obtain ⟨_, _, -, h⟩ := Checked.bind_ok.mp h
    rw [hshape] at h
    obtain ⟨s₁, names, hkeys, -⟩ := resolveKeyed_resolved h
    exact ⟨_, names, s₁, hkeys⟩
  | value hshape hkeys hpair hname hknown =>
    obtain ⟨_, _, -, h⟩ := Checked.bind_ok.mp h
    rw [hshape] at h
    obtain ⟨s₁, names, hnames, hvalues⟩ := resolveKeyed_resolved h
    have hsame := resolveAt_agree objects _ _ _ _ _ _ _ _ _ hnames hkeys
    exact hvalues _ _ hsame rfl _ _ _ hpair hname hknown
  | entry hshape hmem hknown =>
    obtain ⟨_, _, -, h⟩ := Checked.bind_ok.mp h
    rw [hshape] at h
    obtain ⟨_, _, hentries, -⟩ := Checked.bind_ok.mp h
    exact plainEntries_resolved hentries hmem hknown

end Resolved

/-- Following references from a value that was resolved comes to an end. -/
theorem resolveAt_ends {levels : Nat} {value : Node}
    (h : Resolved (resolveAt objects levels) value) :
    Acc (fun next value => Follows objects value next) value := by
  induction levels generalizing value with
  | zero =>
    obtain ⟨s, r, s', hrun⟩ := h
    obtain ⟨_, _, -, hfail⟩ := Checked.bind_ok.mp hrun
    exact absurd hfail Checked.fail_ok
  | succ levels ih =>
    obtain ⟨s, r, s', hrun⟩ := h
    exact Acc.intro value fun next hfollows => ih (hfollows.resolved hrun)

theorem acyclic_of_ends {root : Node}
    (h : Acc (fun next value => Follows objects value next) root) : ¬Cyclic objects root := by
  induction h with
  | intro root _ ih =>
    rintro ⟨value, hreach, hcycle⟩
    -- one step along the path to the cycle, or along the cycle
    rcases hreach.cases_head with rfl | ⟨next, hstep, hrest⟩
    · obtain ⟨next, hstep, hback⟩ := Relation.TransGen.head'_iff.mp hcycle
      exact ih next hstep ⟨root, hback, hcycle⟩
    · exact ih next hstep ⟨value, hrest, hcycle⟩

end Cycles

section Copies

mutual

def Node.copied : Node → Nat
  | .array items => items.length * nodeSize + itemsCopied items
  | .dict entries => entries.length * entrySize + entriesCopied entries
  | _ => 0

def itemsCopied : List Node → Nat
  | [] => 0
  | item :: rest => Node.copied item + itemsCopied rest

def entriesCopied : List (Bytes × Node) → Nat
  | [] => 0
  | (_, item) :: rest => Node.copied item + entriesCopied rest

end

mutual

/-- Every node but the first has its place in a container. -/
theorem copied_le : ∀ value, Node.copied value + entrySize ≤ Node.size value * entrySize
  | .array items => by
    have hitems := itemsCopied_le items
    rw [Node.copied, Node.size, Nat.add_mul]
    omega
  | .dict entries => by
    have hentries := entriesCopied_le entries
    rw [Node.copied, Node.size, Nat.add_mul]
    omega
  | .none => by simp [Node.copied, Node.size]
  | .boolean _ => by simp [Node.copied, Node.size]
  | .integer _ => by simp [Node.copied, Node.size]
  | .string _ => by simp [Node.copied, Node.size]
  | .data _ => by simp [Node.copied, Node.size]
  | .uid _ => by simp [Node.copied, Node.size]

theorem itemsCopied_le : ∀ items : List Node,
    items.length * nodeSize + itemsCopied items ≤ itemsSize items * entrySize
  | [] => by simp [itemsCopied]
  | item :: rest => by
    have hfirst := copied_le item
    have hrest := itemsCopied_le rest
    have hsizes : nodeSize ≤ entrySize := by decide
    rw [List.length_cons, itemsCopied, itemsSize, Nat.succ_mul, Nat.add_mul]
    omega

theorem entriesCopied_le : ∀ entries : List (Bytes × Node),
    entries.length * entrySize + entriesCopied entries ≤ entriesSize entries * entrySize
  | [] => by simp [entriesCopied]
  | (_, item) :: rest => by
    have hfirst := copied_le item
    have hrest := entriesCopied_le rest
    rw [List.length_cons, entriesCopied, entriesSize, Nat.succ_mul, Nat.add_mul]
    omega

end

end Copies

section Total

/-- What `walk` resolves an archive from. -/
def opened (objects : List Node) : Archive := { active := List.replicate objects.length false }

theorem opened_expanding (objects : List Node) : Expanding objects 0 (opened objects) :=
  ⟨List.length_replicate, Nat.le_refl 0, Nat.zero_le _, Nat.zero_le _⟩

variable (safe : Bytes → Bool) (json : LinkPreview → Bytes)

theorem walk_expands (value : Node) :
    Checked.Meets (fun s => s = {}) Spilled (walk safe json value)
      fun _ s => s.visits ≤ maxObjects ∧ s.expandedBytes ≤ maxExpanded := by
  have hfresh : ∀ e (s : Archive), s = {} → Spilled e s := by
    rintro e s rfl
    exact ⟨Or.inl (Nat.zero_le _), Nat.zero_le _⟩
  refine Checked.Keeps.andThen (.ofExcept hfresh) fun archive _ => ?_
  obtain ⟨objects, root⟩ := archive
  refine Checked.Meets.bind (Q := fun _ => Expanding objects 0) (.modify ?_) fun _ => ?_
  · rintro s rfl
    exact opened_expanding objects
  · refine Checked.Meets.bind ((resolveAt_expands objects maxDepth root 0).weaken
      fun r s hs => hs.less (Nat.zero_le _)) fun resolved => ?_
    exact Checked.Keeps.andThen (.ofExcept Expanding.spilled) fun _ _ => .pure fun s hs =>
      ⟨hs.visits, hs.expanded⟩

variable {safe json}

theorem walk_resolved {value root : Node} {objects : List Node} {result : Result}
    (hopen : openArchive value = .ok (objects, root))
    (h : (walk safe json value {}).1 = .ok result) :
    ∃ r s', resolve objects root 0 (opened objects) = (.ok r, s') := by
  have hrun : walk safe json value {} = (.ok result, (walk safe json value {}).2) := Prod.ext h rfl
  obtain ⟨_, _, harchive, hrun⟩ := Checked.bind_ok.mp hrun
  obtain ⟨hsame, rfl⟩ := Checked.ofExcept_ok.mp harchive
  cases hsame.symm.trans hopen
  obtain ⟨_, _, hactive, hrun⟩ := Checked.bind_ok.mp hrun
  cases Checked.modify_ok.mp hactive
  obtain ⟨r, s', hresolve, -⟩ := Checked.bind_ok.mp hrun
  exact ⟨r, s', hresolve⟩

/-- What was resolved has no more nodes than were visited, and no cycle. -/
theorem resolve_returned {objects : List Node} {root r : Node} {s' : Archive}
    (h : resolve objects root 0 (opened objects) = (.ok r, s')) :
    Node.size r ≤ maxObjects ∧ Node.copied r ≤ maxExpanded ∧ ¬Cyclic objects root := by
  have hexpanding := (resolveAt_expands objects maxDepth root 0).returned (opened_expanding objects) h
  have hsize : Node.size r ≤ maxObjects := by
    have hleast := hexpanding.least
    have hvisits := hexpanding.visits
    omega
  have hcopied : Node.copied r ≤ maxExpanded := by
    have hplaces := copied_le r
    have hbytes := Nat.mul_le_mul_right entrySize hsize
    have hbudget : maxObjects * entrySize ≤ maxExpanded := by decide
    omega
  exact ⟨hsize, hcopied, acyclic_of_ends (resolveAt_ends ⟨_, r, s', h⟩)⟩

/-- Resolving stops on every property list, without a trap and within its budgets, and
what it returns had no cycle of references. -/
theorem resolve_total (safe : Bytes → Bool) (json : LinkPreview → Bytes) (value : Node) :
    (∀ objects value depth, resolve objects value depth = visit (maxDepth ≤ depth) >>= fun _ =>
      resolveBody objects (fun inner => resolve objects inner (depth + 1)) value) ∧
    (walk safe json value {}).1 ≠ .error .trap ∧
    (walk safe json value {}).2.expandedBytes ≤ maxExpanded ∧
    ((walk safe json value {}).2.visits ≤ maxObjects ∨
      (walk safe json value {}).1 = .error (.error .oversized) ∧
        (walk safe json value {}).2.visits = maxObjects + 1) ∧
    (∀ objects root r s', resolve objects root 0 (opened objects) = (.ok r, s') →
      Node.size r ≤ maxObjects ∧ Node.copied r ≤ maxExpanded) ∧
    ∀ objects root, openArchive value = .ok (objects, root) → Cyclic objects root →
      ∃ e, (walk safe json value {}).1 = .error (.error e) := by
  have hrun := walk_expands safe json value {} rfl
  have hreturned : ∀ objects root r s', resolve objects root 0 (opened objects) = (.ok r, s') →
      Node.size r ≤ maxObjects ∧ Node.copied r ≤ maxExpanded := fun objects root r s' h =>
    ⟨(resolve_returned h).1, (resolve_returned h).2.1⟩
  cases hwalk : walk safe json value {} with
  | mk outcome s =>
    rw [hwalk] at hrun
    match outcome, hrun with
    | .error .trap, hrun => exact hrun.elim
    | .error (.error e), hspilled =>
      refine ⟨resolve_depth, nofun, hspilled.expanded, ?_, hreturned, fun _ _ _ _ => ⟨e, rfl⟩⟩
      rcases hspilled.visits with hvisits | ⟨rfl, hlast⟩
      · exact Or.inl hvisits
      · exact Or.inr ⟨rfl, hlast⟩
    | .ok result, hkept =>
      refine ⟨resolve_depth, nofun, hkept.2, Or.inl hkept.1, hreturned, ?_⟩
      intro objects root hopen hcycle
      have hok : (walk safe json value {}).1 = .ok result := by rw [hwalk]
      obtain ⟨r, s', hresolve⟩ := walk_resolved hopen hok
      exact absurd hcycle (resolve_returned hresolve).2.2

end Total

def cyclicObjects : List Node := [.string (text "$null"), .array [.uid 1]]

def cyclicArchive : Node := .dict [
  (text "$archiver", .string (text "NSKeyedArchiver")),
  (text "$objects", .array cyclicObjects),
  (text "$top", .dict [(text "root", .uid 1)])]

/-- An archive whose array holds itself is refused. -/
example : Cyclic cyclicObjects (.uid 1) ∧
    (walk (fun _ => true) (fun _ => []) cyclicArchive {}).1 = .error (.error .malformed) :=
  ⟨⟨.uid 1, .refl, .tail (.single (.uid rfl rfl)) (.item List.mem_cons_self)⟩, rfl⟩

end Zimbr.Relay.LinkPreview
