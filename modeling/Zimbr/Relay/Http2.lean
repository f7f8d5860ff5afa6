import Zimbr.Library.Checked
import Zimbr.Library.Machine
import Zimbr.Library.Totals
import Zimbr.Protocol.Common

set_option autoImplicit false

/-!
# The memory of HTTP/2 sessions

nghttp2 allocates from a budget. Each allocation carries its length in front of the bytes
it is used for. Touching memory that is not allocated traps.
-/
namespace Zimbr.Http2
open Library

/-- The size of the length and its padding. -/
def prefixSize : Nat := 16

/-- The length that was charged, and the bytes after it. -/
structure Block where
  len : Nat
  data : Bytes
  deriving DecidableEq, Repr

structure Memory where
  limit : UInt64
  used : Nat := 0
  live : Table Nat Block := Table.empty

/-- Where the allocator beneath has put an allocation, and the bytes that were there. -/
abbrev Answer := Option (Nat × (Nat → UInt8))

def allocation (pointer : Nat) : Checked Empty Memory Block := do
  let live ← Checked.get Memory.live
  Checked.orTrap (live.get? pointer)

def allocate (size : Nat) (answer : Answer) : Checked Empty Memory (Option Nat) :=
  if size + prefixSize ≥ 2 ^ 64 then pure none
  else do
    let limit ← Checked.get fun m => m.limit.toNat
    let used ← Checked.get Memory.used
    let room ← Checked.sub limit used
    if size + prefixSize > room then pure none
    else match answer with
      | none => pure none
      | some (pointer, undefined) => do
        let live ← Checked.get Memory.live
        let live ← Checked.orTrap
          (live.insert pointer ⟨size + prefixSize, (List.range size).map undefined⟩)
        let used ← Checked.add used (size + prefixSize)
        Checked.modify fun m => { m with live := live, used := used }
        pure (some pointer)

def release (pointer : Option Nat) : Checked Empty Memory Unit :=
  match pointer with
  | none => pure ()
  | some pointer => do
    let bytes ← allocation pointer
    let used ← Checked.get Memory.used
    let used ← Checked.sub used bytes.len
    Checked.modify fun m => { m with
      used := used, live := m.live.deleteWhere fun other _ => decide (other = pointer) }

/-- `@memcpy` to the start of an allocation. -/
def fill (pointer : Nat) (bytes : Bytes) : Checked Empty Memory Unit := do
  let block ← allocation pointer
  let _ ← Checked.slice block.data 0 bytes.length
  Checked.modify fun m => { m with
    live := m.live.modify pointer fun block => { block with
      data := bytes ++ block.data.drop bytes.length } }

def zeroed (count size : Nat) (answer : Answer) : Checked Empty Memory (Option Nat) :=
  if count * size ≥ 2 ^ 64 then pure none
  else do
    let pointer ← allocate (count * size) answer
    match pointer with
    | none => pure none
    | some pointer => do
      fill pointer (List.replicate (count * size) 0)
      pure (some pointer)

def resize (pointer : Option Nat) (size : Nat) (answer : Answer) :
    Checked Empty Memory (Option Nat) :=
  match pointer with
  | none => allocate size answer
  | some pointer => do
    let old ← allocation pointer
    -- Charge peak allocation, not just the final size, while copying.
    let next ← allocate size answer
    match next with
    | none => pure none
    | some next => do
      let kept ← Checked.sub old.len prefixSize
      let bytes ← Checked.slice old.data 0 (min size kept)
      fill next bytes
      release (some pointer)
      pure (some next)

/-- What nghttp2 may ask for, with the answer of the allocator beneath, and its writes to
what it has. -/
inductive Call where
  | malloc (size : Nat) (answer : Answer)
  | calloc (count size : Nat) (answer : Answer)
  | realloc (pointer : Option Nat) (size : Nat) (answer : Answer)
  | free (pointer : Option Nat)
  | write (pointer : Nat) (bytes : Bytes)

def perform : Call → Checked Empty Memory (Option Nat)
  | .malloc size answer => allocate size answer
  | .calloc count size answer => zeroed count size answer
  | .realloc pointer size answer => resize pointer size answer
  | .free pointer => do
    release pointer
    pure none
  | .write pointer bytes => do
    fill pointer bytes
    pure none

def after (m : Memory) (call : Call) : Option Memory :=
  match perform call m with
  | (.ok _, m') => some m'
  | (.error _, _) => none

def machine : Machine (Option Memory) Call Unit where
  step m call := m.bind fun m => after m call
  out _ _ := []

/-- The budget counts what is allocated, and no more than the limit is. -/
structure Accounted (limit : UInt64) (m : Memory) : Prop where
  fixed : m.limit = limit
  used : m.used = m.live.total Block.len
  bounded : m.used ≤ limit.toNat
  charged : ∀ pointer block, m.live.get? pointer = some block →
    block.len = block.data.length + prefixSize

def Fresh (m : Memory) : Answer → Prop
  | none => True
  | some (pointer, _) => m.live.get? pointer = none

def Live (m : Memory) : Option Nat → Prop
  | none => True
  | some pointer => (m.live.get? pointer).isSome = true

/-- The allocator beneath gives out no memory twice, and nghttp2 uses only what it has. -/
def Allowed (m : Memory) : Call → Prop
  | .malloc _ answer => Fresh m answer
  | .calloc _ _ answer => Fresh m answer
  | .realloc pointer _ answer => Fresh m answer ∧ Live m pointer
  | .free pointer => Live m pointer
  | .write pointer bytes =>
    (m.live.get? pointer).any (fun block => decide (bytes.length ≤ block.data.length)) = true

instance (m : Memory) (answer : Answer) : Decidable (Fresh m answer) := by
  cases answer <;> unfold Fresh <;> infer_instance

instance (m : Memory) (pointer : Option Nat) : Decidable (Live m pointer) := by
  cases pointer <;> unfold Live <;> infer_instance

instance (m : Memory) (call : Call) : Decidable (Allowed m call) := by
  cases call <;> unfold Allowed <;> infer_instance

def Permitted (s : Option Memory) (call : Call) : Prop := ∀ m ∈ s, Allowed m call

instance (s : Option Memory) (call : Call) : Decidable (Permitted s call) :=
  inferInstanceAs (Decidable (∀ m ∈ s, Allowed m call))

def charge (m : Memory) (pointer : Nat) : Option Nat := (m.live.get? pointer).map Block.len

def requested : Call → Nat
  | .malloc size _ | .realloc _ size _ => size
  | .calloc count size _ => count * size
  | .free _ | .write _ _ => 0

/-- The block that a call gives back. A reallocation gives its block back if it has another. -/
def returned : Call → Option Nat → Option Nat
  | .free pointer, _ => pointer
  | .realloc pointer _ _, some _ => pointer
  | _, _ => none

/-- One block was charged and one given back, with what was charged for it. -/
structure Settled (m : Memory) (size : Nat) (taken freed : Option Nat) (m' : Memory) : Prop where
  blocks : ∀ pointer, charge m' pointer =
    if taken = some pointer then some (size + prefixSize)
    else if freed = some pointer then none else charge m pointer
  used : m'.used + (freed.bind (charge m)).getD 0 =
    m.used + taken.elim 0 fun _ => size + prefixSize

variable {limit : UInt64} {m m' : Memory} {size : Nat} {answer : Answer}

theorem Settled.same (m : Memory) (size : Nat) : Settled m size none none m :=
  ⟨fun _ => rfl, rfl⟩

/-- An allocation fails and changes nothing, or charges a fresh block. -/
theorem allocate_cases (h : Accounted limit m) (hfresh : Fresh m answer) (size : Nat) :
    allocate size answer m = (.ok none, m) ∨
      ∃ pointer block m', allocate size answer m = (.ok (some pointer), m') ∧ Accounted limit m' ∧
        m.live.insert pointer block = some m'.live ∧ block.data.length = size ∧
        Settled m size (some pointer) none m' := by
  obtain rfl := h.fixed
  unfold allocate
  split_ifs with hover
  · exact Or.inl rfl
  · rw [Checked.bind_get, Checked.bind_get,
      Checked.bind_eq (Checked.sub_ok.mpr ⟨h.bounded, rfl, rfl⟩)]
    split_ifs with hfull
    · exact Or.inl rfl
    · cases answer with
      | none => exact Or.inl rfl
      | some given =>
        obtain ⟨pointer, undefined⟩ := given
        obtain ⟨live, hlive⟩ := m.live.insert_isSome pointer
          ⟨size + prefixSize, (List.range size).map undefined⟩ hfresh
        have hlimit := m.limit.toNat_lt
        have hbounded := h.bounded
        dsimp only
        rw [Checked.bind_get,
          Checked.bind_eq (Checked.orTrap_ok.mpr ⟨hlive, rfl⟩),
          Checked.bind_eq (Checked.add_ok.mpr ⟨by omega, rfl, rfl⟩),
          Checked.bind_eq (a := ()) (Checked.modify_ok.mpr rfl)]
        refine Or.inr ⟨pointer, _, _, rfl, ⟨rfl, ?_, ?_, ?_⟩, hlive, by simp, ?_, rfl⟩
        · rw [Table.total_insert _ hlive, h.used]
        · dsimp only
          omega
        · exact Table.all_insert h.charged hlive (by simp)
        · intro other
          rw [charge, Table.get?_insert hlive]
          by_cases hsame : other = pointer
          · simp [hsame]
          · simp [hsame, Ne.symm hsame, charge]

theorem allocation_eq {pointer : Nat} {block : Block} (h : m.live.get? pointer = some block) :
    allocation pointer m = (.ok block, m) := by
  unfold allocation
  rw [Checked.bind_get]
  exact Checked.orTrap_ok.mpr ⟨h, rfl⟩

def released (m : Memory) (pointer : Nat) (block : Block) : Memory :=
  { m with
    used := m.used - block.len
    live := m.live.deleteWhere fun other _ => decide (other = pointer) }

theorem release_eq {pointer : Nat} {block : Block} (h : Accounted limit m)
    (hlive : m.live.get? pointer = some block) :
    release (some pointer) m = (.ok (), released m pointer block) ∧
      Accounted limit (released m pointer block) ∧
      Settled m 0 none (some pointer) (released m pointer block) := by
  have hle : block.len ≤ m.used := by
    rw [h.used]
    exact Table.weight_le_total hlive
  refine ⟨?_, ?_, fun other => ?_, ?_⟩
  · unfold release
    dsimp only
    rw [Checked.bind_eq (allocation_eq hlive), Checked.bind_get,
      Checked.bind_eq (Checked.sub_ok.mpr ⟨hle, rfl, rfl⟩)]
    rfl
  · have htotal := Table.total_delete Block.len hlive
    obtain ⟨fixed, used, bounded, charged⟩ := h
    refine ⟨fixed, ?_, ?_, fun other block' hother => ?_⟩
    · dsimp only [released]
      omega
    · dsimp only [released]
      omega
    · rw [released, Table.get?_deleteWhere, Option.filter_eq_some_iff] at hother
      exact charged other block' hother.1
  · rw [charge, released, Table.get?_deleteWhere]
    by_cases hsame : other = pointer
    · simp [hsame]
    · rw [if_neg (by simp), if_neg fun heq => hsame (Option.some.inj heq).symm, charge]
      simp only [hsame, decide_false, Bool.not_false]
      cases m.live.get? other <;> rfl
  · have hcharged : charge m pointer = some block.len := by rw [charge, hlive, Option.map_some]
    rw [Option.bind_some, hcharged, Option.getD_some, Option.elim_none]
    exact Nat.sub_add_cancel hle

def filled (m : Memory) (pointer : Nat) (bytes : Bytes) : Memory :=
  { m with live := m.live.modify pointer fun block => { block with
      data := bytes ++ block.data.drop bytes.length } }

theorem fill_eq {pointer : Nat} {block : Block} (bytes : Bytes) (h : Accounted limit m)
    (hlive : m.live.get? pointer = some block) (hfits : bytes.length ≤ block.data.length) :
    fill pointer bytes m = (.ok (), filled m pointer bytes) ∧
      Accounted limit (filled m pointer bytes) ∧ charge (filled m pointer bytes) = charge m := by
  refine ⟨?_, ?_, ?_⟩
  · unfold fill
    rw [Checked.bind_eq (allocation_eq hlive),
      Checked.bind_eq (Checked.slice_ok.mpr ⟨by omega, rfl, rfl⟩)]
    rfl
  · have htotal := Table.total_modify Block.len
      (f := fun block => { block with data := bytes ++ block.data.drop bytes.length }) hlive
    obtain ⟨fixed, used, bounded, charged⟩ := h
    refine ⟨fixed, ?_, bounded, fun other block' hother => ?_⟩
    · dsimp only [filled] at htotal ⊢
      omega
    · rw [filled, Table.get?_modify] at hother
      split_ifs at hother with hsame
      · subst hsame
        rw [hlive, Option.map_some, Option.some.injEq] at hother
        have hcharged := charged other block hlive
        rw [← hother]
        simp only [List.length_append, List.length_drop]
        omega
      · exact charged other block' hother
  · funext other
    rw [charge, filled, Table.get?_modify]
    split_ifs with hsame
    · rw [Option.map_map, charge, hsame]
      rfl
    · rfl

theorem Settled.filled {taken freed : Option Nat} (h : Settled m size taken freed m')
    {pointer : Nat} {bytes : Bytes} (hfilled : charge (filled m' pointer bytes) = charge m') :
    Settled m size taken freed (filled m' pointer bytes) :=
  ⟨fun other => hfilled ▸ h.blocks other, h.used⟩

theorem Settled.release {pointer next : Nat} {m₁ : Memory} (h : Settled m size (some next) none m₁)
    (hother : pointer ≠ next) (hfreed : Settled m₁ 0 none (some pointer) m') :
    Settled m size (some next) (some pointer) m' := by
  have hcharged : charge m₁ pointer = charge m pointer := by
    rw [h.blocks, if_neg (by simpa using hother.symm), if_neg (by simp)]
  refine ⟨fun other => ?_, ?_⟩
  · rw [hfreed.blocks, if_neg (by simp), h.blocks, if_neg (c := none = some other) (by simp)]
    by_cases hsame : pointer = other
    · subst hsame
      simp [hother.symm]
    · simp [hsame]
  · have hused := h.used
    have hrefund := hfreed.used
    rw [Option.bind_some, hcharged] at hrefund
    rw [Option.bind_none, Option.getD_none] at hused
    rw [Option.elim_none] at hrefund
    rw [Option.bind_some]
    omega

theorem zeroed_cases (h : Accounted limit m) (hfresh : Fresh m answer) (count size : Nat) :
    zeroed count size answer m = (.ok none, m) ∨
      ∃ pointer m', zeroed count size answer m = (.ok (some pointer), m') ∧ Accounted limit m' ∧
        Settled m (count * size) (some pointer) none m' := by
  unfold zeroed
  split_ifs with hover
  · exact Or.inl rfl
  · rcases allocate_cases h hfresh (count * size) with
      hfail | ⟨pointer, block, m', hdone, haccounted, hlive, hdata, hsettled⟩
    · rw [Checked.bind_eq hfail]
      exact Or.inl rfl
    · have hget : m'.live.get? pointer = some block := by
        rw [Table.get?_insert hlive, if_pos rfl]
      obtain ⟨hfill, hfilled, hcharged⟩ := fill_eq (List.replicate (count * size) 0) haccounted hget
        (by rw [List.length_replicate, hdata])
      rw [Checked.bind_eq hdone]
      dsimp only
      rw [Checked.bind_eq hfill]
      exact Or.inr ⟨pointer, _, rfl, hfilled, hsettled.filled hcharged⟩

/-- A reallocation fails and changes nothing, or moves what the old block held. -/
theorem resize_cases {pointer : Option Nat} (h : Accounted limit m) (hfresh : Fresh m answer)
    (hpointer : Live m pointer) (size : Nat) :
    resize pointer size answer m = (.ok none, m) ∨
      ∃ next m', resize pointer size answer m = (.ok (some next), m') ∧ Accounted limit m' ∧
        Settled m size (some next) pointer m' ∧ ∀ p old, pointer = some p → m.live.get? p = some old → ∃ new,
          m'.live.get? next = some new ∧ new.data.length = size ∧ m'.live.get? p = none ∧
          new.data.take (min size old.data.length) = old.data.take (min size old.data.length) := by
  cases pointer with
  | none =>
    rcases allocate_cases h hfresh size with
      hfail | ⟨next, block, m', hdone, haccounted, -, -, hsettled⟩
    · exact Or.inl hfail
    · exact Or.inr ⟨next, m', hdone, haccounted, hsettled, fun p old hnone => nomatch hnone⟩
  | some pointer =>
    obtain ⟨old, hold⟩ := Option.isSome_iff_exists.mp hpointer
    unfold resize
    dsimp only
    rw [Checked.bind_eq (allocation_eq hold)]
    rcases allocate_cases h hfresh size with
      hfail | ⟨next, block, m₁, hdone, haccounted, hlive, hdata, hsettled⟩
    · rw [Checked.bind_eq hfail]
      exact Or.inl rfl
    · have hcharged := h.charged pointer old hold
      have hnext : m₁.live.get? next = some block := by
        rw [Table.get?_insert hlive, if_pos rfl]
      have hfresh' := Table.get?_of_insert hlive
      have hother : pointer ≠ next := by
        rintro rfl
        exact nomatch hold.symm.trans hfresh'
      have hkept : m₁.live.get? pointer = some old := by
        rw [Table.get?_insert hlive, if_neg hother, hold]
      have hlength : (old.data.take (min size (old.len - prefixSize))).length ≤ block.data.length := by
        rw [List.length_take, hdata]
        omega
      obtain ⟨hfill, hfilled, hwritten⟩ := fill_eq _ haccounted hnext hlength
      have hstill : (filled m₁ next (old.data.take (min size (old.len - prefixSize)))).live.get?
          pointer = some old := by
        rw [filled, Table.get?_modify, if_neg hother, hkept]
      obtain ⟨hrelease, hreleased, hfreed⟩ := release_eq hfilled hstill
      rw [Checked.bind_eq hdone]
      dsimp only
      rw [Checked.bind_eq (Checked.sub_ok.mpr ⟨by omega, rfl, rfl⟩),
        Checked.bind_eq (Checked.slice_ok.mpr ⟨by omega, rfl, rfl⟩), List.drop_zero,
        Checked.bind_eq hfill, Checked.bind_eq hrelease]
      refine Or.inr ⟨next, _, rfl, hreleased, (hsettled.filled hwritten).release hother hfreed,
        fun p old' hp hold' => ?_⟩
      obtain rfl := Option.some.inj hp
      obtain rfl := Option.some.inj (hold.symm.trans hold')
      have hsize : old.len - prefixSize = old.data.length := by omega
      rw [hsize] at hlength ⊢
      have hnew : (released (filled m₁ next (old.data.take (min size old.data.length))) pointer
          old).live.get? next = some ((fun block : Block => { block with
            data := old.data.take (min size old.data.length) ++
              block.data.drop (old.data.take (min size old.data.length)).length }) block) := by
        rw [released, Table.get?_deleteWhere, filled, Table.get?_modify, if_pos rfl, hnext]
        simp [Ne.symm hother]
      refine ⟨_, hnew, ?_, ?_, ?_⟩
      · simp only [List.length_append, List.length_drop]
        omega
      · rw [released, Table.get?_deleteWhere]
        simp
      · exact List.take_left' (by rw [List.length_take]; omega)

theorem perform_accounted {call : Call} (h : Accounted limit m) (hallowed : Allowed m call) :
    ∃ result m', perform call m = (.ok result, m') ∧ Accounted limit m' ∧
      Settled m (requested call) result (returned call result) m' := by
  cases call with
  | malloc size answer =>
    rcases allocate_cases h hallowed size with
      hfail | ⟨pointer, block, m', hdone, haccounted, -, -, hsettled⟩
    · exact ⟨none, m, hfail, h, .same m size⟩
    · exact ⟨some pointer, m', hdone, haccounted, hsettled⟩
  | calloc count size answer =>
    rcases zeroed_cases h hallowed count size with
      hfail | ⟨pointer, m', hdone, haccounted, hsettled⟩
    · exact ⟨none, m, hfail, h, .same m (count * size)⟩
    · exact ⟨some pointer, m', hdone, haccounted, hsettled⟩
  | realloc pointer size answer =>
    rcases resize_cases h hallowed.1 hallowed.2 size with
      hfail | ⟨next, m', hdone, haccounted, hsettled, -⟩
    · exact ⟨none, m, hfail, h, .same m size⟩
    · exact ⟨some next, m', hdone, haccounted, hsettled⟩
  | free pointer =>
    cases pointer with
    | none => exact ⟨none, m, rfl, h, .same m 0⟩
    | some pointer =>
      obtain ⟨block, hblock⟩ := Option.isSome_iff_exists.mp hallowed
      obtain ⟨hrelease, hreleased, hfreed⟩ := release_eq h hblock
      exact ⟨none, _, Checked.bind_eq hrelease, hreleased, hfreed⟩
  | write pointer bytes =>
    obtain ⟨block, hblock, hfits⟩ : ∃ block, m.live.get? pointer = some block ∧
        bytes.length ≤ block.data.length := by
      unfold Allowed at hallowed
      cases hget : m.live.get? pointer with
      | none => simp [hget] at hallowed
      | some block => exact ⟨block, rfl, by simpa [hget] using hallowed⟩
    obtain ⟨hfill, hfilled, hcharged⟩ := fill_eq _ h hblock hfits
    exact ⟨none, _, Checked.bind_eq hfill, hfilled, (Settled.same m 0).filled hcharged⟩

/-- In every run of allowed calls the budget counts what is allocated. Any call then
charges the block it returns, gives back one that was freed or moved with its charge, and
leaves the others; a failed reallocation changes nothing. -/
theorem run_accounted (limit : UInt64) (calls : List Call)
    (allowed : ∀ before call later, calls = before ++ call :: later →
      Permitted (machine.run (some { limit := limit }) before) call) :
    ∃ m, machine.run (some { limit := limit }) calls = some m ∧ Accounted limit m ∧
      (∀ call, Allowed m call → ∃ result m', perform call m = (.ok result, m') ∧
        Settled m (requested call) result (returned call result) m') ∧
      ∀ pointer size answer m', Fresh m answer → Live m pointer →
        resize pointer size answer m = (.ok none, m') → m' = m := by
  have hstep : ∀ (s : Option Memory) (call : Call), (∃ m, s = some m ∧ Accounted limit m) →
      Permitted s call → ∃ m, machine.step s call = some m ∧ Accounted limit m := by
    rintro s call ⟨m, rfl, haccounted⟩ hallowed
    obtain ⟨result, m', hperform, haccounted', -⟩ := perform_accounted haccounted (hallowed m rfl)
    refine ⟨m', ?_, haccounted'⟩
    change after m call = _
    rw [after, hperform]
  have hstart : Accounted limit { limit := limit } :=
    ⟨rfl, rfl, Nat.zero_le _, fun _ _ hnone => nomatch hnone⟩
  obtain ⟨m, hrun, haccounted⟩ := machine.run_invariant_when
    (I := fun s => ∃ m, s = some m ∧ Accounted limit m) hstep _ calls ⟨_, rfl, hstart⟩ allowed
  refine ⟨m, hrun, haccounted, fun call hcall => ?_,
    fun pointer size answer m' hfresh hlive hfail => ?_⟩
  · obtain ⟨result, m', hperform, -, hsettled⟩ := perform_accounted haccounted hcall
    exact ⟨result, m', hperform, hsettled⟩
  · rcases resize_cases haccounted hfresh hlive size with hsame | ⟨next, moved, hdone, -⟩
    · exact (Prod.mk.inj (hfail.symm.trans hsame)).2
    · exact nomatch (Prod.mk.inj (hfail.symm.trans hdone)).1

section Example

/-- The second reallocation is over the limit of 64 bytes. -/
def calls : List Call :=
  [.malloc 10 (some (1, fun _ => 7)), .realloc (some 1) 20 (some (2, fun _ => 7)),
    .realloc (some 2) 20 (some (3, fun _ => 7)), .calloc 0 8 (some (3, fun _ => 7)), .free (some 2)]

theorem run_accounted_calls : ∃ m, machine.run (some { limit := 64 }) calls = some m ∧
    Accounted 64 m ∧ (∀ call, Allowed m call → ∃ result m', perform call m = (.ok result, m') ∧
      Settled m (requested call) result (returned call result) m') ∧
    ∀ pointer size answer m', Fresh m answer → Live m pointer →
      resize pointer size answer m = (.ok none, m') → m' = m := by
  refine run_accounted 64 calls ?_
  refine machine.meets_cons (by decide)
    (machine.meets_cons (by decide) (machine.meets_cons (by decide) (machine.meets_cons (by decide)
      (machine.meets_cons (by decide) machine.meets_nil))))

example : (machine.run (some { limit := 64 }) calls).map Memory.used = some 16 := by decide

end Example

end Zimbr.Http2
