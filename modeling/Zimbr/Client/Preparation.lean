import Zimbr.Library.Machine
import Zimbr.Protocol.Common
import Mathlib.Data.List.Basic

set_option autoImplicit false

/-!
# Preparing private originals

One file worker stages the files that the main client worker has queued. Each critical
section is one step, and they interleave freely; shutting down is left out.
-/
namespace Zimbr
open Library

namespace Preparation

inductive Health where
  | starting | ready | failed
  deriving DecidableEq, Repr

inductive StageError where
  | invalidRequest | attachmentTooLarge | tooManyAttachments | attachmentStorageFull
  | attachmentStorageUnavailable | attachmentSourceUnavailable | attachmentSourceChanged
  | attachmentCanceled | randomUnavailable | outOfMemory | query
  deriving DecidableEq, Repr

structure Task where
  key : Bytes
  path : Bytes
  cancelled : Bool := false
  fileId : Option Bytes := none
  failure : Option StageError := none
  deriving DecidableEq, Repr

def Task.request (task : Task) : Bytes × Bytes := (task.key, task.path)

end Preparation

open Preparation in
/-- The queue, and around it the request that the main worker has admitted and not yet
pushed, those pushed, and the tasks it has taken. -/
structure Preparation where
  health : Health := .starting
  pending : List Task := []
  results : List Task := []
  active : Option Task := none
  count : Nat := 0
  admitted : Option (Bytes × Bytes) := none
  accepted : List (Bytes × Bytes) := []
  taken : List Task := []
  deriving DecidableEq, Repr

namespace Preparation

/-- The main worker's part of an attach command before the push. -/
def attach (s : Preparation) (key path : Bytes) : Preparation :=
  if s.health != .failed then { s with admitted := some (key, path) } else s

/-- Queue up to two full 16-file drops. The allocations may fail. -/
def push (s : Preparation) (key path : Bytes) (allocated : Bool) : Preparation :=
  if s.count = 32 then s
  else if !allocated then s
  else { s with
    pending := s.pending ++ [{ key := key, path := path }]
    count := s.count + 1
    accepted := s.accepted ++ [(key, path)] }

def cancelTask (key : Bytes) (task : Task) : Task :=
  if task.key = key then { task with cancelled := true } else task

def cancel (s : Preparation) (key : Bytes) : Preparation :=
  { s with
    active := s.active.map (cancelTask key)
    pending := s.pending.map (cancelTask key)
    results := s.results.map (cancelTask key) }

/-- Transfer a completed task to the caller. -/
def take (s : Preparation) : Preparation :=
  match s.results with
  | [] => s
  | task :: rest => { s with
    results := rest, count := s.count - 1, taken := s.taken ++ [task] }

def finished (task : Task) : Except StageError Bytes → Task
  | .ok file => { task with fileId := some file }
  | .error e => { task with failure := some e }

/-- A worker that cannot start completes what is queued. -/
def fail (s : Preparation) : Preparation :=
  { s with
    results := s.results ++ s.pending.map fun task => {
      task with failure := some .attachmentStorageUnavailable }
    pending := []
    health := .failed }

/-- The file worker's next critical section. `outcome` is how what it did before it came
out: opening the store, or staging the active task. -/
def work (s : Preparation) (outcome : Except StageError Bytes) : Preparation :=
  match s.health with
  | .starting => match outcome with
    | .ok _ => { s with health := .ready }
    | .error _ => fail s
  | .ready => match s.active with
    | some task => { s with active := none, results := s.results ++ [finished task outcome] }
    | none => match s.pending with
      | [] => s
      | task :: rest => { s with pending := rest, active := some task }
  | .failed => s

inductive Action where
  | attach (key path : Bytes)
  | push (allocated : Bool)
  | cancel (key : Bytes)
  | take
  | work (outcome : Except StageError Bytes)

def step (s : Preparation) : Action → Preparation
  | .attach key path => attach s key path
  | .push allocated => match s.admitted with
    | none => s
    | some (key, path) => push { s with admitted := none } key path allocated
  | .cancel key => cancel s key
  | .take => take s
  | .work outcome => work s outcome

def machine : Machine Preparation Action Unit := { step := step, out := fun _ _ => [] }

def isWork : Action → Bool
  | .work _ => true
  | _ => false

def surfaced (s : Preparation) : List Task := s.taken ++ s.results

/-- The queue counts what it holds, and each accepted task is in one place, in order. -/
structure Kept (s : Preparation) : Prop where
  counted : s.count = s.pending.length + s.active.toList.length + s.results.length
  bounded : s.count ≤ 32
  placed : (s.surfaced ++ s.active.toList ++ s.pending).map Task.request = s.accepted
  settled : ∀ task ∈ s.surfaced, task.fileId.isSome ∨ task.failure.isSome
  idle : s.health ≠ .ready → s.active = none

/-- Besides, what is accepted by then surfaces within two turns of the file worker for
each task pending and one more. -/
structure Conserved (s : Preparation) : Prop extends Kept s where
  surfaces : ∀ later, 2 * s.pending.length + 1 ≤ later.countP isWork →
    s.accepted <+: (machine.run s later).surfaced.map Task.request

variable {s : Preparation} {a : Action}

@[simp] theorem cancelTask_request (key : Bytes) (task : Task) :
    (cancelTask key task).request = task.request := by
  unfold cancelTask
  split_ifs <;> rfl

theorem cancelTask_outcome (key : Bytes) (task : Task) :
    (cancelTask key task).fileId = task.fileId ∧ (cancelTask key task).failure = task.failure := by
  unfold cancelTask
  split_ifs <;> exact ⟨rfl, rfl⟩

@[simp] theorem finished_request (task : Task) (outcome : Except StageError Bytes) :
    (finished task outcome).request = task.request := by
  cases outcome <;> rfl

theorem finished_settled (task : Task) (outcome : Except StageError Bytes) :
    (finished task outcome).fileId.isSome ∨ (finished task outcome).failure.isSome := by
  cases outcome with
  | ok file => exact Or.inl rfl
  | error e => exact Or.inr rfl

theorem kept_empty : Kept {} where
  counted := rfl
  bounded := Nat.zero_le _
  placed := rfl
  settled := by simp [surfaced]
  idle _ := rfl

theorem push_kept {key path : Bytes} {allocated : Bool} (h : Kept s) :
    Kept (push s key path allocated) := by
  unfold push
  split_ifs with hfull hfails
  · exact h
  · exact h
  · obtain ⟨counted, bounded, placed, settled, idle⟩ := h
    refine ⟨?_, ?_, ?_, settled, idle⟩
    · simp only [List.length_append, List.length_singleton]
      omega
    · change s.count + 1 ≤ 32
      omega
    · change (s.surfaced ++ s.active.toList ++ (s.pending ++ [_])).map _ = _
      rw [← List.append_assoc, List.map_append, placed]
      rfl

theorem cancel_kept {key : Bytes} (h : Kept s) : Kept (cancel s key) := by
  obtain ⟨counted, bounded, placed, settled, idle⟩ := h
  refine ⟨?_, bounded, ?_, ?_, ?_⟩
  · cases hactive : s.active <;> simpa [cancel, hactive] using counted
  · have hrequest : Task.request ∘ cancelTask key = Task.request := funext (cancelTask_request key)
    refine Eq.trans ?_ placed
    cases hactive : s.active <;> simp [cancel, surfaced, hactive, hrequest]
  · intro task hmem
    rcases List.mem_append.mp hmem with htaken | hresult
    · exact settled task (List.mem_append_left _ htaken)
    · obtain ⟨before, hbefore, rfl⟩ := List.mem_map.mp hresult
      obtain ⟨hfile, hfailure⟩ := cancelTask_outcome key before
      rw [hfile, hfailure]
      exact settled before (List.mem_append_right _ hbefore)
  · intro hhealth
    rw [cancel, idle hhealth]
    rfl

theorem take_kept (h : Kept s) : Kept (take s) := by
  unfold take
  split
  · exact h
  · next task rest hresults =>
    obtain ⟨counted, bounded, placed, settled, idle⟩ := h
    rw [hresults, List.length_cons] at counted
    rw [surfaced, hresults] at placed settled
    refine ⟨?_, ?_, ?_, ?_, idle⟩
    · dsimp only
      omega
    · dsimp only
      omega
    · rw [← placed]
      simp [surfaced]
    · intro other hmem
      exact settled other (by simpa [surfaced] using hmem)

theorem fail_kept (h : Kept s) (hstarting : s.health = .starting) : Kept (fail s) := by
  obtain ⟨counted, bounded, placed, settled, idle⟩ := h
  have hidle := idle (by simp [hstarting])
  rw [hidle] at counted placed
  refine ⟨?_, bounded, ?_, ?_, fun _ => hidle⟩
  · simp only [fail, hidle, List.length_append, List.length_map, List.length_nil,
      Option.toList_none] at counted ⊢
    omega
  · refine Eq.trans ?_ placed
    simp [fail, surfaced, hidle, Task.request, Function.comp_def]
  · intro task hmem
    simp only [fail, surfaced, List.mem_append, List.mem_map] at hmem
    rcases hmem with htaken | hresult | ⟨before, -, rfl⟩
    · exact settled task (List.mem_append_left _ htaken)
    · exact settled task (List.mem_append_right _ hresult)
    · exact Or.inr rfl

inductive Turn (s : Preparation) (outcome : Except StageError Bytes) : Preparation → Prop where
  | opens (health : s.health = .starting) : Turn s outcome { s with health := .ready }
  | fails (health : s.health = .starting) : Turn s outcome (fail s)
  | finishes {task : Task} (health : s.health = .ready) (active : s.active = some task) :
      Turn s outcome { s with active := none, results := s.results ++ [finished task outcome] }
  | begins {task : Task} {rest : List Task} (health : s.health = .ready) (active : s.active = none)
      (pending : s.pending = task :: rest) :
      Turn s outcome { s with pending := rest, active := some task }
  | waits (health : s.health = .ready) (active : s.active = none) (pending : s.pending = []) :
      Turn s outcome s
  | gone (health : s.health = .failed) : Turn s outcome s

theorem work_turn (s : Preparation) (outcome : Except StageError Bytes) :
    Turn s outcome (work s outcome) := by
  unfold work
  split
  · next hhealth =>
    cases outcome with
    | ok file => exact .opens hhealth
    | error e => exact .fails hhealth
  · next hhealth =>
    split
    · next hactive => exact .finishes hhealth hactive
    · next hactive =>
      split
      · next hpending => exact .waits hhealth hactive hpending
      · next hpending => exact .begins hhealth hactive hpending
  · next hhealth => exact .gone hhealth

variable {s' : Preparation} {outcome : Except StageError Bytes}

theorem turn_kept (hturn : Turn s outcome s') (h : Kept s) : Kept s' := by
  cases hturn with
  | opens health => exact ⟨h.counted, h.bounded, h.placed, h.settled, fun hready => absurd rfl hready⟩
  | fails health => exact fail_kept h health
  | @finishes task health active =>
    obtain ⟨counted, bounded, placed, settled, idle⟩ := h
    rw [active] at counted placed
    refine ⟨?_, bounded, ?_, ?_, fun _ => rfl⟩
    · simp only [List.length_append, List.length_singleton, Option.toList_none, Option.toList_some,
        List.length_nil] at counted ⊢
      omega
    · rw [← placed]
      simp [surfaced]
    · intro other hmem
      simp only [surfaced, List.mem_append, List.mem_singleton] at hmem
      rcases hmem with htaken | hresult | rfl
      · exact settled other (List.mem_append_left _ htaken)
      · exact settled other (List.mem_append_right _ hresult)
      · exact finished_settled task outcome
  | begins health active pending =>
    obtain ⟨counted, bounded, placed, settled, idle⟩ := h
    rw [active, pending] at counted placed
    refine ⟨?_, bounded, ?_, settled, fun hother => absurd health hother⟩
    · simp only [List.length_cons, Option.toList_none, Option.toList_some,
        List.length_nil] at counted ⊢
      omega
    · rw [← placed]
      simp [surfaced]
  | waits => exact h
  | gone => exact h

theorem step_kept (h : Kept s) : Kept (step s a) := by
  cases a with
  | attach key path =>
    dsimp only [step]
    unfold attach
    split_ifs
    · exact ⟨h.counted, h.bounded, h.placed, h.settled, h.idle⟩
    · exact h
  | push allocated =>
    dsimp only [step]
    cases s.admitted with
    | none => exact h
    | some request => exact push_kept ⟨h.counted, h.bounded, h.placed, h.settled, h.idle⟩
  | cancel key => exact cancel_kept h
  | take => exact take_kept h
  | work outcome => exact turn_kept (work_turn s outcome) h

theorem step_outside (h : isWork a = false) : (step s a).health = s.health ∧
    (step s a).surfaced.length = s.surfaced.length ∧
    (step s a).active.isSome = s.active.isSome := by
  cases a with
  | attach key path =>
    dsimp only [step]
    unfold attach
    split_ifs <;> exact ⟨rfl, rfl, rfl⟩
  | push allocated =>
    dsimp only [step]
    cases s.admitted with
    | none => exact ⟨rfl, rfl, rfl⟩
    | some request =>
      dsimp only [push]
      split_ifs <;> exact ⟨rfl, rfl, rfl⟩
  | cancel key =>
    dsimp only [step]
    refine ⟨rfl, ?_, ?_⟩
    · simp [cancel, surfaced]
    · simp [cancel]
  | take =>
    dsimp only [step]
    unfold take
    cases hresults : s.results with
    | nil => exact ⟨rfl, rfl, rfl⟩
    | cons task rest =>
      refine ⟨rfl, ?_, rfl⟩
      simp [surfaced, hresults]
  | work outcome => exact nomatch h

theorem turn_accepted (hturn : Turn s outcome s') : s'.accepted = s.accepted := by
  cases hturn <;> rfl

theorem step_accepted (s : Preparation) (a : Action) : s.accepted <+: (step s a).accepted := by
  cases a with
  | attach key path =>
    dsimp only [step]
    unfold attach
    split_ifs <;> exact List.prefix_rfl
  | push allocated =>
    dsimp only [step]
    cases s.admitted with
    | none => exact List.prefix_rfl
    | some request =>
      dsimp only [push]
      split_ifs
      · exact List.prefix_rfl
      · exact List.prefix_rfl
      · exact List.prefix_append _ _
  | cancel key => exact List.prefix_rfl
  | take =>
    dsimp only [step]
    unfold take
    cases s.results <;> exact List.prefix_rfl
  | work outcome =>
    have hsame := turn_accepted (work_turn s outcome)
    exact hsame.symm ▸ List.prefix_rfl

theorem Kept.surfaced_length (h : Kept s) :
    s.surfaced.length + s.active.toList.length + s.pending.length = s.accepted.length := by
  have hlength := congrArg List.length h.placed
  simpa [← Nat.add_assoc] using hlength

/-- The turns that the file worker needs before `n` tasks have surfaced. -/
def turnsLeft (n : Nat) (s : Preparation) : Nat :=
  match s.health with
  | .starting => 2 * (n - s.surfaced.length) + 1
  | .ready => 2 * (n - s.surfaced.length) - s.active.toList.length
  | .failed => 0

/-- The first `n` tasks are accepted, and a worker that failed has completed them. -/
structure Due (n : Nat) (s : Preparation) : Prop where
  kept : Kept s
  accepted : n ≤ s.accepted.length
  completed : s.health = .failed → n ≤ s.surfaced.length

/-- A turn completes what a failing worker had, and gets the others nearer. -/
theorem turn_lowers {n : Nat} (hturn : Turn s outcome s') (h : Due n s) :
    (s'.health = .failed → n ≤ s'.surfaced.length) ∧ turnsLeft n s' ≤ turnsLeft n s - 1 := by
  have hlength := h.kept.surfaced_length
  have haccepted := h.accepted
  cases hturn with
  | opens health =>
    refine ⟨nofun, ?_⟩
    simp only [turnsLeft, health, h.kept.idle (by simp [health]), surfaced]
    omega
  | fails health =>
    rw [h.kept.idle (by simp [health])] at hlength
    refine ⟨fun _ => ?_, Nat.zero_le _⟩
    simp only [surfaced, fail, List.length_append, List.length_map, Option.toList_none,
      List.length_nil] at hlength ⊢
    omega
  | finishes health active =>
    refine ⟨fun hfailed => absurd (health.symm.trans hfailed) nofun, ?_⟩
    simp only [turnsLeft, health, active, surfaced, List.length_append, List.length_singleton,
      Option.toList_none, Option.toList_some, List.length_nil]
    omega
  | begins health active pending =>
    refine ⟨fun hfailed => absurd (health.symm.trans hfailed) nofun, ?_⟩
    simp only [turnsLeft, health, active, surfaced, Option.toList_none, Option.toList_some,
      List.length_singleton, List.length_nil]
    omega
  | waits health active pending =>
    rw [active, pending] at hlength
    refine ⟨h.completed, ?_⟩
    simp only [turnsLeft, health, active, Option.toList_none, List.length_nil] at hlength ⊢
    omega
  | gone health =>
    refine ⟨h.completed, ?_⟩
    simp only [turnsLeft, health]
    omega

theorem step_due {n : Nat} (h : Due n s) : Due n (step s a) := by
  refine ⟨step_kept h.kept, h.accepted.trans (step_accepted s a).length_le, ?_⟩
  cases hturn : isWork a with
  | false =>
    obtain ⟨hhealth, hsurfaced, -⟩ := step_outside (s := s) hturn
    rw [hhealth, hsurfaced]
    exact h.completed
  | true =>
    cases a with
    | work outcome => exact (turn_lowers (work_turn s outcome) h).1
    | _ => exact nomatch hturn

theorem step_lowers {n : Nat} (h : Due n s) :
    turnsLeft n (step s a) ≤ turnsLeft n s - (isWork a).toNat := by
  cases hturn : isWork a with
  | false =>
    obtain ⟨hhealth, hsurfaced, hactive⟩ := step_outside (s := s) hturn
    have hheld : (step s a).active.toList.length = s.active.toList.length := by
      cases hbefore : s.active <;> cases hafter : (step s a).active <;> simp_all
    rw [turnsLeft, turnsLeft, hhealth, hsurfaced, hheld, Bool.toNat_false, Nat.sub_zero]
  | true =>
    cases a with
    | work outcome => exact (turn_lowers (work_turn s outcome) h).2
    | _ => exact nomatch hturn

theorem Due.surfaced_of_done {n : Nat} (h : Due n s) (hdone : turnsLeft n s = 0) :
    n ≤ s.surfaced.length := by
  have hactive := Option.length_toList_le (o := s.active)
  cases hhealth : s.health with
  | starting => simp [turnsLeft, hhealth] at hdone
  | ready =>
    rw [turnsLeft, hhealth] at hdone
    dsimp only at hdone
    omega
  | failed => exact h.completed hhealth

theorem Due.surfaces (h : Due s.accepted.length s) (later : List Action)
    (hturns : 2 * s.pending.length + 1 ≤ later.countP isWork) :
    s.accepted <+: (machine.run s later).surfaced.map Task.request := by
  have hlength := h.kept.surfaced_length
  have hdue := machine.run_invariant (I := Due s.accepted.length) (fun _ _ => step_due) s later h
  have hlowers := machine.run_lowers (turnsLeft s.accepted.length) isWork
    (I := Due s.accepted.length) (fun _ _ => step_due) (fun _ _ => step_lowers) s later h
  have hleft : turnsLeft s.accepted.length s ≤ 2 * s.pending.length + 1 := by
    have hidle := h.kept.idle
    cases hhealth : s.health with
    | starting =>
      rw [hidle (by simp [hhealth])] at hlength
      simp only [turnsLeft, hhealth, Option.toList_none, List.length_nil] at hlength ⊢
      omega
    | ready =>
      rw [turnsLeft, hhealth]
      dsimp only
      have hactive := Option.length_toList_le (o := s.active)
      omega
    | failed => simp [turnsLeft, hhealth]
  have hdone := hdue.surfaced_of_done (by omega)
  have hgrown := machine.run_related (I := fun _ => True) (R := fun s t => s.accepted <+: t.accepted)
    (fun _ => List.prefix_rfl) (fun _ _ _ => List.IsPrefix.trans) (fun _ _ _ => trivial)
    (fun s a _ => step_accepted s a) s later trivial
  refine List.prefix_of_prefix_length_le hgrown ?_ (by simpa using hdone)
  rw [← hdue.kept.placed, List.append_assoc, List.map_append]
  exact List.prefix_append _ _

def Prompt (s : Preparation) (a : Action) : Prop :=
  match a with
  | .push allocated => s.health = .failed → s.admitted = none ∨ s.count = 32 ∨ allocated = false
  | _ => True

instance (s : Preparation) (a : Action) : Decidable (Prompt s a) := by
  unfold Prompt
  cases a <;> infer_instance

/-- What the runs keep in which nothing is accepted late. -/
structure Timely (s : Preparation) : Prop where
  kept : Kept s
  completed : s.health = .failed → s.pending = []

theorem turn_completed (hturn : Turn s outcome s') (h : s.health = .failed → s.pending = []) :
    s'.health = .failed → s'.pending = [] := by
  intro hfailed
  cases hturn with
  | opens health => exact nomatch hfailed
  | fails health => rfl
  | finishes health active => exact absurd (health.symm.trans hfailed) nofun
  | begins health active pending => exact absurd (health.symm.trans hfailed) nofun
  | waits health active pending => exact pending
  | gone health => exact h health

theorem step_timely (h : Timely s) (hprompt : Prompt s a) : Timely (step s a) := by
  refine ⟨step_kept h.kept, ?_⟩
  cases a with
  | attach key path =>
    dsimp only [step]
    unfold attach
    split_ifs <;> exact h.completed
  | push allocated =>
    dsimp only [step]
    intro hfailed
    cases hadmitted : s.admitted with
    | none =>
      rw [hadmitted] at hfailed
      exact h.completed hfailed
    | some request =>
      rw [hadmitted] at hfailed
      dsimp only [push] at hfailed ⊢
      split_ifs at hfailed ⊢ with hfull hfails
      · exact h.completed hfailed
      · exact h.completed hfailed
      · rcases hprompt hfailed with hnone | hcount | hdenied
        · exact absurd (hadmitted.symm.trans hnone) nofun
        · exact absurd hcount hfull
        · exact absurd (by simp [hdenied]) hfails
  | cancel key =>
    intro hfailed
    change s.pending.map _ = []
    rw [h.completed hfailed]
    rfl
  | take =>
    dsimp only [step]
    unfold take
    cases s.results <;> exact h.completed
  | work outcome => exact turn_completed (work_turn s outcome) h.completed

theorem Timely.conserved (h : Timely s) : Conserved s := by
  have hdue : Due s.accepted.length s := by
    refine ⟨h.kept, le_rfl, fun hfailed => ?_⟩
    have hlength := h.kept.surfaced_length
    rw [h.completed hfailed, h.kept.idle (by simp [hfailed])] at hlength
    exact hlength.symm.le
  exact ⟨h.kept, hdue.surfaces⟩

/-- In every run in which nothing is accepted late, the queue is conserved. -/
theorem run_conserved (actions : List Action)
    (prompt : ∀ before a after, actions = before ++ a :: after → Prompt (machine.run {} before) a) :
    Conserved (machine.run {} actions) :=
  Timely.conserved (machine.run_invariant_when (I := Timely) (fun _ _ => step_timely) {} actions
    ⟨kept_empty, nofun⟩ prompt)

/-- What a failing worker has completed is all that ever surfaces. -/
theorem failed_surfaced (hfailed : s.health = .failed) (later : List Action) :
    (machine.run s later).surfaced.length = s.surfaced.length := by
  refine (machine.run_invariant
    (I := fun t => t.health = .failed ∧ t.surfaced.length = s.surfaced.length) ?_ s later
    ⟨hfailed, rfl⟩).2
  intro t a ⟨hhealth, hlength⟩
  change (step t a).health = .failed ∧ (step t a).surfaced.length = _
  cases hturn : isWork a with
  | false =>
    obtain ⟨hsame, hsurfaced, -⟩ := step_outside (s := t) hturn
    exact ⟨hsame.trans hhealth, hsurfaced.trans hlength⟩
  | true =>
    cases a with
    | work outcome =>
      have hgone : work t outcome = t := by
        unfold work
        rw [hhealth]
      rw [step, hgone]
      exact ⟨hhealth, hlength⟩
    | _ => exact nomatch hturn

section Example

def key : Bytes := text "chat"
def path : Bytes := text "/file.bin"

def staging : List Action :=
  [.attach key path, .work (.ok []), .push true, .work (.ok []), .cancel key,
    .work (.ok (text "ABEiM0RVZneImaq7zN3u_w")), .take]

theorem run_conserved_staging : Conserved (machine.run {} staging) := by
  refine run_conserved staging ?_
  refine machine.meets_cons (by decide) (machine.meets_cons (by decide) (machine.meets_cons
    (by decide) (machine.meets_cons (by decide) (machine.meets_cons (by decide)
    (machine.meets_cons (by decide) (machine.meets_cons (by decide) machine.meets_nil))))))

/-- The worker fails between the health check of an attach command and its push. -/
def late : Preparation :=
  machine.run {} [.attach key path, .work (.error .query), .push true]

theorem late_stays : late.accepted = [(key, path)] ∧ ¬Conserved late ∧
    ∀ later, (machine.run late later).surfaced = [] := by
  have hnone : ∀ later, (machine.run late later).surfaced = [] := fun later =>
    List.length_eq_zero_iff.mp (failed_surfaced (s := late) rfl later)
  refine ⟨rfl, fun h => ?_, hnone⟩
  have hsurfaces := h.surfaces [.work (.ok []), .work (.ok []), .work (.ok [])] (by decide)
  rw [hnone] at hsurfaces
  exact absurd hsurfaces (by decide)

end Example

end Preparation

end Zimbr
