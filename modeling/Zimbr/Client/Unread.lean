import Zimbr.Client.Progress

set_option autoImplicit false

/-!
# Unread counts and notifications

The first committed event of a message decides whether it counts as unread, and
whether it is notified of; no later one does.
-/
namespace Zimbr.Client
open Library

/-- Each entry was raised exactly if it is the first of its message, live, and
not of the viewed thread. -/
def Decided (passed : List Passed) : Prop :=
  ∀ before p after, passed = before ++ p :: after → (p.raised = true ↔
    ∃ id, p.counts id ∧ (∀ q ∈ before, ¬ q.counts id) ∧ p.origin = text "live" ∧
      p.viewed = false)

/-- The messages that are marked as seen are those of passed events. -/
structure Counted (s : Store) : Prop where
  marked : ∀ id, (s.liveSeen.get? id).isSome = true ↔ ∃ p ∈ s.passed, p.counts id
  decided : Decided s.passed

section Decisions

variable {passed : List Passed} {p : Passed}

theorem Decided.nil : Decided [] := fun before _ _ h => by
  cases before <;> exact nomatch h

theorem Decided.snoc (h : Decided passed) (hp : p.raised = true ↔
    ∃ id, p.counts id ∧ (∀ q ∈ passed, ¬ q.counts id) ∧ p.origin = text "live" ∧
      p.viewed = false) : Decided (passed ++ [p]) := by
  intro before q after hsplit
  rcases List.eq_nil_or_concat after with rfl | ⟨rest, last, rfl⟩
  · obtain ⟨rfl, hlast⟩ := List.append_inj' hsplit rfl
    obtain rfl := List.cons.inj hlast |>.1
    exact hp
  · rw [List.concat_eq_append, ← List.cons_append, ← List.append_assoc] at hsplit
    obtain ⟨rfl, -⟩ := List.append_inj' hsplit rfl
    exact h before q rest rfl

theorem Decided.of_snoc (h : Decided (passed ++ [p])) : Decided passed := by
  rintro before q after rfl
  exact h before q (after ++ [p]) (by simp)

theorem Decided.last (h : Decided (passed ++ [p])) (hraised : p.raised = true) :
    ∃ id, p.counts id ∧ ∀ q ∈ passed, ¬ q.counts id := by
  obtain ⟨id, hcounts, hfirst, -⟩ := (h passed p [] rfl).mp hraised
  exact ⟨id, hcounts, hfirst⟩

theorem Passed.notification_some {m : Message} (h : p.notification = some m) :
    p.raised = true ∧ ∃ v, p.record = .message v ∧ v.value = m := by
  unfold notification at h
  split at h
  · next v hv =>
    split_ifs at h with hraised
    exact ⟨hraised, v, hv, Option.some.inj h⟩
  · exact nomatch h

theorem Passed.counts_id {id : Bytes} {v : Decoded Message} (h : p.counts id)
    (hv : p.record = .message v) : v.value.id = id := by
  obtain ⟨v', hv', hid, -⟩ := h
  rw [hv'] at hv
  rw [← Incoming.message.inj hv]
  exact hid

theorem Decided.nodup (h : Decided passed) :
    ((passed.filterMap Passed.notification).map Message.id).Nodup := by
  induction passed using List.reverseRecOn with
  | nil => exact List.nodup_nil
  | append_singleton rest p ih =>
    rw [List.filterMap_append, List.map_append]
    refine (ih h.of_snoc).append ?_ fun id hid hid' => ?_
    · cases hp : p.notification with
      | none => simp [hp]
      | some m => simp [hp]
    · obtain ⟨m, hm, rfl⟩ := List.mem_map.mp hid
      obtain ⟨q, hq, hqm⟩ := List.mem_filterMap.mp hm
      obtain ⟨m', hm', hsame⟩ := List.mem_map.mp hid'
      obtain ⟨p', hp', hpm⟩ := List.mem_filterMap.mp hm'
      obtain rfl := List.mem_singleton.mp hp'
      obtain ⟨hraised, v, hv, rfl⟩ := Passed.notification_some hpm
      obtain ⟨id, hcounts, hfirst⟩ := h.last hraised
      obtain ⟨hraised', v', hv', rfl⟩ := Passed.notification_some hqm
      obtain ⟨before, after, rfl⟩ := List.append_of_mem hq
      obtain ⟨id', hcounts', -⟩ := (h.of_snoc before q after rfl).mp hraised'
      refine hfirst q hq ?_
      rw [← Passed.counts_id hcounts hv, hsame, Passed.counts_id hcounts' hv']
      exact hcounts'

end Decisions

def count (s : Store) (chat : Bytes) : Nat := (s.unread.get? chat).getD 0

def Passed.raises (p : Passed) (chat : Bytes) : Bool :=
  p.notification.any fun m => m.conversationId = chat

section Batches

variable {dec : Decoder} {shown : Bytes} {s s' : Store}

theorem raise_count {p : Passed} {unread : Table Bytes Nat} {chat : Bytes} :
    ((p.raise unread).get? chat).getD 0 =
      (unread.get? chat).getD 0 + if p.raises chat then 1 else 0 := by
  unfold Passed.raise Passed.raises
  cases p.notification with
  | none => rfl
  | some m =>
    simp only [Option.any_some, decide_eq_true_eq]
    rw [Table.get?_upsert]
    by_cases hchat : m.conversationId = chat
    · rw [if_pos hchat.symm, if_pos hchat, hchat]
      cases unread.get? chat <;> simp
    · rw [if_neg (Ne.symm hchat), if_neg hchat]
      rfl

theorem Accepted.counted {frame : Frame} {n : Option Message} (haccepted : Accepted dec shown frame s n s')
    (h : Counted s) : Counted s' := by
  cases haccepted with
  | replayed => exact h
  | @moved e seq last kind p s' _ _ _ _ _ hmoved =>
    refine ⟨fun id => ?_, ?_⟩
    · rw [hmoved.seen, h.marked, hmoved.passed]
      simp [or_and_right, exists_or]
    · rw [hmoved.passed]
      refine h.decided.snoc ?_
      rw [hmoved.raised]
      refine exists_congr fun id => and_congr_right fun _ => and_congr_left fun _ => ?_
      rw [← Option.not_isSome_iff_eq_none, h.marked]
      push Not
      rfl

theorem Batch.counted {frames : List Frame} {messages : List Message}
    (hbatch : Batch dec shown s frames messages s') (h : Counted s) : Counted s' := by
  induction hbatch with
  | nil s => exact h
  | cons hfirst _ ih => exact ih (hfirst.counted h)

theorem Batch.advance {frames : List Frame} {messages : List Message}
    (hbatch : Batch dec shown s frames messages s') : ∃ new, s'.passed = s.passed ++ new ∧
      messages = new.filterMap Passed.notification ∧
      ∀ chat, count s' chat = count s chat + new.countP (·.raises chat) := by
  induction hbatch with
  | nil s => exact ⟨[], (List.append_nil _).symm, rfl, fun _ => rfl⟩
  | @cons s s₁ s' _ _ _ _ hfirst _ ih =>
    obtain ⟨new, hpassed, hmessages, hcount⟩ := ih
    cases hfirst with
    | replayed => exact ⟨new, hpassed, hmessages, hcount⟩
    | @moved e seq last kind p _ _ _ _ _ _ hmoved =>
      refine ⟨p :: new, ?_, ?_, fun chat => ?_⟩
      · rw [hpassed, hmoved.passed, List.append_assoc]
        rfl
      · rw [hmessages]
        cases hp : p.notification with
        | none => rw [List.filterMap_cons_none hp]; rfl
        | some m => rw [List.filterMap_cons_some hp]; rfl
      · have hraise : count s₁ chat = count s chat + if p.raises chat then 1 else 0 := by
          unfold count
          rw [hmoved.unread]
          exact raise_count
        rw [hcount, hraise, List.countP_cons]
        omega

end Batches

section Steps

variable {dec : Decoder} {w : Worker} {a : Action}

theorem Counted.initial : Counted {} where
  marked _ := ⟨nofun, fun ⟨_, hp, _⟩ => nomatch hp⟩
  decided := Decided.nil

theorem Counted.step (h : Counted w.store) : Counted (Worker.step dec w a).store := by
  have hsame {s' : Store} (hpassed : s'.passed = w.store.passed)
      (hliveSeen : s'.liveSeen = w.store.liveSeen) : Counted s' := by
    refine ⟨fun id => ?_, ?_⟩
    · rw [hpassed, hliveSeen]
      exact h.marked id
    · rw [hpassed]
      exact h.decided
  cases step_effect dec w a with
  | quiet hquiet _ => exact hsame hquiet.passed hquiet.liveSeen
  | resumed hresumed _ => exact hsame hresumed.passed hresumed.liveSeen
  | fresh hfresh _ _ =>
    refine ⟨fun id => ?_, ?_⟩
    · rw [hfresh.passed, hfresh.liveSeen]
      exact ⟨nofun, fun ⟨_, hp, _⟩ => nomatch hp⟩
    · rw [hfresh.passed]
      exact Decided.nil
  | batch _ _ _ hbatch _ => exact hbatch.counted h

theorem reachable_counted (actions : List Action) :
    Counted ((client dec).run {} actions).store :=
  (client dec).run_invariant (I := fun w => Counted w.store) (fun _ _ h => h.step) {} actions
    Counted.initial

def Within (dec : Decoder) (w : Worker) (a : Action) : Prop :=
  a ≠ .clear ∧ (Worker.step dec w a).store.epoch = w.store.epoch

/-- The entries `new` are passed: each raises the count of its chat, and waits
to be notified of. Reading a thread empties counts, and a queue may drop. -/
structure Advance (new : List Passed) (outs : List Notification) (w w' : Worker) : Prop where
  passed : w'.store.passed = w.store.passed ++ new
  counts : ∀ chat, count w'.store chat = count w.store chat + new.countP (·.raises chat) ∨
    new = [] ∧ count w'.store chat = 0
  queue : (outs ++ w'.notifications).Sublist
    (w.notifications ++ (new.filterMap Passed.notification).map Notification.mk)

theorem step_advance (hwithin : Within dec w a) :
    ∃ new, Advance new ((client dec).out w a) w (Worker.step dec w a) := by
  cases step_effect dec w a with
  | quiet hquiet hqueue =>
    refine ⟨[], ⟨by rw [hquiet.passed, List.append_nil], fun chat => ?_, by
      simpa using hqueue⟩⟩
    unfold count
    rcases hquiet.unread chat with hsame | hnone
    · rw [hsame]
      exact Or.inl rfl
    · rw [hnone]
      exact Or.inr ⟨rfl, rfl⟩
  | resumed hresumed hqueue =>
    refine ⟨[], ⟨by rw [hresumed.passed, List.append_nil], fun chat => ?_, by
      simpa using hqueue⟩⟩
    unfold count
    rw [hresumed.unread]
    exact Or.inl rfl
  | fresh _ hother _ =>
    rcases hother with hclear | hepoch
    · exact absurd hclear hwithin.1
    · exact absurd hwithin.2 hepoch
  | batch _ _ _ hbatch hqueue =>
    obtain ⟨new, hpassed, rfl, hcount⟩ := hbatch.advance
    exact ⟨new, hpassed, fun chat => Or.inl (hcount chat), hqueue⟩

/-- Over a run within one epoch, notifications are handed out at most once for
each entry that was raised, in order. -/
theorem run_advance {actions : List Action}
    (hwithin : ∀ before a after, actions = before ++ a :: after →
      Within dec ((client dec).run w before) a) :
    ∃ new, ((client dec).run w actions).store.passed = w.store.passed ++ new ∧
      ((client dec).emitted w actions ++ ((client dec).run w actions).notifications).Sublist
        (w.notifications ++ (new.filterMap Passed.notification).map Notification.mk) := by
  induction actions generalizing w with
  | nil =>
    refine ⟨[], (List.append_nil _).symm, ?_⟩
    simp
  | cons a rest ih =>
    have hwithin' : Within dec w a := hwithin [] a rest rfl
    obtain ⟨first, hfirst⟩ := step_advance hwithin'
    obtain ⟨others, hpassed, hqueue⟩ := ih (w := Worker.step dec w a) fun before b after hrest =>
      hwithin (a :: before) b after (by rw [hrest]; rfl)
    refine ⟨first ++ others, ?_, ?_⟩
    · rw [Machine.run_cons, ← List.append_assoc, ← hfirst.passed]
      exact hpassed
    · rw [Machine.emitted_cons, Machine.run_cons, List.append_assoc, List.filterMap_append,
        List.map_append, ← List.append_assoc w.notifications]
      have hlater := hqueue.append_left ((client dec).out w a)
      have hnow := hfirst.queue.append_right
        ((others.filterMap Passed.notification).map Notification.mk)
      rw [List.append_assoc] at hnow
      exact hlater.trans hnow

end Steps

/-- A message counts as unread, and is notified of, at most once: at the first
event of it that is committed, if that one is live and outside the viewed
thread. -/
theorem counted_exactly_once (dec : Decoder) (actions : List Action) (w : Worker)
    (hw : w = (client dec).run {} actions) :
    Decided w.store.passed ∧
    ((w.store.passed.filterMap Passed.notification).map Message.id).Nodup ∧
    (∀ env bytes, Refused w (w.deliver dec env bytes) ∨
      Committed dec env bytes w (w.deliver dec env bytes)) ∧
    (∀ a, Within dec w a →
      ∃ new, Advance new ((client dec).out w a) w (Worker.step dec w a)) ∧
    ∀ later, (∀ before a after, later = before ++ a :: after →
      Within dec ((client dec).run w before) a) →
      ∃ new, ((client dec).run w later).store.passed = w.store.passed ++ new ∧
        ((client dec).emitted w later ++ ((client dec).run w later).notifications).Sublist
          (w.notifications ++ (new.filterMap Passed.notification).map Notification.mk) := by
  have hcounted : Counted w.store := by
    rw [hw]
    exact reachable_counted actions
  exact ⟨hcounted.decided, hcounted.decided.nodup, deliver_atomic dec w, fun a => step_advance,
    fun later => run_advance⟩

theorem counted_exactly_once_greeted :
    ((client (Sample.decoder Sample.messages)).run {} Sample.greeted).store.passed.map
        (·.raised) = [true] ∧
    Decided ((client (Sample.decoder Sample.messages)).run {} Sample.greeted).store.passed :=
  ⟨by decide +kernel,
    (counted_exactly_once (Sample.decoder Sample.messages) Sample.greeted _ rfl).1⟩

end Zimbr.Client
