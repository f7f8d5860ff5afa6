import Zimbr.Client.NotificationQueue
import Mathlib.Algebra.Order.Group.Multiset
import Mathlib.Data.List.Induction
import Mathlib.Data.Multiset.Filter

set_option autoImplicit false

/-!
# What becomes of notifications

Every notice that the queue takes is shown once or freed, in the order of its
chat, within its time, and with no picture but its own.
-/
namespace Zimbr
open Library

namespace NotificationQueue

def notices (q : Queue) : List Notice := q.cells.filterMap fun x => x.map PendingNotice.notice

def shown? : Delivery → Option Notice
  | .shown notice _ => some notice
  | .destroyed _ | .withdrawn _ => none

def destroyed? : Delivery → Option Notice
  | .destroyed notice => some notice
  | .shown _ _ | .withdrawn _ => none

def shownIn (out : List Delivery) : List Notice := out.filterMap shown?

def destroyedIn (out : List Delivery) : List Notice := out.filterMap destroyed?

def Action.notice? : Action → Option Notice
  | .submit notice _ _ _ => some notice
  | .poll _ _ _ | .accept _ _ | .dismiss _ => none

def submitted (actions : List Action) : List Notice := actions.filterMap Action.notice?

def inChat (chat : Bytes) (l : List Notice) : List Notice := l.filter fun n => n.chat = chat

/-- What was pending for the chat before it is not shown any more. -/
def Action.Clears (chat : Bytes) : Action → Prop
  | .submit notice _ _ _ => notice.chat = chat
  | .dismiss chat' => chat' = chat
  | .poll _ _ _ | .accept _ _ => False

def OnePerChat (l : List Notice) : Prop := (l.map Notice.chat).Nodup

section Lists

variable {q : Queue} {out : List Delivery} {chat : Bytes} {p : PendingNotice}

@[simp] theorem inChat_append (l l' : List Notice) :
    inChat chat (l ++ l') = inChat chat l ++ inChat chat l' :=
  List.filter_append ..

@[simp] theorem inChat_self (n : Notice) (l : List Notice) :
    inChat n.chat (n :: l) = n :: inChat n.chat l :=
  List.filter_cons_of_pos (by simp)

theorem inChat_other {n : Notice} (h : n.chat ≠ chat) (l : List Notice) :
    inChat chat (n :: l) = inChat chat l :=
  List.filter_cons_of_neg (by simpa using h)

@[simp] theorem shownIn_append (l l' : List Delivery) :
    shownIn (l ++ l') = shownIn l ++ shownIn l' :=
  List.filterMap_append

@[simp] theorem destroyedIn_append (l l' : List Delivery) :
    destroyedIn (l ++ l') = destroyedIn l ++ destroyedIn l' :=
  List.filterMap_append

theorem mem_notices {n : Notice} : n ∈ notices q ↔ ∃ p ∈ q, p.notice = n := by
  constructor
  · intro h
    obtain ⟨x, hx, hn⟩ := List.mem_filterMap.mp h
    obtain ⟨p, rfl, hp⟩ := Option.map_eq_some_iff.mp hn
    exact ⟨p, hx, hp⟩
  · rintro ⟨p, hp, hn⟩
    exact List.mem_filterMap.mpr ⟨some p, hp, by rw [Option.map_some, hn]⟩

theorem total_notices :
    q.total (fun p => ({p.notice} : Multiset Notice)) = (notices q : Multiset Notice) := by
  have hcells (cells : List (Option PendingNotice)) :
      (cells.map fun x => x.elim 0 fun p => ({p.notice} : Multiset Notice)).sum =
        ((cells.filterMap fun x => x.map PendingNotice.notice : List Notice) :
          Multiset Notice) := by
    induction cells with
    | nil => rfl
    | cons x rest ih =>
      rw [List.map_cons, List.sum_cons, ih]
      cases x with
      | none => exact zero_add (_ : Multiset Notice)
      | some p => exact Multiset.singleton_add _ _
  exact hcells q.cells

theorem total_shown :
    (out.map fun d => ((shown? d).toList : Multiset Notice)).sum =
      (shownIn out : Multiset Notice) := by
  induction out with
  | nil => rfl
  | cons d rest ih =>
    rw [List.map_cons, List.sum_cons, ih]
    cases d with
    | shown n _ => exact Multiset.singleton_add _ _
    | destroyed _ => exact zero_add (_ : Multiset Notice)
    | withdrawn _ => exact zero_add (_ : Multiset Notice)

theorem sublist_of_le {l l' : List Notice} (h : (l : Multiset Notice) ≤ l')
    (hlength : l'.length ≤ 1) : l.Sublist l' := by
  obtain ⟨l₁, hperm, hsub⟩ := Multiset.coe_le.mp h
  have hone : l₁.length ≤ 1 := hsub.length_le.trans hlength
  have heq : l = l₁ := by
    cases l₁ with
    | nil => exact List.perm_nil.mp hperm.symm
    | cons x rest =>
      have hnil : rest = [] := List.eq_nil_of_length_eq_zero (by simpa using hone)
      rw [hnil] at hperm ⊢
      exact List.perm_singleton.mp hperm.symm
  rw [heq]
  exact hsub

theorem OnePerChat.of_le {l l' : List Notice} (h : OnePerChat l)
    (hle : (l' : Multiset Notice) ≤ l) : OnePerChat l' := by
  obtain ⟨l₁, hperm, hsub⟩ := Multiset.coe_le.mp hle
  exact (hperm.map _).nodup_iff.mp (h.sublist (hsub.map _))

theorem OnePerChat.length_le {l : List Notice} (h : OnePerChat l) :
    (inChat chat l).length ≤ 1 := by
  have hnodup : OnePerChat (inChat chat l) := h.sublist (List.filter_sublist.map _)
  have hall : ∀ n ∈ inChat chat l, n.chat = chat := fun n hn =>
    of_decide_eq_true (List.mem_filter.mp hn).2
  generalize inChat chat l = l' at hnodup hall
  cases l' with
  | nil => exact Nat.zero_le 1
  | cons n rest =>
    cases rest with
    | nil => exact le_rfl
    | cons n' rest =>
      have hsame : n.chat = n'.chat := by
        rw [hall n List.mem_cons_self, hall n' (List.mem_cons_of_mem _ List.mem_cons_self)]
      rw [OnePerChat, List.map_cons, List.map_cons, hsame, List.nodup_cons] at hnodup
      exact absurd List.mem_cons_self hnodup.1

theorem OnePerChat.sublist {l l' : List Notice} (h : OnePerChat l)
    (hle : (l' : Multiset Notice) ≤ l) : (inChat chat l').Sublist (inChat chat l) :=
  sublist_of_le (Multiset.filter_le_filter (fun n : Notice => n.chat = chat) hle) h.length_le

end Lists


section Operations

variable {q : Queue} {f : PendingNotice → Option PendingNotice × List Delivery} {chat : Bytes}
  {notice : Notice} {media : Option MediaView} {images now : Int}

def Calm (f : PendingNotice → Option PendingNotice × List Delivery) : Prop :=
  ∀ p, f p = (some p, []) ∨ ∃ pixels, f p = release p pixels

theorem Calm.notices (h : Calm f) :
    (notices q : Multiset Notice) = notices (q.sweep f).1 + shownIn (q.sweep f).2 := by
  rw [← total_notices, ← total_notices, ← total_shown]
  refine Cells.total_sweep fun p _ => ?_
  rcases h p with hkept | ⟨pixels, hshown⟩
  · rw [hkept]
    exact (add_zero _).symm
  · rw [hshown]
    exact (zero_add _).symm

theorem Calm.destroyed (h : Calm f) : destroyedIn (q.sweep f).2 = [] := by
  refine List.filterMap_eq_nil_iff.mpr fun d hd => ?_
  obtain ⟨p, -, hp⟩ := Cells.mem_sweep_out hd
  rcases h p with hkept | ⟨pixels, hshown⟩
  · rw [hkept] at hp
    cases hp
  · rw [hshown] at hp
    rw [List.mem_singleton.mp hp]
    rfl

theorem pollEntry_calm : Calm (pollEntry media images now) := by
  intro p
  unfold pollEntry
  cases media with
  | none => exact Or.inr ⟨none, rfl⟩
  | some m =>
    dsimp only
    split_ifs
    · exact Or.inr ⟨none, rfl⟩
    · exact Or.inl rfl
    · exact Or.inr ⟨none, rfl⟩

theorem acceptEntry_calm {result : MediaResult} : Calm (acceptEntry result) := by
  intro p
  unfold acceptEntry
  split
  · exact Or.inl rfl
  · exact Or.inr ⟨_, rfl⟩

theorem dismiss_notices :
    notices (dismiss chat q).1 = (notices q).filter fun n => !decide (n.chat = chat) := by
  have hcells (cells : List (Option PendingNotice)) :
      (cells.map fun x => x.bind fun p => (dismissEntry chat p).1).filterMap
          (fun x => x.map PendingNotice.notice) =
        (cells.filterMap fun x => x.map PendingNotice.notice).filter fun n =>
          !decide (n.chat = chat) := by
    induction cells with
    | nil => rfl
    | cons x rest ih =>
      cases x with
      | none => exact ih
      | some p =>
        by_cases h : p.notice.chat = chat
        · simpa [dismissEntry, h] using ih
        · simpa [dismissEntry, h] using ih
  exact hcells q.cells

theorem dismiss_shown : shownIn (dismiss chat q).2 = [] := by
  refine List.filterMap_eq_nil_iff.mpr fun d hd => ?_
  rcases List.mem_append.mp hd with hswept | hlast
  · obtain ⟨p, -, hp⟩ := Cells.mem_sweep_out hswept
    unfold dismissEntry at hp
    split_ifs at hp
    · rw [List.mem_singleton.mp hp]
      rfl
    · cases hp
  · rw [List.mem_singleton.mp hlast]
    rfl

theorem dismiss_destroyed : destroyedIn (dismiss chat q).2 = inChat chat (notices q) := by
  have hcells (cells : List (Option PendingNotice)) :
      (cells.flatMap fun x => x.elim [] fun p => (dismissEntry chat p).2).filterMap destroyed? =
        inChat chat (cells.filterMap fun x => x.map PendingNotice.notice) := by
    induction cells with
    | nil => rfl
    | cons x rest ih =>
      cases x with
      | none => exact ih
      | some p =>
        by_cases h : p.notice.chat = chat
        · simpa [dismissEntry, h, inChat, destroyed?] using ih
        · simpa [dismissEntry, h, inChat] using ih
  have happend := destroyedIn_append (q.sweep (dismissEntry chat)).2 [Delivery.withdrawn chat]
  exact (happend.trans (List.append_nil _)).trans (hcells q.cells)

theorem deinit_destroyed : destroyedIn (deinit q) = notices q := by
  have hcells (cells : List (Option PendingNotice)) :
      (cells.flatMap fun x => x.elim [] fun p => [Delivery.destroyed p.notice]).filterMap
        destroyed? = cells.filterMap fun x => x.map PendingNotice.notice := by
    induction cells with
    | nil => rfl
    | cons x rest ih =>
      cases x with
      | none => exact ih
      | some p => exact congrArg (p.notice :: ·) ih
  exact hcells q.cells

theorem freeSlot_lt (cells : List (Option PendingNotice)) (i : Nat) (best : Option (Nat × Int))
    (hbest : ∀ b, best = some b → b.1 < i) (hne : best = none → cells ≠ []) :
    freeSlot cells i best < i + cells.length := by
  induction cells generalizing i best with
  | nil =>
    cases best with
    | none => exact absurd rfl (hne rfl)
    | some b => exact hbest b rfl
  | cons x rest ih =>
    rw [List.length_cons]
    cases x with
    | none =>
      rw [freeSlot]
      omega
    | some p =>
      rw [freeSlot]
      split_ifs with hless
      · have hrest := ih (i + 1) (some (i, p.deadline))
          (fun b hb => by cases hb; exact Nat.lt_succ_self i) fun hnone => by cases hnone
        omega
      · cases best with
        | none => exact absurd rfl hless
        | some b =>
          have hrest := ih (i + 1) (some b)
            (fun b' hb' => (hbest b' hb').trans (Nat.lt_succ_self i)) fun hnone => by cases hnone
          omega

theorem submit_none (h : awaited notice media images = none) :
    submit notice media images now q =
      ((dismiss notice.chat q).1, (dismiss notice.chat q).2 ++ [.shown notice none]) := by
  simp only [submit, h]

theorem submit_some (q : Queue) (now : Int) {m : MediaView} {asset : AssetRef}
    (h : awaited notice media images = some (m, asset)) :
    ∃ slot < maxPending, submit notice media images now q =
      ((dismiss notice.chat q).1.put slot {
          notice := notice
          key := m.key asset
          generation := m.generation
          deadline := now + waitMs },
        (dismiss notice.chat q).2 ++
          ((dismiss notice.chat q).1.entry slot).elim [] fun p => [.shown p.notice none]) := by
  refine ⟨freeSlot (dismiss notice.chat q).1.cells 0 none, ?_, by simp only [submit, h]⟩
  have hlength := (dismiss notice.chat q).1.length_eq
  have hlt := freeSlot_lt (dismiss notice.chat q).1.cells 0 none
    (fun b hb => by cases hb) fun _ hnil => by rw [hnil] at hlength; cases hlength
  omega

/-- The new notice and those of other chats wait, or are shown. -/
theorem submit_notices :
    (notice ::ₘ (notices (dismiss notice.chat q).1 : Multiset Notice)) =
      notices (submit notice media images now q).1 +
        shownIn (submit notice media images now q).2 := by
  cases hawaited : awaited notice media images with
  | none =>
    rw [submit_none hawaited, shownIn_append, dismiss_shown, List.nil_append]
    exact (Multiset.singleton_add _ _).symm.trans (add_comm _ _)
  | some v =>
    obtain ⟨slot, hslot, heq⟩ := submit_some q now hawaited
    rw [heq, shownIn_append, dismiss_shown, List.nil_append, ← total_notices, ← total_notices]
    have hput := Cells.total_put (fun p : PendingNotice => ({p.notice} : Multiset Notice))
      (dismiss notice.chat q).1 hslot {
        notice := notice
        key := v.1.key v.2
        generation := v.1.generation
        deadline := now + waitMs }
    rw [← Multiset.singleton_add, hput]
    cases (dismiss notice.chat q).1.entry slot <;> rfl

theorem submit_destroyed :
    destroyedIn (submit notice media images now q).2 = inChat notice.chat (notices q) := by
  cases hawaited : awaited notice media images with
  | none =>
    rw [submit_none hawaited, destroyedIn_append, dismiss_destroyed]
    exact List.append_nil _
  | some v =>
    obtain ⟨slot, -, heq⟩ := submit_some q now hawaited
    rw [heq, destroyedIn_append, dismiss_destroyed]
    cases (dismiss notice.chat q).1.entry slot <;> exact List.append_nil _

end Operations


section Deliveries

variable {q q' q'' : Queue} {out out' : List Delivery} {new new' : List Notice} {chat : Bytes}

/-- Notices are neither lost nor repeated, and those of one chat keep their order. -/
structure Delivers (q q' : Queue) (out : List Delivery) (new : List Notice) : Prop where
  conserved : (notices q + new : Multiset Notice) =
    notices q' + shownIn out + destroyedIn out
  distinct : OnePerChat (notices q) → OnePerChat (notices q')
  ordered : OnePerChat (notices q) → ∀ chat,
    (inChat chat (shownIn out ++ notices q')).Sublist (inChat chat (notices q ++ new))

theorem Delivers.refl : Delivers q q [] [] where
  conserved := by simp [shownIn, destroyedIn]
  distinct h := h
  ordered _ chat := by
    rw [List.append_nil]
    exact List.Sublist.refl _

theorem Delivers.trans (h : Delivers q q' out new) (h' : Delivers q' q'' out' new') :
    Delivers q q'' (out ++ out') (new ++ new') where
  conserved := by
    rw [shownIn_append, destroyedIn_append, ← Multiset.coe_add, ← Multiset.coe_add,
      ← Multiset.coe_add, ← add_assoc, h.conserved]
    calc (notices q' : Multiset Notice) + shownIn out + destroyedIn out + new'
        = (notices q' + new') + shownIn out + destroyedIn out := by abel
      _ = (notices q'' + shownIn out' + destroyedIn out') + shownIn out + destroyedIn out := by
        rw [h'.conserved]
      _ = _ := by abel
  distinct hone := h'.distinct (h.distinct hone)
  ordered hone chat := by
    have hfirst := h.ordered hone chat
    have hrest := h'.ordered (h.distinct hone) chat
    have hmiddle := hrest.append_left (inChat chat (shownIn out))
    rw [inChat_append (notices q'), ← List.append_assoc,
      ← inChat_append (shownIn out) (notices q')] at hmiddle
    rw [shownIn_append, List.append_assoc, inChat_append, ← List.append_assoc (notices q),
      inChat_append (notices q ++ new)]
    exact hmiddle.trans (hfirst.append_right _)

theorem Calm.delivers {f : PendingNotice → Option PendingNotice × List Delivery} (h : Calm f) :
    Delivers q (q.sweep f).1 (q.sweep f).2 [] where
  conserved := by
    rw [h.destroyed, Multiset.coe_nil, add_zero, add_zero]
    exact h.notices
  distinct hone := hone.of_le ((Multiset.le_add_right _ _).trans_eq h.notices.symm)
  ordered hone chat := by
    rw [List.append_nil]
    refine hone.sublist (le_of_eq ?_)
    rw [h.notices, ← Multiset.coe_add, add_comm]

theorem dismiss_split (chat : Bytes) (q : Queue) : (notices q : Multiset Notice) =
    notices (dismiss chat q).1 + inChat chat (notices q) := by
  rw [dismiss_notices, add_comm]
  exact Multiset.coe_eq_coe.mpr (List.filter_append_perm _ _).symm

theorem inChat_dismissed (chat : Bytes) (q : Queue) :
    inChat chat (notices (dismiss chat q).1) = [] := by
  rw [dismiss_notices]
  refine List.filter_eq_nil_iff.mpr fun n hn => ?_
  simpa using (List.mem_filter.mp hn).2

theorem dismiss_delivers : Delivers q (dismiss chat q).1 (dismiss chat q).2 [] where
  conserved := by
    rw [dismiss_shown, dismiss_destroyed, Multiset.coe_nil, add_zero, add_zero]
    exact dismiss_split chat q
  distinct hone := hone.of_le ((Multiset.le_add_right _ _).trans_eq (dismiss_split chat q).symm)
  ordered _ chat' := by
    rw [dismiss_shown, List.nil_append, List.append_nil, dismiss_notices]
    exact List.filter_sublist.filter _

section Submit

variable {notice : Notice} {media : Option MediaView} {images now : Int}

theorem submit_distinct (h : OnePerChat (notices q)) :
    OnePerChat (notice :: notices (dismiss notice.chat q).1) := by
  refine List.nodup_cons.mpr ⟨fun hmem => ?_, dismiss_delivers.distinct h⟩
  obtain ⟨n, hn, hchat⟩ := List.mem_map.mp hmem
  exact List.filter_eq_nil_iff.mp (inChat_dismissed notice.chat q) n hn (decide_eq_true hchat)

theorem submit_ordered (h : OnePerChat (notices q)) (chat : Bytes) :
    (inChat chat (shownIn (submit notice media images now q).2 ++
      notices (submit notice media images now q).1)).Sublist
        (inChat chat (notice :: notices (dismiss notice.chat q).1)) := by
  refine (submit_distinct h).sublist (le_of_eq ?_)
  rw [← Multiset.coe_add, add_comm, ← submit_notices]
  rfl

theorem inChat_submitted :
    inChat notice.chat (notice :: notices (dismiss notice.chat q).1) = [notice] := by
  rw [inChat_self, inChat_dismissed]

theorem submit_delivers :
    Delivers q (submit notice media images now q).1 (submit notice media images now q).2
      [notice] where
  conserved := by
    rw [submit_destroyed, ← submit_notices, Multiset.coe_singleton, ← Multiset.singleton_add,
      add_assoc, ← dismiss_split, add_comm]
  distinct hone := (submit_distinct hone).of_le
    ((Multiset.le_add_right _ _).trans_eq submit_notices.symm)
  ordered hone chat := by
    refine (submit_ordered hone chat).trans ?_
    rw [inChat_append]
    by_cases h : notice.chat = chat
    · subst h
      rw [inChat_submitted, inChat_self]
      exact List.sublist_append_right _ _
    · rw [inChat_other h, dismiss_notices]
      exact (List.filter_sublist.filter _).trans (List.sublist_append_left _ _)

end Submit

/-- Every operation, on its own notice if it has one. -/
theorem apply_delivers (q : Queue) (a : Action) :
    Delivers q (apply q a).1 (apply q a).2 a.notice?.toList := by
  cases a with
  | submit notice media images now => exact submit_delivers
  | poll media images now => exact pollEntry_calm.delivers
  | accept media result =>
    rw [apply, accept]
    split
    · exact .refl
    · exact acceptEntry_calm.delivers
  | dismiss chat => exact dismiss_delivers

theorem Action.Clears.ordered {a : Action} (h : a.Clears chat) (hone : OnePerChat (notices q)) :
    (inChat chat (shownIn (apply q a).2 ++ notices (apply q a).1)).Sublist
      (inChat chat a.notice?.toList) := by
  cases a with
  | submit notice media images now =>
    obtain rfl : notice.chat = chat := h
    refine (submit_ordered hone notice.chat).trans ?_
    rw [inChat_submitted, Action.notice?, Option.toList_some, inChat_self]
    exact List.Sublist.refl _
  | dismiss chat' =>
    obtain rfl : chat' = chat := h
    rw [apply, dismiss_shown, List.nil_append, inChat_dismissed]
    exact List.nil_sublist _
  | poll => exact absurd h id
  | accept => exact absurd h id

theorem submitted_cons (a : Action) (actions : List Action) :
    submitted (a :: actions) = a.notice?.toList ++ submitted actions := by
  cases a <;> rfl

theorem run_delivers (q : Queue) (actions : List Action) :
    Delivers q (delivery.run q actions) (delivery.emitted q actions) (submitted actions) := by
  induction actions generalizing q with
  | nil => exact .refl
  | cons a rest ih =>
    rw [submitted_cons]
    exact (apply_delivers q a).trans (ih (apply q a).1)

end Deliveries

/-- Over any operations every notice is shown once, destroyed once or still pending; a
chat has one pending notice at most; the notices of a chat are shown in the order they
came; and from a dismissal or a newer notice of its chat on, no older one is shown. -/
theorem notices_delivered_once (actions : List Action) :
    let q := delivery.run (Cells.empty maxPending) actions
    let out := delivery.emitted (Cells.empty maxPending) actions
    (submitted actions : Multiset Notice) =
        shownIn out + destroyedIn out + destroyedIn (deinit q) ∧
      OnePerChat (notices q) ∧
      (∀ chat, (inChat chat (shownIn out)).Sublist (inChat chat (submitted actions))) ∧
      ∀ before a after chat, actions = before ++ a :: after → a.Clears chat →
        (inChat chat (shownIn (delivery.emitted
            (delivery.run (Cells.empty maxPending) before) (a :: after)))).Sublist
          (inChat chat (submitted (a :: after))) := by
  intro q out
  have hnone : notices (Cells.empty maxPending) = [] := by decide
  have hone : OnePerChat (notices (Cells.empty maxPending)) := hnone ▸ List.nodup_nil
  have hdelivers : Delivers (Cells.empty maxPending) q out (submitted actions) :=
    run_delivers _ actions
  have hconserved := hdelivers.conserved
  rw [hnone, Multiset.coe_nil, zero_add] at hconserved
  refine ⟨?_, hdelivers.distinct hone, fun chat => ?_, fun before a after chat _ hclears => ?_⟩
  · rw [deinit_destroyed, hconserved]
    abel
  · have hordered := hdelivers.ordered hone chat
    rw [hnone, List.nil_append, inChat_append] at hordered
    exact (List.sublist_append_left _ _).trans hordered
  · have hbefore := (run_delivers (Cells.empty maxPending) before).distinct hone
    have hstep := hclears.ordered hbefore
    generalize delivery.run (Cells.empty maxPending) before = q₁ at hbefore hstep
    have hrest := (run_delivers (apply q₁ a).1 after).ordered
      ((apply_delivers q₁ a).distinct hbefore) chat
    rw [inChat_append] at hstep hrest
    rw [submitted_cons, inChat_append]
    change (inChat chat (shownIn
      ((apply q₁ a).2 ++ delivery.emitted (apply q₁ a).1 after))).Sublist _
    rw [shownIn_append, inChat_append]
    have hshown := ((List.sublist_append_left _ _).trans hrest).append_left
      (inChat chat (shownIn (apply q₁ a).2))
    rw [inChat_append, ← List.append_assoc] at hshown
    exact hshown.trans (hstep.append_right _)

/-! ## Avatars -/

section Avatars

variable {q : Queue} {notice : Notice} {media : Option MediaView} {images now : Int}
  {p : PendingNotice} {actions : List Action}

structure Waits (actions : List Action) (p : PendingNotice) (m : MediaView) (asset : AssetRef)
    (images now : Int) : Prop where
  submitted : Action.submit p.notice (some m) images now ∈ actions
  avatar : p.notice.avatar = some asset
  key : p.key = m.key asset
  generation : p.generation = m.generation
  deadline : p.deadline = now + waitMs

theorem awaited_some {m : MediaView} {asset : AssetRef}
    (h : awaited notice media images = some (m, asset)) :
    media = some m ∧ notice.avatar = some asset := by
  obtain ⟨m', hmedia, h⟩ := Option.bind_eq_some_iff.mp h
  obtain ⟨asset', havatar, h⟩ := Option.bind_eq_some_iff.mp h
  split at h
  · cases h
  · split at h
    all_goals first | (split_ifs at h; cases h; exact ⟨hmedia, havatar⟩) | cases h

theorem mem_dismiss {chat : Bytes} (h : p ∈ (dismiss chat q).1) : p ∈ q := by
  obtain ⟨p', hp', hkept⟩ := Cells.mem_sweep h
  unfold dismissEntry at hkept
  split_ifs at hkept
  cases hkept
  exact hp'

theorem Calm.mem {f : PendingNotice → Option PendingNotice × List Delivery} (hf : Calm f)
    (h : p ∈ (q.sweep f).1) : p ∈ q ∧ f p = (some p, []) := by
  obtain ⟨p', hp', hkept⟩ := Cells.mem_sweep h
  rcases hf p' with hsame | ⟨pixels, hgone⟩
  · rw [hsame] at hkept
    cases hkept
    exact ⟨hp', hsame⟩
  · rw [hgone] at hkept
    cases hkept

theorem mem_submit (h : p ∈ (submit notice media images now q).1) :
    p ∈ q ∨ ∃ m asset, Waits [.submit notice media images now] p m asset images now := by
  cases hawaited : awaited notice media images with
  | none =>
    rw [submit_none hawaited] at h
    exact Or.inl (mem_dismiss h)
  | some v =>
    obtain ⟨slot, -, heq⟩ := submit_some q now hawaited
    rw [heq] at h
    rcases Cells.mem_put h with hold | rfl
    · exact Or.inl (mem_dismiss hold)
    · obtain ⟨rfl, havatar⟩ := awaited_some hawaited
      exact Or.inr ⟨v.1, v.2, List.mem_singleton_self _, havatar, rfl, rfl, rfl⟩

theorem mem_apply {a : Action} (h : p ∈ (apply q a).1) :
    p ∈ q ∨ ∃ m asset images now, Waits [a] p m asset images now := by
  cases a with
  | submit notice media images now =>
    refine (mem_submit h).imp_right ?_
    rintro ⟨m, asset, hwaits⟩
    exact ⟨m, asset, images, now, hwaits⟩
  | poll media images now => exact Or.inl (pollEntry_calm.mem h).1
  | accept media result =>
    rw [apply, accept] at h
    split at h
    · exact Or.inl h
    · exact Or.inl (acceptEntry_calm.mem h).1
  | dismiss chat => exact Or.inl (mem_dismiss h)

theorem Waits.mono {actions' : List Action} {m : MediaView} {asset : AssetRef}
    (h : Waits actions p m asset images now) (hsub : actions ⊆ actions') :
    Waits actions' p m asset images now :=
  { h with submitted := hsub h.submitted }

theorem run_waits (h : p ∈ delivery.run (Cells.empty maxPending) actions) :
    ∃ m asset images now, Waits actions p m asset images now := by
  induction actions using List.reverseRecOn with
  | nil => exact absurd h Cells.not_mem_empty
  | append_singleton before a ih =>
    rw [delivery.run_append] at h
    rcases mem_apply h with hold | ⟨m, asset, images, now, hwaits⟩
    · obtain ⟨m, asset, images, now, hwaits⟩ := ih hold
      exact ⟨m, asset, images, now, hwaits.mono (List.subset_append_left _ _)⟩
    · exact ⟨m, asset, images, now, hwaits.mono (List.subset_append_right _ _)⟩

theorem mem_poll (h : p ∈ (poll media images now q).1) : now < p.deadline := by
  have hkept := (pollEntry_calm.mem h).2
  unfold pollEntry at hkept
  cases media with
  | none => cases hkept
  | some m =>
    dsimp only at hkept
    split_ifs at hkept with hdue
    · cases hkept
    · simp only [Bool.or_eq_true, decide_eq_true_eq, not_or, not_le] at hdue
      exact hdue.1.1.1
    · cases hkept

theorem not_shown_dismiss {chat : Bytes} {n : Notice} {pixels : Option ImageCache.Pixels} :
    Delivery.shown n pixels ∉ (dismiss chat q).2 := by
  intro h
  have hshown : n ∈ shownIn (dismiss chat q).2 := List.mem_filterMap.mpr ⟨_, h, rfl⟩
  rw [dismiss_shown] at hshown
  cases hshown

/-- A picture is shown only when a result is accepted, with the notices of its key. -/
theorem shown_pixels {a : Action} {n : Notice} {pixels : ImageCache.Pixels}
    (h : .shown n (some pixels) ∈ (apply q a).2) :
    ∃ media result, a = .accept media result ∧ result.state = .ready ∧
      result.pixels = pixels ∧ media.avatars = true ∧ result.generation = media.generation ∧
      ∃ p ∈ q, p.notice = n ∧ p.key = result.key ∧ p.generation = result.generation := by
  cases a with
  | submit notice media images now =>
    have hdismissed : Delivery.shown n (some pixels) ∉ (dismiss notice.chat q).2 :=
      not_shown_dismiss
    cases hawaited : awaited notice media images with
    | none =>
      rw [apply, submit_none hawaited] at h
      rcases List.mem_append.mp h with hold | hnew
      · exact absurd hold hdismissed
      · cases List.mem_singleton.mp hnew
    | some v =>
      obtain ⟨slot, -, heq⟩ := submit_some q now hawaited
      rw [apply, heq] at h
      rcases List.mem_append.mp h with hold | hnew
      · exact absurd hold hdismissed
      · cases hentry : (dismiss notice.chat q).1.entry slot with
        | none =>
          rw [hentry] at hnew
          cases hnew
        | some p =>
          rw [hentry] at hnew
          cases List.mem_singleton.mp hnew
  | poll media images now =>
    obtain ⟨p, -, hp⟩ := Cells.mem_sweep_out h
    unfold pollEntry at hp
    cases media with
    | none => cases List.mem_singleton.mp hp
    | some m =>
      dsimp only at hp
      split_ifs at hp
      · cases List.mem_singleton.mp hp
      · cases hp
      · cases List.mem_singleton.mp hp
  | accept media result =>
    rw [apply, accept] at h
    split at h
    · cases h
    · next hcurrent =>
      obtain ⟨p, hp, hout⟩ := Cells.mem_sweep_out h
      simp only [ne_eq, Bool.or_eq_true, decide_eq_true_eq, Bool.not_eq_eq_eq_not,
        Bool.not_true, not_or, not_not, Bool.not_eq_false] at hcurrent
      unfold acceptEntry at hout
      split_ifs at hout with hother hready
      · cases hout
      · simp only [ne_eq, Bool.or_eq_true, decide_eq_true_eq, not_or, not_not] at hother
        cases List.mem_singleton.mp hout
        exact ⟨media, result, rfl, hready, rfl, hcurrent.2, hcurrent.1, p, hp, rfl, hother.2,
          hother.1⟩
      · cases List.mem_singleton.mp hout
  | dismiss chat => exact absurd h not_shown_dismiss

end Avatars

/-- A notice is shown with a picture only where the media worker decoded the avatar that
it was submitted with, in the generation it was submitted in; and a poll leaves no notice
pending that was submitted 750 ms before it. -/
theorem avatars_matched (actions : List Action) :
    (∀ n pixels,
      Delivery.shown n (some pixels) ∈ delivery.emitted (Cells.empty maxPending) actions →
      ∃ before media result after, actions = before ++ .accept media result :: after ∧
        result.state = .ready ∧ result.pixels = pixels ∧ media.avatars = true ∧
        result.generation = media.generation ∧
        ∃ m asset images now, .submit n (some m) images now ∈ before ∧
          n.avatar = some asset ∧ result.key = m.key asset ∧
          result.generation = m.generation) ∧
    ∀ before media images now, actions = before ++ [.poll media images now] →
      ∀ n ∈ notices (delivery.run (Cells.empty maxPending) actions),
        ∃ m images' time, .submit n (some m) images' time ∈ before ∧ now < time + waitMs := by
  constructor
  · intro n pixels hshown
    obtain ⟨before, a, after, hactions, hout⟩ := delivery.mem_emitted hshown
    obtain ⟨media, result, rfl, hready, hpixels, havatars, hgeneration, p, hp, hn, hkey, hsame⟩ :=
      shown_pixels hout
    obtain ⟨m, asset, images, now, hwaits⟩ := run_waits hp
    rw [← hn]
    exact ⟨before, media, result, after, hactions, hready, hpixels, havatars, hgeneration,
      m, asset, images, now, hwaits.submitted, hwaits.avatar, hkey ▸ hwaits.key,
      hsame ▸ hwaits.generation⟩
  · rintro before media images now rfl n hn
    obtain ⟨p, hp, rfl⟩ := mem_notices.mp hn
    rw [delivery.run_append] at hp
    have hlate := mem_poll hp
    obtain ⟨m, asset, images', time, hwaits⟩ := run_waits (pollEntry_calm.mem hp).1
    exact ⟨m, images', time, hwaits.submitted, hwaits.deadline ▸ hlate⟩

end NotificationQueue
end Zimbr
