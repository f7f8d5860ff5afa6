import Zimbr.Relay.Runs

set_option autoImplicit false

/-!
# At-most-once dispatch

What started never returns to the queue, and only a queued request or part is
marked; so the automation runs at most once for each, and only after its mark.
-/
namespace Zimbr.Relay
open Library

/-- The text request, or the part, has left the queue. -/
def Started (j : Journal) (id : Bytes) : Option Nat → Prop
  | none => ∃ row, j.sendRequests.get? id = some row ∧ row.record.parts = [] ∧
      row.record.state ≠ .queued
  | some i => ∃ row p, j.sendRequests.get? id = some row ∧ row.record.parts[i]? = some p ∧
      p.state ≠ .queued

def Advanced (parts : List SendPart) (i : Nat) : Prop :=
  ∀ k < i, ∃ p, parts[k]? = some p ∧
    (p.state = .invoked ∨ p.state = .submitted ∨ p.state = .delivered)

/-- The journal durably marks the text request, or the part, as dispatching. -/
def Marked (j : Journal) (id : Bytes) (part : Option Nat) : Prop :=
  ∃ row, j.sendRequests.get? id = some row ∧
    match part with
    | none => row.record.parts = [] ∧ row.record.state = .dispatching
    | some i => (∃ p, row.record.parts[i]? = some p ∧ p.state = .dispatching) ∧
        Advanced row.record.parts i

theorem Started.evolves {j j' : Journal} {id : Bytes} {part : Option Nat} (h : Started j id part)
    (he : Evolves j j') : Started j' id part := by
  cases part with
  | none =>
    obtain ⟨row, hrow, hparts, hstate⟩ := h
    obtain ⟨row', hrow', -, -, hfollows⟩ := he.rows id row hrow
    exact ⟨row', hrow', hfollows.nil.mpr hparts, hfollows.started hparts hstate⟩
  | some i =>
    obtain ⟨row, p, hrow, hp, hstate⟩ := h
    obtain ⟨row', hrow', -, -, hfollows⟩ := he.rows id row hrow
    have hi : i < row'.record.parts.length := by
      rw [hfollows.parts]
      exact (List.getElem?_eq_some_iff.mp hp).1
    have hq : row'.record.parts[i]? = some row'.record.parts[i] := List.getElem?_eq_getElem hi
    exact ⟨row', _, hrow', hq, hfollows.startedPart i p _ hp hq hstate⟩

theorem Engaged.started {j : Journal} {work : Work} (h : Engaged j work) :
    Started j work.v.requestId work.part := by
  obtain ⟨row, hrow, hfollows⟩ := h.tracks
  cases hpart : work.part with
  | none =>
    obtain ⟨hparts, hstate⟩ := h.text hpart
    exact ⟨row, hrow, hfollows.nil.mpr hparts, hfollows.started hparts (by simp [hstate])⟩
  | some i =>
    obtain ⟨p, hp, hstate⟩ := h.part i hpart
    have hi : i < row.record.parts.length := by
      rw [hfollows.parts]
      exact (List.getElem?_eq_some_iff.mp hp).1
    have hq : row.record.parts[i]? = some row.record.parts[i] := List.getElem?_eq_getElem hi
    exact ⟨row, _, hrow, hq, hfollows.startedPart i p _ hp hq (by simp [hstate])⟩

theorem Dispatched.not_started {j j' : Journal} {work : Work} (hk : Keyed j)
    (h : Dispatched j work j') : ¬ Started j work.v.requestId work.part := by
  obtain ⟨row, hrow, hqueued, -, hdispatching⟩ := h.before
  have hmarks := dispatching_marks hdispatching
  cases hpart : work.part with
  | none =>
    rintro ⟨row', hrow', -, hstate⟩
    rw [hrow, Option.some.injEq] at hrow'
    rw [← hrow', ← (hk _ _ hrow).state] at hstate
    exact hstate hqueued
  | some i =>
    rintro ⟨row', p, hrow', hp, hstate⟩
    rw [hrow, Option.some.injEq] at hrow'
    obtain ⟨q, hq, hqueued, -⟩ := Sends.next_spec (hmarks.2 i hpart).1
    rw [← hrow', hq, Option.some.injEq] at hp
    exact hstate (hp ▸ hqueued)

theorem Dispatched.marked {j j' : Journal} {work : Work} (h : Dispatched j work j') :
    Marked j' work.v.requestId work.part := by
  obtain ⟨row, -, -, -, hdispatching⟩ := h.before
  obtain ⟨row', n, hrow', hrecord⟩ := h.after
  have hmarks := dispatching_marks hdispatching
  refine ⟨row', hrow', ?_⟩
  rw [hrecord]
  cases hpart : work.part with
  | none => exact hmarks.1 hpart
  | some i =>
    obtain ⟨hnext, hparts⟩ := hmarks.2 i hpart
    obtain ⟨p, hp, -, hbefore⟩ := Sends.next_spec hnext
    refine ⟨⟨{ p with state := .dispatching }, ?_, rfl⟩, fun k hk => ?_⟩
    · change work.v.parts[i]? = _
      rw [hparts, Sends.getElem?_modify_ite, hp]
      simp
    · have hi := (List.getElem?_eq_some_iff.mp hp).1
      have hq : row.record.parts[k]? = some row.record.parts[k] :=
        List.getElem?_eq_getElem (Nat.lt_trans hk hi)
      refine ⟨_, ?_, hbefore k _ hk hq⟩
      change work.v.parts[k]? = _
      rw [hparts, Sends.getElem?_modify_ite, hq]
      simp [Nat.ne_of_gt hk]

def Pending (p : Process) (id : Bytes) (part : Option Nat) : Prop :=
  ∃ work, p.sender = .prepared work ∧ work.v.requestId = id ∧ work.part = part

/-- The output can never happen again. -/
def Spent (p : Process) : Output → Prop
  | .invoked id part => Started p.journal id part ∧ ¬ Pending p id part
  | .inserted id => (p.journal.sendRequests.get? id).isSome = true

section Steps

variable {enc : Encoding} {p : Process} {id : Bytes} {part : Option Nat}

theorem locked_sender {α : Type} {env : Env} {m : Tx α} {r : Except Error α} {p' : Process}
    (h : p.locked env m = (r, p')) : p'.sender = p.sender := by
  rw [← (Prod.mk.inj h).2]

/-- Only `prepareSend` makes a dispatch pending, and only after its mark committed. -/
theorem pending_step (h : p.Valid) (a : Action) (hp : Pending (p.step enc a) id part) :
    Pending p id part ∨
      (¬ Started p.journal id part ∧ Marked (p.step enc a).journal id part) := by
  unfold Process.step at hp ⊢
  split_ifs at hp ⊢ with henabled
  swap
  · exact Or.inl hp
  have hnever {p' : Process} (hs : p'.sender = .idle ∨ p'.sender = .recovering)
      (hp : Pending p' id part) : False := by
    obtain ⟨work, hwork, -⟩ := hp
    rcases hs with hs | hs <;> simp [hs] at hwork
  have hsame {p' : Process} (hs : p'.sender = p.sender) (hp : Pending p' id part) :
      Pending p id part := by
    obtain ⟨work, hwork, hrest⟩ := hp
    exact ⟨work, hs ▸ hwork, hrest⟩
  cases a with
  | crash => exact (hnever (Or.inl rfl) hp).elim
  | launch env =>
    refine Or.inl (hsame ?_ hp)
    simp only [Process.apply, Process.opened]
    split <;> rfl
  | critical env s => exact Or.inl (hsame rfl hp)
  | prepareSend env gate source =>
    cases hsender : p.sender with
    | idle =>
      simp only [Process.apply, hsender] at hp ⊢
      rcases hrun : (prepareSend env.now gate source).run (p.conn env) with ⟨e | work, c'⟩
      · simp only [Process.prepared, Process.locked, hrun] at hp
        exact (hnever (Or.inr rfl) hp).elim
      · obtain ⟨-, hdispatched⟩ : Changed {} p.journal c'.db ∧
            ∀ w, work = some w → Dispatched p.journal w c'.db := prepareSend_ok h.keyed hrun
        cases work with
        | none =>
          simp only [Process.prepared, Process.locked, hrun] at hp
          exact Or.inl (hsame rfl hp)
        | some work =>
          simp only [Process.prepared, Process.locked, hrun] at hp ⊢
          obtain ⟨w, hw, rfl, rfl⟩ := hp
          rw [Sender.prepared.injEq] at hw
          rw [← hw]
          exact Or.inr ⟨(hdispatched work rfl).not_started h.keyed, (hdispatched work rfl).marked⟩
    | prepared work =>
      simp only [Process.apply, hsender] at hp
      exact Or.inl hp
    | automated work outcome result =>
      simp only [Process.apply, hsender] at hp
      exact Or.inl hp
    | recovering =>
      simp only [Process.apply, hsender] at hp
      exact Or.inl hp
  | invoke invocation =>
    simp only [Process.apply] at hp
    split at hp
    · cases invocation with
      | refused code =>
        obtain ⟨w, hw, -⟩ := hp
        cases hw
      | called result =>
        obtain ⟨w, hw, -⟩ := hp
        cases hw
      | lost ran => exact (hnever (Or.inr rfl) hp).elim
    · exact Or.inl hp
  | commitResult env =>
    simp only [Process.apply] at hp
    split at hp
    · next work outcome result hsender =>
      rcases hrun : (commitResult env.now work outcome result).run (p.conn env) with ⟨e | u, c'⟩
      · simp only [Process.committed, Process.locked, hrun] at hp
        exact (hnever (Or.inr rfl) hp).elim
      · simp only [Process.committed, Process.locked, hrun] at hp
        exact (hnever (Or.inl rfl) hp).elim
    · exact Or.inl hp
  | recover env =>
    simp only [Process.apply] at hp
    split at hp
    · rcases hrun : (recover env.now).run (p.conn env) with ⟨e | u, c'⟩
      · simp only [Process.recovered, Process.locked, hrun] at hp
        exact Or.inl (hsame rfl hp)
      · simp only [Process.recovered, Process.locked, hrun] at hp
        exact (hnever (Or.inl rfl) hp).elim
    · exact Or.inl hp
  | prepareObservation env gate =>
    refine Or.inl (hsame ?_ hp)
    simp only [Process.apply, Process.observed]
    split
    · split
      · next heq =>
        have hs := locked_sender heq
        exact hs
      · next heq => exact locked_sender heq
    · rfl
  | publish env readReady candidate =>
    refine Or.inl (hsame ?_ hp)
    simp only [Process.apply]
    split <;> rfl
  | reset env expected =>
    obtain ⟨required, happly⟩ := p.resetBy_eq env expected
    have hsender : (p.resetBy env expected).sender = p.sender := by rw [happly]
    exact Or.inl (hsame hsender hp)

theorem Spent.step (h : p.Valid) (a : Action) {w : Output} (hw : Spent p w) :
    Spent (p.step enc a) w := by
  have he : Evolves p.journal (p.step enc a).journal := (h.step a).2.changed.evolves
  cases w with
  | invoked id part =>
    obtain ⟨hstarted, hpending⟩ := hw
    refine ⟨hstarted.evolves he, fun hp => ?_⟩
    rcases pending_step h a hp with hp | ⟨hnot, -⟩
    · exact hpending hp
    · exact hnot hstarted
  | inserted id =>
    obtain ⟨row, hrow⟩ := Option.isSome_iff_exists.mp hw
    obtain ⟨row', hrow', -⟩ := he.rows id row hrow
    exact Option.isSome_iff_exists.mpr ⟨row', hrow'⟩

theorem mem_out {a : Action} {w : Output} (hw : w ∈ p.out enc a) :
    (∃ invocation work, a = .invoke invocation ∧ p.sender = .prepared work ∧
      w = .invoked work.v.requestId work.part ∧ p.out enc a = [w] ∧
      p.step enc a = p.invoked work invocation) ∨
    ∃ env s c' id, a = .critical env s ∧
      (s.tx enc env.now).run (p.conn env) = (.ok (some id), c') ∧ w = .inserted id ∧
      p.out enc a = [w] ∧ (p.step enc a).journal = c'.db := by
  unfold Process.out at hw ⊢
  unfold Process.step
  split_ifs at hw ⊢
  · cases a with
    | critical env s =>
      simp only [Process.emit, Process.locked] at hw ⊢
      split at hw
      · next id heq =>
        have hrun : (s.tx enc env.now).run (p.conn env) =
            (.ok (some id), ((s.tx enc env.now).run (p.conn env)).2) := Prod.ext heq rfl
        rw [List.mem_singleton] at hw
        exact Or.inr ⟨env, s, _, id, rfl, hrun, hw, by rw [hw], rfl⟩
      · simp at hw
    | invoke invocation =>
      simp only [Process.emit] at hw ⊢
      split at hw
      · next work hsender =>
        split_ifs at hw with hcalls
        · rw [List.mem_singleton] at hw
          exact Or.inl ⟨invocation, work, rfl, hsender, hw, by rw [if_pos hcalls, hw], by
            simp only [Process.apply, hsender]⟩
        · simp at hw
      · simp at hw
    | launch env => simp [Process.emit] at hw
    | crash => simp [Process.emit] at hw
    | prepareSend env gate source => simp [Process.emit] at hw
    | commitResult env => simp [Process.emit] at hw
    | recover env => simp [Process.emit] at hw
    | prepareObservation env gate => simp [Process.emit] at hw
    | publish env readReady candidate => simp [Process.emit] at hw
    | reset env expected => simp [Process.emit] at hw
  · simp at hw

theorem out_unspent (h : p.Valid) {a : Action} {w : Output} (hw : w ∈ p.out enc a) :
    ¬ Spent p w := by
  rcases mem_out hw with ⟨invocation, work, -, hsender, rfl, -, -⟩ |
    ⟨env, s, c', id, -, hrun, rfl, -, -⟩
  · rintro ⟨-, hpending⟩
    exact hpending ⟨work, hsender, rfl, rfl⟩
  · intro hspent
    obtain ⟨habsent, -⟩ := (section_ok (c := p.conn env) h.keyed hrun).2 id rfl
    change (p.journal.sendRequests.get? id).isSome = true at hspent
    change p.journal.sendRequests.get? id = none at habsent
    rw [habsent] at hspent
    exact nomatch hspent

theorem out_spends (h : p.Valid) {a : Action} {w : Output} (hw : w ∈ p.out enc a) :
    Spent (p.step enc a) w := by
  rcases mem_out hw with ⟨invocation, work, -, hsender, rfl, -, hstep⟩ |
    ⟨env, s, c', id, -, hrun, rfl, -, hjournal⟩
  · have hstarted := (h.sender work (by rw [hsender]; rfl)).started
    rw [hstep]
    cases invocation with
    | refused code => exact ⟨hstarted, fun ⟨w, hw, _⟩ => nomatch hw⟩
    | called result => exact ⟨hstarted, fun ⟨w, hw, _⟩ => nomatch hw⟩
    | lost ran => exact ⟨hstarted, fun ⟨w, hw, _⟩ => nomatch hw⟩
  · obtain ⟨-, hpresent⟩ := (section_ok (c := p.conn env) h.keyed hrun).2 id rfl
    change (Process.journal _).sendRequests.contains id = true
    rw [hjournal]
    exact hpresent

theorem out_nodup (a : Action) : (p.out enc a).Nodup := by
  cases hout : p.out enc a with
  | nil => exact List.nodup_nil
  | cons w rest =>
    have hw : w ∈ p.out enc a := by
      rw [hout]
      exact List.mem_cons_self
    have hsingle : p.out enc a = [w] := by
      rcases mem_out hw with ⟨_, _, _, _, _, h, _⟩ | ⟨_, _, _, _, _, _, _, h, _⟩
      · exact h
      · exact h
    rw [← hout, hsingle]
    exact List.nodup_singleton w

theorem emitted_nodup (h : p.Valid) (actions : List Action) :
    ((relay enc).emitted p actions).Nodup := by
  have hstep : ∀ (p : Process) a, p.Valid → Process.Valid ((relay enc).step p a) :=
    fun _ a hp => (hp.step a).1
  have hstays : ∀ (p : Process) a w, p.Valid → Spent p w → Spent ((relay enc).step p a) w :=
    fun _ a _ hp hw => hw.step hp a
  have hunspent : ∀ (p : Process) a w, p.Valid → w ∈ (relay enc).out p a → ¬ Spent p w :=
    fun _ _ _ hp hw => out_unspent hp hw
  exact (relay enc).emitted_nodup hstep hstays hunspent (fun _ a _ => out_nodup a)
    (fun _ _ _ hp hw => out_spends hp hw) p actions h

theorem invoked_marked (h : p.Valid) (hidle : p.sender = .idle) {actions : List Action}
    {a : Action} (hw : .invoked id part ∈ (relay enc).out ((relay enc).run p actions) a) :
    ∃ earlier later, actions = earlier ++ later ∧
      Marked ((relay enc).run p earlier).journal id part := by
  have hpending : Pending ((relay enc).run p actions) id part := by
    rcases mem_out hw with ⟨invocation, work, -, hsender, heq, -, -⟩ |
      ⟨env, s, c', id', -, -, heq, -, -⟩
    · rw [Output.invoked.injEq] at heq
      exact ⟨work, hsender, heq.1.symm, heq.2.symm⟩
    · exact nomatch heq
  refine (relay enc).established (I := Process.Valid) (P := fun q => Pending q id part)
    (Q := fun q => Marked q.journal id part) (fun _ a hp => (hp.step a).1)
    (fun q a hq hp => ?_) p actions h ?_ hpending
  · exact (pending_step hq a hp).imp_right And.right
  · rintro ⟨work, hwork, -⟩
    rw [hidle] at hwork
    exact nomatch hwork

end Steps

/-- Every run invokes the automation at most once for each text request and at
most once for each part, and only after the journal durably marked it as
dispatching behind parts that all ran. -/
theorem dispatch_at_most_once (enc : Encoding) {p : Process} (initial : p.Initial)
    (actions : List Action) :
    (∀ id part, ((relay enc).emitted p actions).count (.invoked id part) ≤ 1) ∧
    (∀ id part part', .invoked id part ∈ (relay enc).emitted p actions →
      .invoked id part' ∈ (relay enc).emitted p actions → (part = none ↔ part' = none)) ∧
    ∀ before a after id part, actions = before ++ a :: after →
      .invoked id part ∈ (relay enc).out ((relay enc).run p before) a →
      ∃ earlier later, before = earlier ++ later ∧
        Marked ((relay enc).run p earlier).journal id part := by
  have hvalid := initial.valid
  refine ⟨fun id part => ?_, fun id part part' hw hw' => ?_, fun before a after id part _ hw => ?_⟩
  · exact List.nodup_iff_count_le_one.mp (emitted_nodup hvalid actions) _
  · have hempty {part : Option Nat} (hw : .invoked id part ∈ (relay enc).emitted p actions) :
        ∃ row, ((relay enc).run p actions).journal.sendRequests.get? id = some row ∧
          (part = none ↔ row.record.parts = []) := by
      obtain ⟨first, a, rest, hactions, hout⟩ := (relay enc).mem_emitted hw
      obtain ⟨earlier, later, hfirst, row, hrow, hmark⟩ := invoked_marked hvalid initial.idle hout
      have hrun : (relay enc).run p actions =
          (relay enc).run ((relay enc).run p earlier) (later ++ a :: rest) := by
        rw [hactions, hfirst, List.append_assoc, Machine.run_append]
      have he : Evolves ((relay enc).run p earlier).journal
          ((relay enc).run p actions).journal := by
        rw [hrun]
        exact run_evolves (run_valid hvalid earlier) (later ++ a :: rest)
      obtain ⟨row', hrow', -, -, hfollows⟩ := he.rows id row hrow
      refine ⟨row', hrow', ?_⟩
      cases part with
      | none => simp [hfollows.nil.mpr hmark.1]
      | some i =>
        obtain ⟨⟨q, hq, -⟩, -⟩ := hmark
        have hne : row.record.parts ≠ [] := by
          intro hnil
          simp [hnil] at hq
        simp [hfollows.nil, hne]
    obtain ⟨row, hrow, hpart⟩ := hempty hw
    obtain ⟨row', hrow', hpart'⟩ := hempty hw'
    rw [hrow, Option.some.injEq] at hrow'
    rw [hpart, hpart', hrow']
  · exact invoked_marked hvalid initial.idle hw

namespace Sample

def encoding : Encoding where
  attachment _ := 1
  preview _ := 1
  reaction _ := 1
  part _ := 1
  envelope _ _ := 1
  record _ := 1
  attachmentsDigest _ := []
  previewsDigest _ := []
  reactionsDigest _ := []
  partsDigest _ := []
  fingerprint _ _ _ := []
  slot _ := 0

def epoch : Bytes := text "AAAAAAAAAAAAAAAAAAAAAA"
def requestId : Bytes := text "BAAAAAAAAAAAAAAAAAAAAA"

def hello : SendInput where
  requestId := requestId
  serverEpoch := epoch
  target := { recipient := some { address := text "+15550100", service := text "imessage" } }
  text := text "hello"

def emptySource : Source where
  identity := []
  high := 0
  guid _ := none
  validateRoute _ := .ok ()

def markHello : List Action := [
  .launch { now := 0 },
  .critical { now := 1 } (.post hello true []),
  .prepareSend { now := 2 } true (some emptySource)]

end Sample

theorem dispatch_at_most_once_hello :
    (relay Sample.encoding).emitted (.new Sample.epoch)
        (Sample.markHello ++ [.invoke (.called .completed), .invoke (.called .completed)]) =
      [.inserted Sample.requestId, .invoked Sample.requestId none] ∧
    ∃ earlier later, Sample.markHello = earlier ++ later ∧
      Marked ((relay Sample.encoding).run (.new Sample.epoch) earlier).journal
        Sample.requestId none := by
  have hout : .invoked Sample.requestId none ∈ (relay Sample.encoding).out
      ((relay Sample.encoding).run (.new Sample.epoch) Sample.markHello)
        (.invoke (.called .completed)) := by
    decide +kernel
  refine ⟨by decide +kernel, ?_⟩
  exact (dispatch_at_most_once Sample.encoding (Process.new_initial Sample.epoch) _).2.2
    Sample.markHello _ [] Sample.requestId none rfl hout

end Zimbr.Relay
