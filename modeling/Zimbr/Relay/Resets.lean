import Zimbr.Relay.Leases
import Zimbr.Relay.Pages
import Zimbr.Relay.Streams

set_option autoImplicit false

/-!
# Resets on request

A request to reset names the epoch it means to end. An epoch that ended never
comes back, so the requests that name one reset the journal at most once, and
nothing else that names it is accepted any more. The positions of pages name no
epoch.
-/
namespace Zimbr.Relay
open Library

def resetting (enc : Encoding) : Machine Process Action Bytes where
  step := Process.step enc
  out p
    | .reset env expected =>
      if p.running = true ∧ p.Unused env then
        match (p.locked env (postReset env.now expected)).1 with
        | .ok snapshot => if snapshot.fresh then [expected] else []
        | .error _ => []
      else []
    | _ => []

def Refuses {α : Type} (j : Journal) (m : Tx α) : Prop :=
  ∀ c : Conn Journal Bytes, c.db = j → ∃ e c', m.run c = (.error e, c') ∧ c'.db = j

theorem Refuses.of_ok {α : Type} {j : Journal} {m : Tx α} (haborts : Sql.Aborts m)
    (h : ∀ (c c' : Conn Journal Bytes) (a : α), c.db = j → m.run c ≠ (.ok a, c')) :
    Refuses j m := by
  intro c hc
  rcases hrun : m.run c with ⟨e | a, c'⟩
  · exact ⟨e, c', rfl, (haborts c e c' hrun).trans hc⟩
  · exact absurd hrun (h c c' a hc)

/-- Nothing that names the epoch is accepted, and no work on its uploads. -/
structure Ended (enc : Encoding) (j : Journal) (epoch : Bytes) : Prop where
  sends : ∀ now (input : SendInput) ready owner, input.serverEpoch = epoch →
    Refuses j (Section.accepting now input ready owner)
  cursors : ∀ position n, parseCursor position epoch = .ok n → Refuses j (checkCursor position)
  opens : ∀ now streams start identities n, parseCursor start epoch = .ok n →
    Refuses j (openEvents now streams start identities)
  polls : ∀ now changed (s : EventStream) n, parseCursor s.start epoch = .ok n →
    s.waits now changed = false → Refuses j (pollEvents enc now changed s)
  reserves : ∀ owner file now, Refuses j (Uploads.reserve owner epoch file now)
  lookups : ∀ owner id, Refuses j (Uploads.lookup owner epoch id)
  claims : ∀ owner id, Refuses j (Uploads.claim owner epoch id)
  cancels : ∀ owner id, Refuses j (Uploads.cancel owner epoch id)
  completes : ∀ lease : Uploads.Lease, lease.serverEpoch = epoch → Refuses j (Uploads.complete lease)
  uploads : ∀ id r, j.uploads.get? id = some r → r.epoch = epoch → ∀ owner named,
    Refuses j (Uploads.lookup owner named id) ∧ Refuses j (Uploads.claim owner named id) ∧
    Refuses j (Uploads.cancel owner named id) ∧
    ∀ file : Upload, file.id = id → Refuses j (Uploads.pinnable owner named file)

section Refusals

variable {enc : Encoding} {j : Journal} {α β : Type} {m : Tx α} {f : α → Tx β} {epoch : Bytes}

theorem Refuses.bind (h : Refuses j m) : Refuses j (m >>= f) := by
  intro c hc
  obtain ⟨e, c', hrun, hdb⟩ := h c hc
  exact ⟨e, c', by rw [Sql.bind_run, hrun], hdb⟩

theorem Refuses.after (hm : Sql.Reads m) (h : ∀ a, Refuses j (f a)) : Refuses j (m >>= f) := by
  intro c hc
  rw [Sql.bind_run]
  rcases hrun : m.run c with ⟨e | a, c'⟩
  · exact ⟨e, c', rfl, (hm.aborts c e c' hrun).trans hc⟩
  · exact h a c' ((hm.ok hrun).trans hc)

theorem Refuses.query {g : Journal → α} (h : Refuses j (f (g j))) :
    Refuses j (Sql.query g >>= f) := by
  intro c hc
  rw [Sql.bind_run]
  rcases hrun : (Sql.query g : Tx α).run c with ⟨e | a, c'⟩
  · exact ⟨e, c', rfl, (Sql.Reads.query.aborts c e c' hrun).trans hc⟩
  · obtain ⟨hvalue, hdb⟩ := Sql.query_ok hrun
    rw [hc] at hvalue
    rw [hvalue]
    exact h c' (hdb.trans hc)

theorem Refuses.require {p : Bool} {e : Error} (h : p = false) : Refuses j (Sql.require p e) := by
  refine .of_ok Sql.Reads.require.aborts fun c c' u _ hrun => ?_
  have hholds := (Sql.require_ok hrun).1
  rw [h] at hholds
  cases hholds

theorem Refuses.transaction (h : Refuses j m) : Refuses j (Sql.transaction m) := by
  refine .of_ok Sql.Aborts.transaction fun c c' a hc hrun => ?_
  obtain ⟨c₁, c₂, hdb₁, -, hbody, -⟩ := Sql.transaction_ok hrun
  obtain ⟨e, c₃, herror, -⟩ := h c₁ (hdb₁.trans hc)
  rw [hbody] at herror
  exact nomatch congrArg Prod.fst herror

theorem checkEpoch_refuses (hne : j.epoch ≠ epoch) : Refuses j (Uploads.checkEpoch epoch) := by
  refine .of_ok (Uploads.checkEpoch_reads epoch).aborts fun c c' u hc hrun => ?_
  have hcurrent := (Uploads.checkEpoch_ok hrun).2.1
  rw [hc] at hcurrent
  exact hne hcurrent.symm

theorem lookup_refuses (hne : j.epoch ≠ epoch) (owner id : Bytes) :
    Refuses j (Uploads.lookup owner epoch id) :=
  .after .require fun _ => .bind (checkEpoch_refuses hne)

/-- An upload of another epoch has expired, whatever epoch its operation names. -/
theorem expired_refuses (hne : j.epoch ≠ epoch) {id : Bytes} {r : UploadRow}
    (hr : j.uploads.get? id = some r) (hepoch : r.epoch = epoch) (owner named : Bytes) :
    Refuses j (Uploads.lookup owner named id) := by
  refine .of_ok (uploads_lookup_reads owner named id).aborts fun c c' found hc hrun => ?_
  obtain ⟨⟨-, hnamed, -⟩, r', hr', -, hrow, -⟩ := uploads_lookup_ok hrun
  rw [hc] at hnamed hr'
  rw [hr, Option.some.injEq] at hr'
  rw [← hr', hepoch] at hrow
  exact hne (hnamed.symm.trans hrow.symm)

theorem checkCursor_refuses (hne : j.epoch ≠ epoch) {position : Bytes} {n : Nat}
    (h : parseCursor position epoch = .ok n) : Refuses j (checkCursor position) := by
  refine .of_ok ?_ fun c c' seq hc hrun => ?_
  · exact .bind .query fun _ => .bind .lift fun _ => .bind .query fun _ => .bind .require fun _ =>
      .bind .query fun _ => .map Sql.Reads.require.aborts
  · have hcurrent := (parseCursor_epoch (checkCursor_ok hrun).2.1).1
    rw [hc] at hcurrent
    exact hne (hcurrent.symm.trans (parseCursor_epoch h).1)

theorem pollEvents_refuses (hne : j.epoch ≠ epoch) (hcanonical : validId j.epoch = true)
    {now : Int} {changed n : Nat} {s : EventStream} (h : parseCursor s.start epoch = .ok n)
    (hwaits : s.waits now changed = false) : Refuses j (pollEvents enc now changed s) := by
  have hother : j.epoch.isPrefixOf s.start = false := by
    by_contra hsame
    rw [Bool.not_eq_false, List.isPrefixOf_iff_prefix] at hsame
    have htake := List.prefix_iff_eq_take.mp hsame
    rw [validId_length hcanonical, (parseCursor_epoch h).1] at htake
    exact hne htake
  unfold pollEvents
  rw [hwaits]
  exact .query (.bind (.require hother))

theorem ended (hne : j.epoch ≠ epoch) (hcanonical : validId j.epoch = true) :
    Ended enc j epoch where
  sends now input ready owner hinput := by
    refine .of_ok (accepting_aborts input ready owner) fun c c' accepted hc hrun => ?_
    have hcurrent := (accepting_ok hrun).2.1
    rw [hc, hinput] at hcurrent
    exact hne hcurrent.symm
  cursors position n h := checkCursor_refuses hne h
  opens now streams start identities n h := .after .require fun _ => .bind (checkCursor_refuses hne h)
  polls now changed s n h hwaits := pollEvents_refuses hne hcanonical h hwaits
  reserves owner file now :=
    .after .lift fun _ => .transaction (.bind (checkEpoch_refuses hne))
  lookups owner id := lookup_refuses hne owner id
  claims owner id := .transaction (.bind (lookup_refuses hne owner id))
  cancels owner id := .transaction (.bind (lookup_refuses hne owner id))
  completes lease hlease := by
    refine .of_ok (Uploads.complete_aborts lease) fun c c' u hc hrun => ?_
    have hcurrent := (Uploads.complete_ok hrun).1
    rw [hc, hlease] at hcurrent
    exact hne hcurrent.symm
  uploads id r hr hepoch owner named := by
    have hlookup := expired_refuses hne hr hepoch owner named
    refine ⟨hlookup, .transaction (.bind hlookup), .transaction (.bind hlookup), ?_⟩
    rintro file rfl
    exact .bind hlookup

end Refusals

namespace Process

variable {enc : Encoding} {p : Process}

/-- The epoch was issued, and another one is current. -/
structure Past (p : Process) (epoch : Bytes) : Prop where
  issued : epoch ∈ p.issued
  other : p.journal.epoch ≠ epoch
  canonical : validId p.journal.epoch = true

/-- How a request to reset is answered: with an epoch that it did not name, that of
the journal it leaves. Unless it reset the journal it changes nothing. -/
def Answered (p : Process) (env : Env) (expected : Bytes) : Prop :=
  match p.locked env (postReset env.now expected) with
  | (.error _, q) => q.journal = p.journal
  | (.ok s, q) => s.serverEpoch = q.journal.epoch ∧
    s.cursor = cursor q.journal.epoch q.journal.sequence ∧ s.serverEpoch ≠ expected ∧
    (s.fresh = true → expected = p.journal.epoch ∧ validId q.journal.epoch = true) ∧
    (s.fresh = false → q.journal = p.journal)

def pastAnswer (j : Journal) (epoch : Bytes) : Except Error Snapshot :=
  if epoch.length ≠ 0 && epoch.length ≤ 128 then
    .ok { fresh := false, serverEpoch := j.epoch, cursor := cursor j.epoch j.sequence }
  else .error .invalidRequest

/-- A request to reset changes nothing and learns the current epoch, unless a
statement fails. -/
def Ignores (p : Process) (env : Env) (epoch : Bytes) : Prop :=
  let (answer, q) := p.locked env (postReset env.now epoch)
  q.journal = p.journal ∧ (answer = pastAnswer p.journal epoch ∨ answer = .error .databaseFailure)

theorem Valid.step_past (h : p.Valid) (a : Action) {epoch : Bytes} (hissued : epoch ∈ p.issued) :
    (p.step enc a).journal.epoch = p.journal.epoch ∨ (p.step enc a).Past epoch := by
  obtain ⟨hstep, hkept⟩ := @Valid.step_epoch enc p h a
  rcases hstep with hchanged | ⟨drawn, middle, hreset, hchanged, hcanonical, hnew, -, -⟩
  · exact Or.inl (hchanged.grows rfl).1
  · have hdrawn : (p.step enc a).journal.epoch = drawn := (hchanged.grows rfl).1.trans hreset.epoch
    refine Or.inr ⟨hkept _ hissued, ?_, ?_⟩
    · rw [hdrawn]
      exact fun he => hnew (he ▸ hissued)
    · rw [hdrawn]
      exact hcanonical

theorem Past.step (h : p.Valid) (a : Action) {epoch : Bytes} (hpast : p.Past epoch) :
    (p.step enc a).Past epoch := by
  have hkept : epoch ∈ (p.step enc a).issued := (h.step_epoch a).2 _ hpast.issued
  rcases @Valid.step_past enc p h a epoch hpast.issued with hsame | hpast'
  · exact ⟨hkept, hsame ▸ hpast.other, hsame ▸ hpast.canonical⟩
  · exact hpast'

theorem Valid.answered (h : p.Valid) (hissued : p.journal.epoch ∈ p.issued) {env : Env}
    (hunused : p.Unused env) (expected : Bytes) : p.Answered env expected := by
  unfold Answered locked
  rcases hrun : (postReset env.now expected).run (p.conn env) with ⟨e | s, c⟩
  · exact postReset_aborts expected _ e c hrun
  · obtain ⟨⟨hepoch, hcursor⟩, hcases⟩ := postReset_ok (c := p.conn env) h.keyed hrun
    refine ⟨hepoch, hcursor, ?_⟩
    rw [hepoch]
    rcases hcases with ⟨hfresh, hother, hdb⟩ | ⟨hfresh, hcurrent, drawn, hdrawn, hreset⟩
    · rw [hdb, hfresh]
      exact ⟨Ne.symm hother, fun hfalse => (by cases hfalse), fun _ => rfl⟩
    · obtain ⟨hcanonical, hnew⟩ := hunused drawn hdrawn
      rw [hreset.epoch, hfresh]
      refine ⟨fun he => hnew ?_, fun _ => ⟨hcurrent, hcanonical⟩, fun hfalse => by cases hfalse⟩
      rw [he, hcurrent]
      exact hissued

theorem Past.ignored {epoch : Bytes} (h : p.Past epoch) (env : Env) : p.Ignores env epoch := by
  have hcalm : (postReset env.now epoch).run (p.conn env).calm =
      (pastAnswer p.journal epoch, (p.conn env).calm) := by
    change (postReset env.now epoch).run ⟨p.journal, [], env.fresh⟩ =
      (_, ⟨p.journal, [], env.fresh⟩)
    unfold pastAnswer
    by_cases hnamed : (epoch.length ≠ 0 && epoch.length ≤ 128) = true
    · simp only [postReset, Sql.bind_run, Sql.require_run, Sql.query_run_calm, hnamed, if_true,
        if_neg (Ne.symm h.other), h.canonical]
      rfl
    · simp only [postReset, Sql.bind_run, Sql.require_run, hnamed]
      rfl
  exact (postReset_aborts epoch).answers hcalm

end Process

section Runs

variable {enc : Encoding} {p : Process}

/-- The request that ended an epoch found it current and leaves it past. -/
theorem resetting_out (h : p.Valid) (hissued : p.journal.epoch ∈ p.issued) {a : Action}
    {epoch : Bytes} (hout : epoch ∈ (resetting enc).out p a) :
    p.journal.epoch = epoch ∧ (p.step enc a).Past epoch := by
  cases a with
  | reset env expected =>
    simp only [resetting] at hout
    split_ifs at hout with henabled
    · rcases hrun : p.locked env (postReset env.now expected) with ⟨e | s, q⟩
      · simp [hrun] at hout
      · simp only [hrun] at hout
        split_ifs at hout with hfresh
        · have hanswered := h.answered hissued henabled.2 expected
          simp only [Process.Answered, hrun] at hanswered
          obtain ⟨hepoch, -, hother, hreset, -⟩ := hanswered
          obtain ⟨hcurrent, hcanonical⟩ := hreset hfresh
          rw [List.mem_singleton.mp hout]
          obtain ⟨required, happly⟩ := p.resetBy_eq env expected
          have hstep : p.step enc (.reset env expected) = p.resetBy env expected := if_pos henabled
          have hjournal : (p.step enc (.reset env expected)).journal = q.journal := by
            rw [hstep, happly]
            exact congrArg (fun answer => answer.2.journal) hrun
          refine ⟨hcurrent.symm, ?_, ?_, ?_⟩
          · exact (@Process.Valid.step_epoch enc p h (.reset env expected)).2 _ (hcurrent ▸ hissued)
          · rw [hjournal, ← hepoch]
            exact hother
          · rw [hjournal]
            exact hcanonical
        · exact nomatch hout
    · exact nomatch hout
  | _ => exact nomatch hout

theorem resetting_nodup (h : p.Valid) (hissued : p.journal.epoch ∈ p.issued)
    (actions : List Action) : ((resetting enc).emitted p actions).Nodup := by
  refine (resetting enc).emitted_nodup
    (I := fun q => q.Valid ∧ q.journal.epoch ∈ q.issued)
    (fun q a hq => ⟨(hq.1.step a).1, @run_issued enc q hq.1 hq.2 [a]⟩)
    (fun q a w hq (hw : Process.Past q w) => hw.step hq.1 a)
    (fun q a w hq hw hpast => hpast.other (resetting_out hq.1 hq.2 hw).1)
    (fun q a _ => ?_) (fun q a w hq hw => (resetting_out hq.1 hq.2 hw).2)
    p actions ⟨h, hissued⟩
  cases a with
  | reset env expected =>
    simp only [resetting]
    split_ifs
    · split
      · split_ifs
        · exact List.nodup_singleton _
        · exact List.nodup_nil
      · exact List.nodup_nil
    · exact List.nodup_nil
  | _ => exact List.nodup_nil

theorem run_past (h : p.Valid) {epoch : Bytes} (hpast : p.Past epoch) (actions : List Action) :
    ((relay enc).run p actions).Past epoch :=
  ((relay enc).run_invariant (I := fun q => q.Valid ∧ q.Past epoch)
    (fun _ a hq => ⟨(hq.1.step a).1, hq.2.step hq.1 a⟩) p actions ⟨h, hpast⟩).2

theorem run_epoch (h : p.Valid) (hissued : p.journal.epoch ∈ p.issued) (actions : List Action) :
    ((relay enc).run p actions).journal.epoch = p.journal.epoch ∨
      ((relay enc).run p actions).Past p.journal.epoch := by
  induction actions generalizing p with
  | nil => exact Or.inl rfl
  | cons a rest ih =>
    have hvalid : (p.step enc a).Valid := (h.step a).1
    rcases h.step_past a hissued with hsame | hpast
    · have hkept : (p.step enc a).journal.epoch ∈ (p.step enc a).issued :=
        hsame ▸ (h.step_epoch a).2 _ hissued
      exact hsame ▸ ih hvalid hkept
    · exact Or.inr (run_past hvalid hpast rest)

/-- In every run the requests that name an epoch reset the journal at most once,
the others learn another epoch or fail and change nothing, and once an epoch is no
longer current nothing that names it is accepted. -/
theorem reset_at_most_once (enc : Encoding) {p : Process} (initial : p.Initial)
    (before after : List Action) :
    let q := (relay enc).run p before
    let r := (relay enc).run q after
    ((resetting enc).emitted p (before ++ after)).Nodup ∧
    (q.journal.epoch ∈ (resetting enc).emitted q after → r.journal.epoch ≠ q.journal.epoch) ∧
    (∀ env, r.Unused env → ∀ expected, r.Answered env expected) ∧
    (r.journal.epoch ≠ q.journal.epoch →
      (∀ env, r.Ignores env q.journal.epoch) ∧ Ended enc r.journal q.journal.epoch) := by
  intro q r
  have hq : q.Valid := run_valid initial.valid before
  have hqissued : q.journal.epoch ∈ q.issued := run_issued initial.valid initial.issued before
  have hr : r.Valid := run_valid hq after
  have hpast := @run_epoch enc q hq hqissued after
  refine ⟨resetting_nodup initial.valid initial.issued _, fun hreset => ?_,
    fun env hunused expected => hr.answered (run_issued hq hqissued after) hunused expected,
    fun hne => ?_⟩
  · obtain ⟨first, a, rest, rfl, hout⟩ := (resetting enc).mem_emitted hreset
    change q.journal.epoch ∈ (resetting enc).out ((relay enc).run q first) a at hout
    have hmiddle : ((relay enc).run q first).Valid := run_valid hq first
    have hended := (resetting_out hmiddle (run_issued hq hqissued first) hout).2
    have hsplit : r = (relay enc).run (((relay enc).run q first).step enc a) rest :=
      (relay enc).run_append q first (a :: rest)
    rw [hsplit]
    exact (run_past (hmiddle.step a).1 hended rest).other
  · have h := hpast.resolve_left hne
    exact ⟨h.ignored, ended h.other h.canonical⟩

end Runs

namespace Sample

def chats : List Action := [
  .launch { now := 0 },
  .critical { now := 1, fresh := [chatId, text "GAAAAAAAAAAAAAAAAAAAAA"] } (.write [
    .conversation (text "c") 1 (text "route") { service := text "imessage" } .live,
    .conversation (text "d") 2 (text "other") { service := text "imessage" } .live])]

def resetChats : Action := .reset { now := 2, fresh := [text "IAAAAAAAAAAAAAAAAAAAAA"] } epoch

def rebuildChats : Action :=
  .critical { now := 3, fresh := [text "CAAAAAAAAAAAAAAAAAAAAA"] } (.write [
    .conversation (text "c") 1 (text "route") { service := text "imessage" } .live])

end Sample

/-- The journal is reset once and the old epoch is refused. -/
theorem reset_at_most_once_chats :
    let r := (relay Sample.encoding).run ((relay Sample.encoding).run (.new Sample.epoch)
      Sample.chats) [Sample.resetChats, Sample.resetChats]
    r.journal.epoch ≠ Sample.epoch ∧ Ended Sample.encoding r.journal Sample.epoch := by
  intro r
  have hreset : r.journal.epoch ≠ Sample.epoch := by decide +kernel
  have hepoch : ((relay Sample.encoding).run (.new Sample.epoch) Sample.chats).journal.epoch =
      Sample.epoch := by decide +kernel
  have h := (reset_at_most_once Sample.encoding (Process.new_initial Sample.epoch) Sample.chats
    [Sample.resetChats, Sample.resetChats]).2.2.2
  rw [hepoch] at h
  exact ⟨hreset, (h hreset).2⟩

/-- A position in the conversations outlives the epoch it was issued in. -/
theorem reset_at_most_once_page :
    let q := (relay Sample.encoding).run (.new Sample.epoch) Sample.chats
    let r := (relay Sample.encoding).run q [Sample.resetChats, Sample.rebuildChats]
    let first := (pageContent Sample.encoding q.journal none none 1 false).toOption
    let next := first.bind Page.next
    let second := (pageContent Sample.encoding r.journal none next 1 false).toOption
    q.journal.epoch ∈ (resetting Sample.encoding).emitted q [Sample.resetChats] ∧
      next = some (text "GAAAAAAAAAAAAAAAAAAAAA") ∧ second.map (·.records.length) = some 1 := by
  decide +kernel

end Zimbr.Relay
