import Zimbr.Relay.Acceptance

set_option autoImplicit false

/-!
# Event streams

A stream replays the log batch by batch from its position; between two polls
the journal may commit, prune or reset.
-/
namespace Zimbr.Relay
open Library

structure EventStream where
  start : Bytes
  sequence : Nat
  identities : Bool
  heartbeat : Int
  observed : Option Nat := none
  checkAt : Int := 0
  deriving DecidableEq, Repr

/-- `GET /v1/events`: `streams` are open already. -/
def openEvents (now : Int) (streams : Nat) (start : Bytes) (identities : Bool) : Tx EventStream := do
  Sql.require (streams < 8) .tooManyStreams
  let seq ← checkCursor start
  return { start := start, sequence := seq, identities := identities, heartbeat := now }

structure Batch where
  stream : EventStream
  frames : List Frame := []
  heartbeat : Bool := false
  deriving DecidableEq, Repr

/-- Nothing was committed since the last poll, and no recheck is due. -/
def EventStream.waits (s : EventStream) (now : Int) (changed : Nat) : Bool :=
  s.observed = some changed && now < s.checkAt

/-- Produces one journal batch after the previous batch has drained. -/
def pollEvents (enc : Encoding) (now : Int) (changed : Nat) (s : EventStream) : Tx Batch :=
  if s.waits now changed then return { stream := s }
  else do
    let epoch ← Sql.query (·.epoch)
    Sql.require (epoch.isPrefixOf s.start) .invalidRequest
    let _ ← checkCursor (cursor epoch s.sequence)
    let frames ← eventsWithIdentities enc s.sequence s.identities
    let beats : Bool := 15000 ≤ now - s.heartbeat
    return {
      stream := { s with
        sequence := frames.foldl (fun _ frame => frame.sequence) s.sequence
        heartbeat := if beats then now else s.heartbeat
        observed := if frames = [] then some changed else none
        checkAt := now + 1000 }
      frames := frames
      heartbeat := beats }

section Batches

variable {j : Journal}

def frameOf (epoch : Bytes) (identities : Bool) (e : Event) : Frame where
  sequence := e.sequence
  frame :=
    if !identities && e.record.kind = .identity then none
    else some { cursor := cursor epoch e.sequence, event := e }

theorem frames_prefix (enc : Encoding) (epoch : Bytes) (identities : Bool) (bytes : Nat) (items : List Frame)
    (rows : List Event) :
    ∃ k, frames enc epoch identities bytes items rows =
        items ++ (rows.take k).map (frameOf epoch identities) ∧
      k ≤ rows.length ∧ (items = [] → rows ≠ [] → 0 < k) := by
  induction rows generalizing bytes items with
  | nil => exact ⟨0, by simp [frames], Nat.le_refl 0, fun _ h => absurd rfl h⟩
  | cons e rest ih =>
    have hnext {bytes' : Nat} {f : Frame} (hf : f = frameOf epoch identities e) :
        ∃ k, frames enc epoch identities bytes' (items ++ [f]) rest =
            items ++ ((e :: rest).take k).map (frameOf epoch identities) ∧
          k ≤ (e :: rest).length ∧ (items = [] → e :: rest ≠ [] → 0 < k) := by
      obtain ⟨k, hk, hle, -⟩ := ih bytes' (items ++ [f])
      refine ⟨k + 1, ?_, Nat.succ_le_succ hle, fun _ _ => Nat.succ_pos k⟩
      rw [hk, hf, List.append_assoc, List.take_succ_cons, List.map_cons, List.singleton_append]
    unfold frames
    split_ifs with hskip hcut
    · exact hnext (by rw [frameOf, if_pos hskip])
    · refine ⟨0, by simp, Nat.zero_le _, fun hnil => ?_⟩
      simp [hnil] at hcut
    · exact hnext (by rw [frameOf, if_neg hskip])

theorem replayRows_eq (h : Logged j) {after : Nat} (hafter : j.prunedThrough ≤ after) :
    replayRows j after = (j.log.drop after).take batchRows := by
  have hnumbered := h.numbered
  have hfirst : (ChangeLog.after Event.sequence j.log after).Pairwise
      fun a b => a.sequence ≤ b.sequence := by
    have hpair := hnumbered.increasing
    rw [List.pairwise_map] at hpair
    exact (hpair.imp Nat.le_of_lt).filter _
  let row (r : Nat × EventRow) : Event :=
    { sequence := r.1, record := r.2.record, origin := r.2.origin }
  let rows := j.events.select fun seq _ => decide (after < seq)
  have hmem (e : Event) : e ∈ rows.map row ↔ e ∈ ChangeLog.after Event.sequence j.log after := by
    rw [ChangeLog.mem_after, List.mem_map]
    constructor
    · rintro ⟨r, hr, rfl⟩
      obtain ⟨hrow, hlt⟩ := Table.get?_select.mp hr
      exact ⟨(h.retained r.1 r.2 hrow).2, of_decide_eq_true hlt⟩
    · rintro ⟨he, hlt⟩
      obtain ⟨r, hrow, hrecord, horigin⟩ := h.kept e he (Nat.lt_of_le_of_lt hafter hlt)
      refine ⟨(e.sequence, r), Table.get?_select.mpr ⟨hrow, decide_eq_true hlt⟩, ?_⟩
      change Event.mk e.sequence r.record r.origin = e
      rw [hrecord, horigin]
  have hnodup : (rows.map row).Nodup := by
    have hkeys : (rows.map Prod.fst).Nodup := Table.select_keys_nodup _ _
    apply List.Nodup.of_map Event.sequence
    rw [List.map_map]
    exact hkeys
  have hlogged : (ChangeLog.after Event.sequence j.log after).Nodup := by
    have hlog : j.log.Nodup := by
      apply List.Nodup.of_map Event.sequence
      rw [hnumbered]
      exact List.nodup_range'
    exact hlog.filter _
  have hsorted : ((rows.insertionSort fun a b => a.1 ≤ b.1).map row).Pairwise
      fun a b => a.sequence ≤ b.sequence := by
    rw [List.pairwise_map]
    have htotal : Std.Total fun a b : Nat × EventRow => a.1 ≤ b.1 := ⟨fun a b => Nat.le_total _ _⟩
    have htrans : IsTrans (Nat × EventRow) fun a b => a.1 ≤ b.1 := ⟨fun _ _ _ => Nat.le_trans⟩
    exact List.pairwise_insertionSort _ _
  have hperm : ((rows.insertionSort fun a b => a.1 ≤ b.1).map row).Perm
      (ChangeLog.after Event.sequence j.log after) :=
    ((List.perm_insertionSort _ _).map row).trans ((List.perm_ext_iff_of_nodup hnodup hlogged).mpr hmem)
  have heq := List.Perm.eq_of_pairwise (fun a b ha hb hab hba => by
    have ha' := (ChangeLog.mem_after.mp (hperm.mem_iff.mp ha)).1
    exact hnumbered.injective ha' (ChangeLog.mem_after.mp hb).1 (Nat.le_antisymm hab hba))
    hsorted hfirst hperm
  rw [hnumbered.after_eq_drop] at heq
  rw [← heq, ← List.map_take]
  rfl

end Batches

section Polls

variable {enc : Encoding} {j : Journal} {fresh : List Bytes} {now : Int} {changed : Nat}
  {s : EventStream} {c c' : Conn Journal Bytes}

theorem checkCursor_run {position : Bytes} :
    (checkCursor position).run ⟨j, [], fresh⟩ =
      (match parseCursor position j.epoch with
        | .error e => .error (Error.ofCursor e)
        | .ok seq =>
          if j.sequence < seq then .error .resyncRequired
          else if seq < j.prunedThrough then .error .cursorExpired
          else .ok seq, ⟨j, [], fresh⟩) := by
  cases hparse : parseCursor position j.epoch with
  | error e => simp [checkCursor, Sql.bind_run, hparse, Except.mapError]
  | ok seq =>
    by_cases hahead : seq ≤ j.sequence
    · by_cases hpruned : j.prunedThrough ≤ seq <;>
        simp [checkCursor, Sql.bind_run, hparse, Except.mapError, ← Nat.not_le, hahead, hpruned]
    · simp [checkCursor, Sql.bind_run, hparse, Except.mapError, ← Nat.not_le, hahead]

theorem checkCursor_ok {position : Bytes} {seq : Nat}
    (h : (checkCursor position).run c = (.ok seq, c')) :
    c'.db = c.db ∧ parseCursor position c.db.epoch = .ok seq ∧ seq ≤ c.db.sequence ∧
      c.db.prunedThrough ≤ seq := by
  have hcalm := Sql.run_calm h
  change (checkCursor position).run ⟨c.db, [], c.fresh⟩ = _ at hcalm
  rw [checkCursor_run, Prod.mk.injEq] at hcalm
  obtain ⟨hresult, hc'⟩ := hcalm
  refine ⟨(congrArg Conn.db hc').symm, ?_⟩
  split at hresult
  · simp at hresult
  · split_ifs at hresult with hahead hpruned
    rw [Except.ok.injEq] at hresult
    subst hresult
    exact ⟨by assumption, Nat.not_lt.mp hahead, Nat.not_lt.mp hpruned⟩

theorem checkCursor_position (hl : Logged j) (hepoch : validId j.epoch = true) {n : Nat}
    (hn : n ≤ j.sequence) :
    (checkCursor (cursor j.epoch n)).run ⟨j, [], fresh⟩ =
      (if n < j.prunedThrough then .error .cursorExpired else .ok n, ⟨j, [], fresh⟩) := by
  rw [checkCursor_run, parseCursor_cursor hepoch (Nat.le_trans hn hl.bounded)]
  dsimp only
  rw [if_neg (Nat.not_lt.mpr hn)]

theorem checkCursor_stale {epoch : Bytes} (hepoch : validId epoch = true) (hne : epoch ≠ j.epoch)
    (n : Nat) :
    (checkCursor (cursor epoch n)).run ⟨j, [], fresh⟩ = (.error .resyncRequired, ⟨j, [], fresh⟩) := by
  have htake : (cursor epoch n).take idLength = epoch := by
    rw [cursor, ← validId_length hepoch, List.take_left]
  have hparse : parseCursor (cursor epoch n) j.epoch = .error .resyncRequired := by
    simp [parseCursor, htake, hne]
  rw [checkCursor_run, hparse]
  rfl

/-- A poll after a reset, of a pruned position, and of any other position. -/
theorem pollEvents_run (hl : Logged j) (hepoch : validId j.epoch = true)
    (hwaits : s.waits now changed = false) :
    (j.epoch.isPrefixOf s.start = false →
      ((pollEvents enc now changed s).run ⟨j, [], fresh⟩).1 = .error .invalidRequest) ∧
    (j.epoch.isPrefixOf s.start = true → s.sequence ≤ j.sequence →
      (s.sequence < j.prunedThrough →
        ((pollEvents enc now changed s).run ⟨j, [], fresh⟩).1 = .error .cursorExpired) ∧
      (j.prunedThrough ≤ s.sequence →
        ∃ b, ((pollEvents enc now changed s).run ⟨j, [], fresh⟩).1 = .ok b)) := by
  refine ⟨fun hsame => ?_, fun hsame hle => ?_⟩
  · simp [pollEvents, hwaits, Sql.bind_run, hsame]
  · have hcheck : (checkCursor (cursor j.epoch s.sequence)).run ⟨j, [], fresh⟩ =
        (if s.sequence < j.prunedThrough then .error .cursorExpired else .ok s.sequence,
          ⟨j, [], fresh⟩) :=
      checkCursor_position hl hepoch hle
    refine ⟨fun hpruned => ?_, fun hpruned => ?_⟩
    · rw [if_pos hpruned] at hcheck
      simp [pollEvents, hwaits, Sql.bind_run, hsame, hcheck]
    · rw [if_neg (Nat.not_lt.mpr hpruned)] at hcheck
      simp [pollEvents, eventsWithIdentities, hwaits, Sql.bind_run, hsame, hcheck]

/-- A batch delivers the next events of the log, and all of what it scans is
behind its new position. -/
theorem pollEvents_ok {b : Batch} (hl : Logged c.db) (hepoch : validId c.db.epoch = true)
    (hwaits : s.waits now changed = false) (hs : s.sequence ≤ maxInt)
    (h : (pollEvents enc now changed s).run c = (.ok b, c')) :
    c.db.epoch.isPrefixOf s.start = true ∧ s.sequence ≤ c.db.sequence ∧
    b.stream.start = s.start ∧ b.stream.identities = s.identities ∧
    ∃ k, b.frames = ((c.db.log.drop s.sequence).take k).map (frameOf c.db.epoch s.identities) ∧
      k ≤ (c.db.log.drop s.sequence).length ∧ (s.sequence < c.db.sequence → 0 < k) ∧
      b.stream.sequence = s.sequence + k := by
  unfold pollEvents at h
  rw [hwaits] at h
  obtain ⟨epoch, c₁, hquery, h⟩ := Sql.bind_ok h
  obtain ⟨rfl, hdb₁⟩ := Sql.query_ok hquery
  obtain ⟨_, c₂, hsame, h⟩ := Sql.bind_ok h
  obtain ⟨hsame, hc₂⟩ := Sql.require_ok hsame
  obtain ⟨seq, c₃, hcheck, h⟩ := Sql.bind_ok h
  obtain ⟨hdb₃, hparse, hle, hpruned⟩ := checkCursor_ok hcheck
  obtain ⟨frames', c₄, hframes, h⟩ := Sql.bind_ok h
  obtain ⟨hb, -⟩ := Sql.pure_ok h
  have hdb₃ : c₃.db = c.db := by rw [hdb₃, hc₂, hdb₁]
  rw [hc₂, hdb₁] at hparse hle hpruned
  rw [parseCursor_cursor hepoch hs, Except.ok.injEq] at hparse
  subst hparse
  unfold eventsWithIdentities at hframes
  obtain ⟨rows, c₅, hrows, hframes⟩ := Sql.bind_ok hframes
  obtain ⟨rfl, hdb₅⟩ := Sql.query_ok hrows
  obtain ⟨epoch, c₆, hquery', hframes⟩ := Sql.bind_ok hframes
  obtain ⟨rfl, -⟩ := Sql.query_ok hquery'
  obtain ⟨rfl, -⟩ := Sql.pure_ok hframes
  rw [hdb₅, hdb₃, replayRows_eq hl hpruned] at hb
  obtain ⟨k, hk, hkle, hkpos⟩ := frames_prefix enc c.db.epoch s.identities 0 []
    ((c.db.log.drop s.sequence).take batchRows)
  have hlength := hl.numbered.length
  rw [List.nil_append, List.take_take] at hk
  rw [List.length_take] at hkle
  rw [Nat.min_eq_left (by omega)] at hk
  refine ⟨hsame, hle, by rw [hb], by rw [hb], k, by rw [hb]; exact hk, by omega, ?_, ?_⟩
  · intro hlt
    apply hkpos rfl
    apply List.ne_nil_of_length_pos
    rw [List.length_take, List.length_drop, batchRows]
    omega
  · rw [hb]
    dsimp only
    rw [hk]
    cases k with
    | zero => rfl
    | succ k =>
      rw [List.length_drop] at hkle
      have hi : s.sequence + k < c.db.log.length := by omega
      have hget : (c.db.log.drop s.sequence)[k]? = some c.db.log[s.sequence + k] := by
        rw [List.getElem?_drop, List.getElem?_eq_getElem hi]
      rw [List.take_add_one, hget, Option.toList_some, List.map_append, List.map_singleton,
        List.foldl_append]
      have hseq := hl.numbered.seq_get (List.getElem?_eq_getElem hi)
      change c.db.log[s.sequence + k].sequence = _
      omega

end Polls

section Growth

variable {scope : Scope} {j j' : Journal}

theorem Change.grows (h : Change scope j j') (hfresh : scope.fresh = []) :
    j'.epoch = j.epoch ∧ j.log <+: j'.log := by
  have hpublished {r : Record} (h : Published j r j') : j'.epoch = j.epoch ∧ j.log <+: j'.log := by
    obtain ⟨origin, hlog, -⟩ := h.log
    exact ⟨h.epoch, hlog ▸ List.prefix_append _ _⟩
  cases h with
  | quiet _ silent => exact ⟨silent.epoch, silent.log ▸ List.prefix_refl _⟩
  | published r _ _ published => exact hpublished published
  | request v row found _ _ _ updated => exact hpublished (updated.published (by rw [found]; rfl))
  | accepted input owner v h => exact hpublished h.published
  | pruned cut h =>
    rw [h.effect]
    exact ⟨rfl, List.prefix_refl _⟩
  | ledger _ h =>
    obtain ⟨uploads, rfl⟩ := h.only
    exact ⟨rfl, List.prefix_refl _⟩
  | reset _ drawn _ => exact absurd (hfresh ▸ drawn) List.not_mem_nil

theorem Changed.grows (h : Changed scope j j') (hfresh : scope.fresh = []) :
    j'.epoch = j.epoch ∧ j.log <+: j'.log := by
  induction h with
  | refl => exact ⟨rfl, List.prefix_refl _⟩
  | tail _ h ih =>
    obtain ⟨hepoch, hlog⟩ := h.grows hfresh
    exact ⟨hepoch.trans ih.1, ih.2.trans hlog⟩

end Growth

/-- A stream and the relay it is open at. A crash or an error ends it; the
reader then opens another one from its position. -/
structure Subscription where
  process : Process
  stream : EventStream
  ended : Option Error := none
  received : List Delivery := []
  /-- Ghost: the epoch the stream was opened in, and that epoch's log. -/
  epoch : Bytes
  history : List Event

inductive StreamAction where
  | relay (a : Action)
  | poll (env : Env) (changed : Nat)

namespace Subscription

/-- The stream that `openEvents` opens. -/
def «open» (p : Process) (env : Env) (streams : Nat) (start : Bytes) (identities : Bool) :
    Option Subscription :=
  match ((openEvents env.now streams start identities).run (p.conn env)).1 with
  | .ok stream =>
    some { process := p, stream := stream, epoch := p.journal.epoch, history := p.journal.log }
  | .error _ => none

def relayed (enc : Encoding) (s : Subscription) (a : Action) : Subscription :=
  let p := s.process.step enc a
  { s with
    process := p
    history := if p.journal.epoch = s.epoch then p.journal.log else s.history }

def polled (enc : Encoding) (s : Subscription) (env : Env) (changed : Nat) : Subscription :=
  match ((pollEvents enc env.now changed s.stream).run (s.process.conn env)).1 with
  | .ok batch =>
    { s with
      stream := batch.stream
      received := s.received ++ batch.frames.filterMap fun frame => frame.frame }
  | .error e => { s with ended := some e }

def step (enc : Encoding) (s : Subscription) : StreamAction → Subscription
  | .relay a => s.relayed enc a
  | .poll env changed =>
    if s.ended = none ∧ s.process.running = true then s.polled enc env changed else s

end Subscription

/-- One stream of the relay, polled between any of the relay's actions. -/
def subscription (enc : Encoding) : Machine Subscription StreamAction Delivery where
  step := Subscription.step enc
  out s a := ((s.step enc a).received).drop s.received.length

def negotiated (identities : Bool) (e : Event) : Bool := identities || e.record.kind != .identity

def deliver (epoch : Bytes) (e : Event) : Delivery where
  cursor := cursor epoch e.sequence
  event := e

/-- What a stream of `epoch` from `first` has to deliver up to `position`. -/
def deliveries (epoch : Bytes) (identities : Bool) (log : List Event) (first position : Nat) :
    List Delivery :=
  (((log.take position).drop first).filter (negotiated identities)).map (deliver epoch)

theorem filterMap_frames (epoch : Bytes) (identities : Bool) (rows : List Event) :
    (rows.map (frameOf epoch identities)).filterMap (fun frame => frame.frame) =
      (rows.filter (negotiated identities)).map (deliver epoch) := by
  induction rows with
  | nil => rfl
  | cons e rest ih =>
    rw [List.map_cons, List.filterMap_cons, ih, List.filter_cons]
    cases identities with
    | true => rfl
    | false =>
      by_cases hkind : e.record.kind = .identity <;> simp [frameOf, negotiated, hkind, deliver]

/-- A stream opened at `first` and never ahead of its log. -/
structure Following (identities : Bool) (first : Nat) (s : Subscription) : Prop where
  valid : s.process.Valid
  coherent : Coherent s.process.journal
  issued : s.epoch ∈ s.process.issued
  canonical : validId s.epoch = true
  other : validId s.process.journal.epoch = true
  start : s.stream.start.take idLength = s.epoch
  negotiates : s.stream.identities = identities
  lower : first ≤ s.stream.sequence
  upper : s.stream.sequence ≤ s.history.length
  numbered : ChangeLog.Numbered Event.sequence s.history s.history.length
  current : s.process.journal.epoch = s.epoch → s.history = s.process.journal.log
  received : s.received = deliveries s.epoch identities s.history first s.stream.sequence

section Steps

variable {enc : Encoding} {identities : Bool} {first : Nat} {s : Subscription}

theorem Following.prefix_iff (h : Following identities first s) :
    s.process.journal.epoch.isPrefixOf s.stream.start = true ↔
      s.process.journal.epoch = s.epoch := by
  have hlength := validId_length h.other
  rw [List.isPrefixOf_iff_prefix, ← h.start]
  constructor
  · intro hsame
    rw [List.prefix_iff_eq_take, hlength] at hsame
    exact hsame
  · intro heq
    rw [heq]
    exact List.take_prefix _ _

theorem Following.relay (h : Following identities first s) (a : Action) :
    Following identities first (s.relayed enc a) := by
  obtain ⟨hstep, hissued⟩ := @Process.Valid.step_epoch enc s.process h.valid a
  obtain ⟨hvalid, hstepped⟩ := @Process.Valid.step enc s.process h.valid a
  have hcoherent := hstepped.changed.coherent h.coherent
  rcases hstep with hchanged | ⟨epoch, middle, hreset, hchanged, hcanonical, hnew, -⟩
  · obtain ⟨hepoch, hlog⟩ := hchanged.grows rfl
    by_cases hcurrent : s.process.journal.epoch = s.epoch
    · have hhistory : (s.relayed enc a).history = (s.process.step enc a).journal.log :=
        if_pos (hepoch.trans hcurrent)
      have hnumbered := hcoherent.logged.numbered
      have hlength : s.history.length ≤ (s.process.step enc a).journal.log.length := by
        rw [h.current hcurrent]
        exact hlog.length_le
      refine ⟨hvalid, hcoherent, hissued _ h.issued, h.canonical, ?_, h.start, h.negotiates,
        h.lower, ?_, ?_, fun _ => hhistory, ?_⟩
      · exact hepoch ▸ h.other
      · rw [hhistory]
        exact Nat.le_trans h.upper hlength
      · rw [hhistory, hnumbered.length]
        exact hnumbered
      · change s.received = _
        rw [h.received, hhistory]
        obtain ⟨tail, htail⟩ := hlog
        have hupper := h.upper
        rw [h.current hcurrent] at hupper ⊢
        unfold deliveries
        change _ = ((List.drop first (List.take s.stream.sequence _)).filter _).map _
        rw [← htail, List.take_append_of_le_length hupper]
        rfl
    · have hhistory : (s.relayed enc a).history = s.history :=
        if_neg fun heq => hcurrent (hepoch.symm.trans heq)
      refine ⟨hvalid, hcoherent, hissued _ h.issued, h.canonical, hepoch ▸ h.other, h.start,
        h.negotiates, h.lower, hhistory ▸ h.upper, hhistory ▸ h.numbered, fun heq => ?_, ?_⟩
      · exact absurd (hepoch.symm.trans heq) hcurrent
      · rw [hhistory]
        exact h.received
  · have hepoch : (s.process.step enc a).journal.epoch = epoch :=
      (hchanged.grows rfl).1.trans hreset.epoch
    have hne : epoch ≠ s.epoch := fun heq => hnew (heq ▸ h.issued)
    have hhistory : (s.relayed enc a).history = s.history :=
      if_neg fun heq => hne (hepoch.symm.trans heq)
    refine ⟨hvalid, hcoherent, hissued _ h.issued, h.canonical, hepoch ▸ hcanonical, h.start,
      h.negotiates, h.lower, hhistory ▸ h.upper, hhistory ▸ h.numbered, fun heq => ?_, ?_⟩
    · exact absurd (hepoch.symm.trans heq) hne
    · rw [hhistory]
      exact h.received

theorem deliveries_append {log : List Event} {epoch : Bytes} {position k : Nat}
    (hfirst : first ≤ position) (hposition : position ≤ log.length) :
    deliveries epoch identities log first (position + k) =
      deliveries epoch identities log first position ++
        (((log.drop position).take k).filter (negotiated identities)).map (deliver epoch) := by
  unfold deliveries
  have hsplit : (log.take (position + k)).drop first =
      (log.take position).drop first ++ (log.drop position).take k := by
    have hlength : first ≤ (log.take position).length := by
      rw [List.length_take]
      omega
    rw [List.take_add, List.drop_append_of_le_length hlength]
  rw [hsplit, List.filter_append, List.map_append]

theorem Following.bound (h : Following identities first s) (hcurrent : s.process.journal.epoch = s.epoch) :
    s.stream.sequence ≤ s.process.journal.sequence := by
  have hupper := h.upper
  rw [h.current hcurrent, h.coherent.logged.numbered.length] at hupper
  exact hupper

theorem Following.poll_run (h : Following identities first s) {env : Env} {changed : Nat}
    (hwaits : s.stream.waits env.now changed = false) {r : Except Error Batch}
    (hr : ((pollEvents enc env.now changed s.stream).run (s.process.conn env).calm).1 = r) :
    (s.process.journal.epoch ≠ s.epoch → r = .error .invalidRequest) ∧
    (s.process.journal.epoch = s.epoch →
      (s.stream.sequence < s.process.journal.prunedThrough → r = .error .cursorExpired) ∧
      (s.process.journal.prunedThrough ≤ s.stream.sequence → ∃ b, r = .ok b)) := by
  have hrun : ((pollEvents enc env.now changed s.stream).run
      ⟨s.process.journal, [], env.fresh⟩).1 = r := hr
  obtain ⟨hother, hserved⟩ := pollEvents_run h.coherent.logged h.other hwaits
  refine ⟨fun hne => ?_, fun hcurrent => ?_⟩
  · have hsame : s.process.journal.epoch.isPrefixOf s.stream.start = false := by
      rw [← Bool.not_eq_true, h.prefix_iff]
      exact hne
    rw [← hrun]
    exact hother hsame
  · obtain ⟨hexpired, hbatch⟩ := hserved (h.prefix_iff.mpr hcurrent) (h.bound hcurrent)
    refine ⟨fun hpruned => ?_, fun hpruned => ?_⟩
    · rw [← hrun]
      exact hexpired hpruned
    · rw [← hrun]
      exact hbatch hpruned

theorem Following.poll_batch (h : Following identities first s) {env : Env} {changed : Nat}
    {b : Batch} {c' : Conn Journal Bytes}
    (hrun : (pollEvents enc env.now changed s.stream).run (s.process.conn env) = (.ok b, c')) :
    Following identities first (s.polled enc env changed) ∧
      (s.stream.waits env.now changed = false → s.process.journal.epoch = s.epoch ∧
        (s.stream.sequence < s.process.journal.sequence →
          s.stream.sequence < (s.polled enc env changed).stream.sequence)) := by
  have hpolled : s.polled enc env changed = { s with
      stream := b.stream
      received := s.received ++ b.frames.filterMap fun frame => frame.frame } := by
    simp only [Subscription.polled, hrun]
  rw [hpolled]
  cases hwaits : s.stream.waits env.now changed with
  | true =>
    unfold pollEvents at hrun
    rw [hwaits, if_pos rfl] at hrun
    obtain ⟨rfl, -⟩ := Sql.pure_ok hrun
    refine ⟨⟨h.valid, h.coherent, h.issued, h.canonical, h.other, h.start, h.negotiates, h.lower,
      h.upper, h.numbered, h.current, ?_⟩, fun hfalse => nomatch hfalse⟩
    simp only [List.filterMap_nil, List.append_nil]
    exact h.received
  | false =>
    have hcurrent : s.process.journal.epoch = s.epoch := by
      by_contra hne
      have hcalm := Sql.run_calm hrun
      have herror := (h.poll_run hwaits (congrArg Prod.fst hcalm)).1 hne
      exact nomatch herror
    have hlog := h.current hcurrent
    have hbounded : s.stream.sequence ≤ maxInt :=
      Nat.le_trans (h.bound hcurrent) h.coherent.logged.bounded
    obtain ⟨-, hle, hstart, hidentities, k, hframes, hk, hprogress, hsequence⟩ :=
      pollEvents_ok (c := s.process.conn env) h.coherent.logged h.other hwaits hbounded hrun
    have hframes : b.frames =
        ((s.history.drop s.stream.sequence).take k).map (frameOf s.epoch identities) := by
      rw [hframes, hlog, ← hcurrent, ← h.negotiates]
      rfl
    have hk : k ≤ (s.history.drop s.stream.sequence).length := by
      rw [hlog]
      exact hk
    rw [List.length_drop] at hk
    have hupper := h.upper
    have hlower := h.lower
    refine ⟨⟨h.valid, h.coherent, h.issued, h.canonical, h.other, ?_, ?_, ?_, ?_, h.numbered,
      h.current, ?_⟩, fun _ => ⟨hcurrent, fun hlt => ?_⟩⟩
    · rw [hstart]
      exact h.start
    · rw [hidentities]
      exact h.negotiates
    · change first ≤ b.stream.sequence
      omega
    · change b.stream.sequence ≤ s.history.length
      omega
    · change s.received ++ _ = deliveries s.epoch identities s.history first b.stream.sequence
      rw [hsequence, deliveries_append hlower hupper, h.received, hframes, filterMap_frames]
    · have hpositive := hprogress hlt
      change s.stream.sequence < b.stream.sequence
      omega

theorem Following.poll (h : Following identities first s) (env : Env) (changed : Nat) :
    Following identities first (s.polled enc env changed) := by
  rcases hrun : (pollEvents enc env.now changed s.stream).run (s.process.conn env) with ⟨e | b, c'⟩
  · have hended : s.polled enc env changed = { s with ended := some e } := by
      simp only [Subscription.polled, hrun]
    rw [hended]
    exact ⟨h.valid, h.coherent, h.issued, h.canonical, h.other, h.start, h.negotiates, h.lower,
      h.upper, h.numbered, h.current, h.received⟩
  · exact (h.poll_batch hrun).1

theorem Following.step (h : Following identities first s) (a : StreamAction) :
    Following identities first (s.step enc a) := by
  cases a with
  | relay a => exact h.relay a
  | poll env changed =>
    simp only [Subscription.step]
    split_ifs
    · exact h.poll env changed
    · exact h

theorem Following.poll_result (h : Following identities first s) (env : Env) (changed : Nat)
    (hwaits : s.stream.waits env.now changed = false) (hopen : s.ended = none) :
    let s' := s.polled enc env changed
    s'.ended = some .databaseFailure ∨
    (s.process.journal.epoch ≠ s.epoch ∧ s'.ended = some .invalidRequest) ∨
    (s.process.journal.epoch = s.epoch ∧
      s.stream.sequence < s.process.journal.prunedThrough ∧ s'.ended = some .cursorExpired) ∨
    (s.process.journal.epoch = s.epoch ∧
      s.process.journal.prunedThrough ≤ s.stream.sequence ∧ s'.ended = none ∧
      (s.stream.sequence < s.process.journal.sequence →
        s.stream.sequence < s'.stream.sequence)) := by
  intro s'
  rcases hrun : (pollEvents enc env.now changed s.stream).run (s.process.conn env) with ⟨e | b, c'⟩
  · have hended : s'.ended = some e := by
      simp only [s', Subscription.polled, hrun]
    rw [hended]
    rcases Sql.error_calm hrun with he | he
    · exact Or.inl (congrArg some he)
    · obtain ⟨hother, hserved⟩ := h.poll_run hwaits he
      by_cases hcurrent : s.process.journal.epoch = s.epoch
      · rcases Nat.lt_or_ge s.stream.sequence s.process.journal.prunedThrough with hlt | hle
        · have hexpired := (hserved hcurrent).1 hlt
          rw [Except.error.injEq] at hexpired
          exact Or.inr (Or.inr (Or.inl ⟨hcurrent, hlt, congrArg some hexpired⟩))
        · obtain ⟨b, hb⟩ := (hserved hcurrent).2 hle
          exact nomatch hb
      · have hinvalid := hother hcurrent
        rw [Except.error.injEq] at hinvalid
        exact Or.inr (Or.inl ⟨hcurrent, congrArg some hinvalid⟩)
  · obtain ⟨hcurrent, hprogress⟩ := (h.poll_batch hrun).2 hwaits
    have hopen' : s'.ended = none := by
      simp only [s', Subscription.polled, hrun]
      exact hopen
    refine Or.inr (Or.inr (Or.inr ⟨hcurrent, ?_, hopen', hprogress⟩))
    by_contra hpruned
    have hcalm := Sql.run_calm hrun
    have herror := ((h.poll_run hwaits (congrArg Prod.fst hcalm)).2 hcurrent).1
      (Nat.not_le.mp hpruned)
    exact nomatch herror

end Steps

theorem Subscription.step_epoch {enc : Encoding} (s : Subscription) (a : StreamAction) :
    (s.step enc a).epoch = s.epoch := by
  cases a with
  | relay a => rfl
  | poll env changed =>
    simp only [Subscription.step, Subscription.polled]
    split_ifs
    · split <;> rfl
    · rfl

theorem run_issued {enc : Encoding} {p : Process} (h : p.Valid)
    (hissued : p.journal.epoch ∈ p.issued) (actions : List Action) :
    ((relay enc).run p actions).journal.epoch ∈ ((relay enc).run p actions).issued := by
  refine ((relay enc).run_invariant (I := fun q => q.Valid ∧ q.journal.epoch ∈ q.issued)
    (fun q a hq => ⟨(hq.1.step a).1, ?_⟩) p actions ⟨h, hissued⟩).2
  obtain ⟨hstep, hkept⟩ := @Process.Valid.step_epoch enc q hq.1 a
  change (q.step enc a).journal.epoch ∈ (q.step enc a).issued
  rcases hstep with hchanged | ⟨epoch, middle, hreset, hchanged, -, -, hdrawn, -⟩
  · rw [(hchanged.grows rfl).1]
    exact hkept _ hq.2
  · rw [(hchanged.grows rfl).1, hreset.epoch]
    exact hdrawn

theorem openEvents_ok {now : Int} {streams : Nat} {start : Bytes} {identities : Bool}
    {stream : EventStream} {c c' : Conn Journal Bytes}
    (h : (openEvents now streams start identities).run c = (.ok stream, c')) :
    stream.start = start ∧ stream.identities = identities ∧
      parseCursor start c.db.epoch = .ok stream.sequence ∧ stream.sequence ≤ c.db.sequence := by
  obtain ⟨_, c₁, hrequire, h⟩ := Sql.bind_ok h
  obtain ⟨-, hc₁⟩ := Sql.require_ok hrequire
  obtain ⟨seq, c₂, hcheck, h⟩ := Sql.bind_ok h
  obtain ⟨hstream, -⟩ := Sql.pure_ok h
  obtain ⟨-, hparse, hle, -⟩ := checkCursor_ok hcheck
  rw [hc₁] at hparse hle
  rw [hstream]
  exact ⟨rfl, rfl, hparse, hle⟩

/-- An opened stream follows its epoch from the position of its cursor. -/
theorem open_following {p : Process} {env : Env} {streams : Nat} {start : Bytes}
    {identities : Bool} {s : Subscription} (h : p.Valid) (hc : Coherent p.journal)
    (hissued : p.journal.epoch ∈ p.issued)
    (hopen : Subscription.open p env streams start identities = some s) :
    Following identities s.stream.sequence s ∧ s.ended = none ∧ s.epoch = p.journal.epoch ∧
      parseCursor start p.journal.epoch = .ok s.stream.sequence := by
  unfold Subscription.open at hopen
  rcases hrun : (openEvents env.now streams start identities).run (p.conn env) with
    ⟨e | stream, c'⟩
  · simp [hrun] at hopen
  · simp only [hrun, Option.some.injEq] at hopen
    obtain ⟨hstart, hidentities, hparse, hle⟩ := openEvents_ok hrun
    obtain ⟨htake, hcanonical⟩ := parseCursor_epoch hparse
    have hnumbered := hc.logged.numbered
    rw [← hopen]
    refine ⟨⟨h, hc, hissued, hcanonical, hcanonical, ?_, hidentities, Nat.le_refl _, ?_, ?_,
      fun _ => rfl, ?_⟩, rfl, rfl, hparse⟩
    · rw [hstart]
      exact htake
    · change stream.sequence ≤ p.journal.log.length
      rw [hnumbered.length]
      exact hle
    · change ChangeLog.Numbered Event.sequence p.journal.log p.journal.log.length
      rw [hnumbered.length]
      exact hnumbered
    · simp [deliveries, List.drop_eq_nil_of_le]

/-- Whatever the relay does between the polls, a stream delivers the events of
its epoch after its cursor in order and without a gap, up to its position. A due
poll advances while events are left, unless its position was pruned or the
epoch changed; then it ends the stream, and a cursor of the old epoch has to
resync. -/
theorem replay_without_gap (enc : Encoding) {p : Process} (initial : p.Initial)
    (before : List Action) (env : Env) (streams : Nat) (start : Bytes) (identities : Bool)
    {opened : Subscription}
    (hopen : Subscription.open ((relay enc).run p before) env streams start identities =
      some opened) (actions : List StreamAction) :
    let first := opened.stream.sequence
    let s := (subscription enc).run opened actions
    let j := s.process.journal
    s.epoch = opened.epoch ∧ parseCursor start opened.epoch = .ok first ∧
    s.history.map Event.sequence = List.range' 1 s.history.length ∧
    (j.epoch = s.epoch → s.history = j.log) ∧
    s.received = ((s.history.filter fun e => first < e.sequence && e.sequence ≤ s.stream.sequence).filter
      (negotiated identities)).map (deliver s.epoch) ∧
    s.stream.sequence ≤ s.history.length ∧
    (∀ env changed, s.ended = none → s.process.running = true →
      s.stream.waits env.now changed = false →
      let s' := (subscription enc).step s (.poll env changed)
      s'.ended = some .databaseFailure ∨
      (j.epoch ≠ s.epoch ∧ s'.ended = some .invalidRequest) ∨
      (j.epoch = s.epoch ∧ s.stream.sequence < j.prunedThrough ∧ s'.ended = some .cursorExpired) ∨
      (j.epoch = s.epoch ∧ j.prunedThrough ≤ s.stream.sequence ∧ s'.ended = none ∧
        (s.stream.sequence < j.sequence → s.stream.sequence < s'.stream.sequence))) ∧
    (j.epoch ≠ s.epoch → ∀ (env : Env) n,
      ((checkCursor (cursor s.epoch n)).run (s.process.conn env)).1 = .error .resyncRequired ∨
        ((checkCursor (cursor s.epoch n)).run (s.process.conn env)).1 = .error .databaseFailure) := by
  intro first s j
  have hvalid := @run_valid enc p initial.valid before
  obtain ⟨hopened, hended, hepoch, hparse⟩ := open_following hvalid
    (run_coherent initial.valid initial.inherited.coherent before)
    (run_issued initial.valid initial.issued before) hopen
  have h : Following identities first s :=
    (subscription enc).run_invariant (fun _ a hs => hs.step a) opened actions hopened
  have hsame : s.epoch = opened.epoch :=
    (subscription enc).run_invariant (I := fun q => q.epoch = opened.epoch)
      (fun q a hq => (q.step_epoch a).trans hq) opened actions rfl
  refine ⟨hsame, hepoch ▸ hparse, h.numbered, h.current, ?_, h.upper, ?_, ?_⟩
  · rw [h.received, deliveries, ← h.numbered.between_eq]
  · intro env changed hlive hrunning hwaits
    have hstep : (subscription enc).step s (.poll env changed) = s.polled enc env changed :=
      if_pos ⟨hlive, hrunning⟩
    rw [hstep]
    exact h.poll_result env changed hwaits hlive
  · intro hne env n
    have hcalm : (checkCursor (cursor s.epoch n)).run (s.process.conn env).calm =
        (.error .resyncRequired, (s.process.conn env).calm) :=
      checkCursor_stale h.canonical (Ne.symm hne) n
    rcases hrun : (checkCursor (cursor s.epoch n)).run (s.process.conn env) with ⟨e | seq, c'⟩
    · rcases Sql.error_calm hrun with he | he
      · exact Or.inr (congrArg Except.error he)
      · rw [hcalm] at he
        exact Or.inl he.symm
    · have hsame := Sql.run_calm hrun
      rw [hcalm] at hsame
      exact nomatch (congrArg Prod.fst hsame)

namespace Sample

def openHello : Option Subscription :=
  Subscription.open ((relay encoding).run (.new epoch) markHello) { now := 3 } 0 (cursor epoch 1) true

end Sample

/-- A stream that finds another epoch ends with neither of the two errors. -/
theorem replay_without_gap_reset :
    Sample.openHello.map (fun s => ((subscription Sample.encoding).run s
      [.relay Sample.resetHello, .poll { now := 4 } 0]).ended) = some (some .invalidRequest) := by
  decide +kernel

theorem replay_without_gap_hello :
    ∃ opened, Sample.openHello = some opened ∧
      let s := (subscription Sample.encoding).run opened [.poll { now := 4 } 0]
      s.received.length = 1 ∧ s.received =
        ((s.history.filter fun e => opened.stream.sequence < e.sequence &&
          e.sequence ≤ s.stream.sequence).filter (negotiated true)).map (deliver s.epoch) := by
  have hreceived : Sample.openHello.map (fun s => ((subscription Sample.encoding).run s
      [.poll { now := 4 } 0]).received.length) = some 1 := by
    decide +kernel
  obtain ⟨opened, hopen, hlength⟩ := Option.map_eq_some_iff.mp hreceived
  exact ⟨opened, hopen, hlength, (replay_without_gap Sample.encoding
    (Process.new_initial Sample.epoch) Sample.markHello _ _ _ _ hopen _).2.2.2.2.1⟩

end Zimbr.Relay
