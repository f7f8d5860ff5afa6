import Zimbr.Client.SendingRules

set_option autoImplicit false

/-!
# A message is submitted once

The stage of a send is durable before its submission can leave, and nothing takes
a send that was submitted back to a stage from which it would be submitted again.
-/
namespace Zimbr.Client
open Library

/-- The send was saved as it is handed over, and is marked as submitted or was answered. -/
def Started.Durable (r : Started) (input : SendInput) : Prop :=
  ∃ row, r.saved = some row ∧ row.payload = input ∧ (row.state = .sending ∨ row.record.isSome = true)

def OnlyLookedUp (a b : Started) : Prop :=
  ∀ input, a.request = .submit input → b.request.id = input.requestId →
    b.request = .lookup input.requestId

def Submitted (started : List Started) (id : Bytes) : Prop :=
  ∃ r ∈ started, ∃ input, r.request = .submit input ∧ input.requestId = id

/-- The lane carries a saved send with files, and none that was submitted while it
may still submit. -/
structure Lane.Sound (lane : Lane) (s : Store) (started : List Started) : Prop where
  saved : ∃ row, s.outbox.get? lane.input.requestId = some row ∧ row.payload = lane.input
  files : lane.input.attachments ≠ []
  phase : lane.phase = .reserve ∨ lane.phase = .transfer → lane.maySubmit = true
  unsent : lane.maySubmit = true → ¬Submitted started lane.input.requestId

structure Outbound (issued : List Bytes) (s : Store) (started : List Started)
    (lane : Option Lane) : Prop where
  rows : ∀ id row, s.outbox.get? id = some row → row.payload.requestId = id ∧ id ∈ issued
  handed : ∀ r ∈ started, r.request.id ∈ issued
  durable : ∀ r ∈ started, ∀ input, r.request = .submit input → r.Durable input
  past : ∀ id row, Submitted started id → s.outbox.get? id = some row →
    row.record.isSome = true ∨ row.state ≠ .uploading
  quiet : started.Pairwise OnlyLookedUp
  lane : ∀ l, lane = some l → l.Sound s started

section Submitted

variable {started : List Started} {r : Started} {id : Bytes}

theorem submitted_append : Submitted (started ++ [r]) id ↔
    Submitted started id ∨ ∃ input, r.request = .submit input ∧ input.requestId = id := by
  unfold Submitted
  constructor
  · rintro ⟨a, ha, hsubmit⟩
    rcases List.mem_append.mp ha with ha | ha
    · exact Or.inl ⟨a, ha, hsubmit⟩
    · rw [List.mem_singleton.mp ha] at hsubmit
      exact Or.inr hsubmit
  · rintro (⟨a, ha, hsubmit⟩ | hsubmit)
    · exact ⟨a, List.mem_append_left _ ha, hsubmit⟩
    · exact ⟨r, List.mem_append_right _ (List.mem_singleton_self r), hsubmit⟩

theorem submitted_append_other (h : ∀ input, r.request ≠ .submit input) :
    Submitted (started ++ [r]) id ↔ Submitted started id := by
  rw [submitted_append, or_iff_left_iff_imp]
  rintro ⟨input, hinput, -⟩
  exact absurd hinput (h input)

end Submitted

namespace Outbound

variable {issued : List Bytes} {s s' : Store} {started : List Started} {lane : Option Lane}
  {id : Bytes}

theorem continues (h : Outbound issued s started lane) (hs : Continues s s') :
    Outbound issued s' started lane where
  rows := fun id row' hrow' => by
    cases hrow : s.outbox.get? id with
    | none =>
      rw [hs.none_new id hrow] at hrow'
      cases hrow'
    | some row =>
      obtain ⟨row₁, hrow₁, hfollows⟩ := hs.kept id row hrow
      rw [hrow'] at hrow₁
      rw [Option.some.inj hrow₁, hfollows.payload]
      exact h.rows id row hrow
  handed := h.handed
  durable := h.durable
  past := fun id row' hsubmitted hrow' => by
    cases hrow : s.outbox.get? id with
    | none =>
      rw [hs.none_new id hrow] at hrow'
      cases hrow'
    | some row =>
      obtain ⟨row₁, hrow₁, hfollows⟩ := hs.kept id row hrow
      rw [hrow'] at hrow₁
      rw [Option.some.inj hrow₁]
      rcases hfollows.stage with hrecord | hstate | hstate
      · exact Or.inl hrecord
      · rw [hstate]
        exact (h.past id row hsubmitted hrow).imp hfollows.answered fun hstate => hstate
      · rw [hstate]
        exact Or.inr (by decide)
  quiet := h.quiet
  lane := fun l hl => by
    have hsound := h.lane l hl
    obtain ⟨row, hrow, hpayload⟩ := hsound.saved
    obtain ⟨row', hrow', hfollows⟩ := hs.kept _ row hrow
    exact ⟨⟨row', hrow', hfollows.payload.trans hpayload⟩, hsound.files, hsound.phase, hsound.unsent⟩

theorem closed (h : Outbound issued s started lane) : Outbound issued s started none :=
  { h with lane := fun l hl => by cases hl }

theorem onward (h : Outbound issued s started lane) {l l' : Lane} (hl : lane = some l)
    (hinput : l'.input = l.input)
    (hphase : l'.phase = .reserve ∨ l'.phase = .transfer → l'.maySubmit = true)
    (hmay : l'.maySubmit = true → l.maySubmit = true) : Outbound issued s started (some l') := by
  have hsound := h.lane l hl
  refine ⟨h.rows, h.handed, h.durable, h.past, h.quiet, fun l₁ hl₁ => ?_⟩
  rw [← Option.some.inj hl₁]
  refine ⟨?_, ?_, hphase, fun hl' => ?_⟩
  · rw [hinput]
    exact hsound.saved
  · rw [hinput]
    exact hsound.files
  · rw [hinput]
    exact hsound.unsent (hmay hl')

theorem outcome (h : Outbound issued s started lane) {state : OutboxState} {detail : String}
    (hstate : state ≠ .uploading ∨ ¬Submitted started id) :
    Outbound issued { s with
      outbox := s.outbox.modifyWhere (fun k r => k = id && r.record.isNone)
        fun r => { r with state := state, detail := detail } } started lane := by
  have hget (k : Bytes) (row' : OutboxRow) (hrow' : (s.outbox.modifyWhere
      (fun k r => k = id && r.record.isNone)
      fun r => { r with state := state, detail := detail }).get? k = some row') :
      ∃ row, s.outbox.get? k = some row ∧ row'.payload = row.payload ∧ row'.record = row.record ∧
        (row'.state = row.state ∨ (k = id ∧ row'.state = state)) := by
    rw [Table.get?_modifyWhere] at hrow'
    obtain ⟨row, hrow, rfl⟩ := Option.map_eq_some_iff.mp hrow'
    refine ⟨row, hrow, ?_⟩
    split_ifs with hk
    · simp only [Bool.and_eq_true, decide_eq_true_eq] at hk
      exact ⟨rfl, rfl, Or.inr ⟨hk.1, rfl⟩⟩
    · exact ⟨rfl, rfl, Or.inl rfl⟩
  refine ⟨fun k row' hrow' => ?_, h.handed, h.durable, fun k row' hsubmitted hrow' => ?_, h.quiet,
    fun l hl => ?_⟩
  · obtain ⟨row, hrow, hpayload, -, -⟩ := hget k row' hrow'
    rw [hpayload]
    exact h.rows k row hrow
  · obtain ⟨row, hrow, -, hrecord, hsame | ⟨rfl, hnew⟩⟩ := hget k row' hrow'
    · rw [hrecord, hsame]
      exact h.past k row hsubmitted hrow
    · rw [hnew]
      exact Or.inr (hstate.resolve_right fun hnot => hnot hsubmitted)
  · have hsound := h.lane l hl
    obtain ⟨row, hrow, hpayload⟩ := hsound.saved
    refine ⟨?_, hsound.files, hsound.phase, hsound.unsent⟩
    rw [Table.get?_modifyWhere, hrow]
    refine ⟨_, rfl, ?_⟩
    dsimp only
    split_ifs <;> exact hpayload

theorem hand (h : Outbound issued s started lane) {r : Started} (hid : r.request.id ∈ issued)
    (hother : ∀ input, r.request ≠ .submit input) (hquiet : ∀ a ∈ started, OnlyLookedUp a r) :
    Outbound issued s (started ++ [r]) lane where
  rows := h.rows
  handed := fun a ha => by
    rcases List.mem_append.mp ha with ha | ha
    · exact h.handed a ha
    · rw [List.mem_singleton.mp ha]
      exact hid
  durable := fun a ha input hinput => by
    rcases List.mem_append.mp ha with ha | ha
    · exact h.durable a ha input hinput
    · rw [List.mem_singleton.mp ha] at hinput
      exact absurd hinput (hother input)
  past := fun id row hsubmitted => h.past id row ((submitted_append_other hother).mp hsubmitted)
  quiet := by
    rw [List.pairwise_append]
    refine ⟨h.quiet, List.pairwise_singleton _ _, fun a ha b hb => ?_⟩
    rw [List.mem_singleton.mp hb]
    exact hquiet a ha
  lane := fun l hl => by
    have hsound := h.lane l hl
    exact ⟨hsound.saved, hsound.files, hsound.phase, fun hmay hsubmitted =>
      hsound.unsent hmay ((submitted_append_other hother).mp hsubmitted)⟩

/-- A send that was not submitted yet and whose stage is durable is submitted. -/
theorem submit (h : Outbound issued s started lane) {input : SendInput} {row : OutboxRow}
    (hrow : s.outbox.get? input.requestId = some row) (hpayload : row.payload = input)
    (hstage : row.state = .sending ∨ row.record.isSome = true)
    (hunsent : ¬Submitted started input.requestId)
    (hlane : ∀ l, lane = some l → l.maySubmit = true → l.input.requestId ≠ input.requestId) :
    Outbound issued s (started ++ [{ request := .submit input, saved := some row }]) lane where
  rows := h.rows
  handed := fun a ha => by
    rcases List.mem_append.mp ha with ha | ha
    · exact h.handed a ha
    · rw [List.mem_singleton.mp ha]
      exact (h.rows _ row hrow).2
  durable := fun a ha other hother => by
    rcases List.mem_append.mp ha with ha | ha
    · exact h.durable a ha other hother
    · rw [List.mem_singleton.mp ha] at hother ⊢
      rw [← Request.submit.inj hother]
      exact ⟨row, rfl, hpayload, hstage⟩
  past := fun id row' hsubmitted hrow' => by
    rcases submitted_append.mp hsubmitted with hbefore | ⟨other, hother, rfl⟩
    · exact h.past id row' hbefore hrow'
    · rw [← Request.submit.inj hother, hrow] at hrow'
      rw [← Option.some.inj hrow']
      rcases hstage with hsending | hrecord
      · rw [hsending]
        exact Or.inr (by decide)
      · exact Or.inl hrecord
  quiet := by
    rw [List.pairwise_append]
    refine ⟨h.quiet, List.pairwise_singleton _ _, fun a ha b hb other hother hid => ?_⟩
    rw [List.mem_singleton.mp hb] at hid
    exact absurd ⟨a, ha, other, hother, hid.symm⟩ hunsent
  lane := fun l hl => by
    have hsound := h.lane l hl
    refine ⟨hsound.saved, hsound.files, hsound.phase, fun hmay hsubmitted => ?_⟩
    rcases submitted_append.mp hsubmitted with hbefore | ⟨other, hother, hid⟩
    · exact hsound.unsent hmay hbefore
    · rw [← Request.submit.inj hother] at hid
      exact hlane l hl hmay hid.symm

theorem quiet_lane (h : Outbound issued s started lane) {l : Lane} (hl : lane = some l)
    (hmay : l.maySubmit = true) {r : Started} (hid : r.request.id = l.input.requestId) :
    ∀ a ∈ started, OnlyLookedUp a r := by
  intro a ha input hinput hsame
  exact absurd ⟨a, ha, input, hinput, hsame.symm.trans hid⟩ ((h.lane l hl).unsent hmay)

theorem issue (h : Outbound issued s started lane) (fresh : List Bytes) :
    Outbound (fresh ++ issued) s started lane where
  rows := fun id row hrow => ⟨(h.rows id row hrow).1, List.mem_append_right _ (h.rows id row hrow).2⟩
  handed := fun r hr => List.mem_append_right _ (h.handed r hr)
  durable := h.durable
  past := h.past
  quiet := h.quiet
  lane := h.lane

theorem insert (h : Outbound issued s started lane) {input : SendInput} {row : OutboxRow}
    (hid : input.requestId ∈ issued) (hunseen : ¬Submitted started input.requestId)
    (hnew : row.New input) (hinsert : s.outbox.insert input.requestId row = some s'.outbox) :
    Outbound issued s' started lane where
  rows := fun id row' hrow' => by
    rw [Table.get?_insert hinsert] at hrow'
    split_ifs at hrow' with hsame
    · rw [← Option.some.inj hrow', hnew.payload, hsame]
      exact ⟨rfl, hid⟩
    · exact h.rows id row' hrow'
  handed := h.handed
  durable := h.durable
  past := fun id row' hsubmitted hrow' => by
    rw [Table.get?_insert hinsert] at hrow'
    split_ifs at hrow' with hsame
    · exact absurd (hsame ▸ hsubmitted) hunseen
    · exact h.past id row' hsubmitted hrow'
  quiet := h.quiet
  lane := fun l hl => by
    have hsound := h.lane l hl
    obtain ⟨row', hrow', hpayload⟩ := hsound.saved
    refine ⟨⟨row', ?_, hpayload⟩, hsound.files, hsound.phase, hsound.unsent⟩
    rw [Table.get?_insert hinsert, if_neg]
    · exact hrow'
    · intro hsame
      rw [hsame, Table.get?_of_insert hinsert] at hrow'
      cases hrow'

theorem expire (h : Outbound issued s started lane) (now : Int) :
    Outbound issued { s with outbox := s.outbox.deleteWhere fun _ r => r.expired now }
      started lane where
  rows := fun id row hrow => by
    rw [Table.get?_deleteWhere, Option.filter_eq_some_iff] at hrow
    exact h.rows id row hrow.1
  handed := h.handed
  durable := h.durable
  past := fun id row hsubmitted hrow => by
    rw [Table.get?_deleteWhere, Option.filter_eq_some_iff] at hrow
    exact h.past id row hsubmitted hrow.1
  quiet := h.quiet
  lane := fun l hl => by
    have hsound := h.lane l hl
    obtain ⟨row, hrow, hpayload⟩ := hsound.saved
    refine ⟨⟨row, ?_, hpayload⟩, hsound.files, hsound.phase, hsound.unsent⟩
    rw [Table.get?_deleteWhere, hrow, Option.filter_some, if_pos]
    simp [OutboxRow.expired, hpayload, hsound.files]

end Outbound

/-- What polling the lane keeps, whatever its outcome. -/
def Polling.Sound (issued : List Bytes) (p : Polling) : Prop :=
  Outbound issued p.store p.started (some p.lane)

namespace Lane

theorem init_ok {input : SendInput} {maySubmit : Bool} {lane : Lane}
    (h : init input maySubmit = .ok lane) :
    lane.input = input ∧ lane.maySubmit = maySubmit ∧ lane.phase = .lookup ∧
      lane.input.attachments ≠ [] := by
  unfold init at h
  cases hvalid : validate input with
  | error e =>
    rw [hvalid] at h
    cases h
  | ok _ =>
    cases hset : Attachments.validateSet input.attachments with
    | error e =>
      rw [hvalid, hset] at h
      cases h
    | ok _ =>
      rw [hvalid, hset] at h
      simp only [Except.mapError, bind, Except.bind] at h
      cases htotal : total input.attachments with
      | error e =>
        rw [htotal] at h
        split_ifs at h
      | ok bytes =>
        rw [htotal] at h
        split_ifs at h with hempty
        obtain rfl := Except.ok.inj h
        exact ⟨rfl, rfl, rfl, fun hnil => hempty (congrArg List.length hnil)⟩

variable {issued : List Bytes} {c : Conn Polling Bytes} {net : Net} {dec : LaneDecoder}
  {reply : Reply}

theorem current_reads : Sql.Reads current :=
  .bind (fun _ => rfl) fun _ => .orThrow

theorem start_after {request : Request}
    (h : Outbound issued c.db.store (c.db.started ++ [{
      request := request, saved := c.db.store.outbox.get? request.id }]) (some c.db.lane)) :
    ((start net request).run c).2.db.Sound issued := by
  refine Sql.note_after ?_
  rw [Sql.Reads.require]
  exact h

theorem reserve_after (h : c.db.Sound issued) (hmay : c.db.lane.maySubmit = true) :
    ((reserve net).run c).2.db.Sound issued := by
  refine Sql.note_after (Sql.peek_after ?_)
  have hreserve : Polling.Sound issued { c.db with lane := { c.db.lane with phase := .reserve } } :=
    h.onward rfl rfl (fun _ => hmay) fun hmay => hmay
  refine Sql.reads_after current_reads hreserve fun file c' _ hdb => start_after ?_
  rw [hdb]
  exact hreserve.hand (h.rows _ _ (h.lane _ rfl).saved.choose_spec.1).2
    (fun input hinput => by cases hinput) (hreserve.quiet_lane rfl hmay rfl)

theorem outcome_after {state : OutboxState} {detail : String} (h : c.db.Sound issued)
    (hstate : state ≠ .uploading ∨ ¬Submitted c.db.started c.db.lane.input.requestId) :
    ((cache (outcome c.db.lane.input.requestId state detail)).run c).2.db.Sound issued := by
  let inner : Conn Store Bytes := { db := c.db.store, faults := c.faults, fresh := c.fresh }
  have hstore : Outbound issued ((outcome c.db.lane.input.requestId state detail).run inner).2.db
      c.db.started (some c.db.lane) :=
    Sql.execute_after (P := fun s => Outbound issued s c.db.started (some c.db.lane)) h
      (h.outcome hstate)
  exact hstore

theorem unrecorded_after (h : c.db.Sound issued) :
    ((unrecorded net).run c).2.db.Sound issued := by
  refine Sql.peek_after ?_
  split_ifs with hmay
  · exact Sql.bind_after (outcome_after h (Or.inl (by decide))) fun _ c' _ h' => h'
  · have hmay : c.db.lane.maySubmit = true := by simpa using hmay
    exact Sql.bind_after (reserve_after h hmay) fun _ c' _ h' => h'

theorem uploadBusy_reads : Sql.Reads (uploadBusy dec reply) := by
  unfold uploadBusy
  split_ifs
  · exact .pure
  · exact .bind .lift fun _ => .bind .lift fun _ => .pure

theorem failed_after (h : c.db.Sound issued) : ((failed dec reply).run c).2.db.Sound issued := by
  refine Sql.peek_after (Sql.reads_after uploadBusy_reads h fun busy c' _ hdb => ?_)
  have h' : c'.db.Sound issued := hdb ▸ h
  rw [← hdb]
  refine Sql.bind_after (outcome_after h' ?_) fun _ c₂ _ h₂ => h₂
  split_ifs with hrejected hmay
  · exact Or.inl (by decide)
  · exact Or.inr ((h'.lane _ rfl).unsent hmay)
  · exact Or.inl (by decide)

theorem recorded_after (h : c.db.Sound issued) :
    ((recorded dec reply).run c).2.db.Sound issued := by
  refine Sql.peek_after (Sql.lift_after h fun record _ => Sql.require_after h fun _ => ?_)
  refine Sql.bind_after ?_ fun _ c' _ h' => h'
  let inner : Conn Store Bytes := { db := c.db.store, faults := c.faults, fresh := c.fresh }
  exact h.continues (@upsert_continues dec.toDecoder true .request reply.raw inner)

theorem transfer_after {file : Upload} (h : c.db.Sound issued) (hmay : c.db.lane.maySubmit = true) :
    ((transfer net file).run c).2.db.Sound issued := by
  refine Sql.peek_after (Sql.require_after h fun _ => Sql.lift_after h fun _ _ =>
    Sql.require_after h fun _ => Sql.note_after (start_after ?_))
  have hopened : Outbound issued c.db.store c.db.started
      (some { c.db.lane with opened := true, phase := .transfer }) :=
    h.onward rfl rfl (fun _ => hmay) fun hmay => hmay
  exact hopened.hand (h.rows _ _ (h.lane _ rfl).saved.choose_spec.1).2
    (fun input hinput => by cases hinput) (hopened.quiet_lane rfl hmay rfl)

/-- After the last file the stage of the send is durable when it is submitted. -/
theorem submit_after (h : c.db.Sound issued) (hmay : c.db.lane.maySubmit = true) :
    ((do
      cache (outcome c.db.lane.input.requestId .sending "Submitting attachments…")
      assign fun lane => { lane with maySubmit := false, phase := .submit }
      start net (.submit c.db.lane.input) : PollTx Unit).run c).2.db.Sound issued := by
  refine Sql.bind_after (outcome_after h (Or.inl (by decide))) fun _ c' hrun h' =>
    Sql.note_after (start_after ?_)
  obtain ⟨inner, houtcome, hdb, -⟩ := Sql.zoom_ok hrun
  have hstore := Sql.execute_ok (Sql.mapError_ok houtcome)
  obtain ⟨row, hrow, hpayload⟩ := (h.lane _ rfl).saved
  have hlane : c'.db.lane = c.db.lane := by rw [hdb]
  have hstarted : c'.db.started = c.db.started := by rw [hdb]
  have hafter : c'.db.store.outbox.get? c.db.lane.input.requestId = some (if row.record.isNone then
      { row with state := .sending, detail := "Submitting attachments…" } else row) := by
    rw [hdb, hstore]
    simp only [Table.get?_modifyWhere, hrow, decide_true, Bool.true_and, Option.map_some]
  have hidle : Outbound issued c'.db.store c'.db.started
      (some { c'.db.lane with maySubmit := false, phase := .submit }) :=
    h'.onward rfl rfl (by rintro (hphase | hphase) <;> cases hphase) fun hfalse => by cases hfalse
  change Outbound issued c'.db.store (c'.db.started ++ [{
    request := .submit c.db.lane.input
    saved := c'.db.store.outbox.get? c.db.lane.input.requestId }]) _
  rw [hafter]
  refine hidle.submit hafter ?_ ?_ ?_ fun l hl hfalse => ?_
  · split_ifs <;> exact hpayload
  · split_ifs with hnone
    · exact Or.inl rfl
    · exact Or.inr (Option.isSome_iff_ne_none.mpr (by simpa using hnone))
  · rw [hstarted]
    exact (h.lane _ rfl).unsent hmay
  · rw [← Option.some.inj hl] at hfalse
    cases hfalse

theorem ready_after {file : Upload} (h : c.db.Sound issued) (hmay : c.db.lane.maySubmit = true) :
    ((ready net file).run c).2.db.Sound issued := by
  refine Sql.lift_after h fun bytes _ => Sql.note_after (Sql.peek_after ?_)
  have hnext : Outbound issued c.db.store c.db.started (some { c.db.lane with
      completedBytes := c.db.lane.completedBytes + bytes, index := c.db.lane.index + 1 }) :=
    h.onward rfl rfl (fun _ => hmay) fun hmay => hmay
  split_ifs
  · exact reserve_after hnext hmay
  · exact submit_after hnext hmay

theorem uploaded_after (h : c.db.Sound issued) (hmay : c.db.lane.maySubmit = true) :
    ((uploaded dec net reply).run c).2.db.Sound issued := by
  refine Sql.peek_after (Sql.lift_after h fun record _ =>
    Sql.reads_after current_reads h fun file c' _ hdb => ?_)
  have h' : c'.db.Sound issued := hdb ▸ h
  have hmay' : c'.db.lane.maySubmit = true := hdb ▸ hmay
  rw [← hdb]
  refine Sql.require_after h' fun _ => ?_
  cases record.phase with
  | ready => exact Sql.bind_after (ready_after h' hmay') fun _ c₂ _ h₂ => h₂
  | reserved => exact Sql.bind_after (transfer_after h' hmay') fun _ c₂ _ h₂ => h₂
  | receiving =>
    exact Sql.bind_after (outcome_after h' (Or.inr ((h'.lane _ rfl).unsent hmay')))
      fun _ c₂ _ h₂ => h₂
  | pinned => exact h'

theorem poll_after (h : c.db.Sound issued) : ((poll dec net reply).run c).2.db.Sound issued := by
  refine Sql.note_after (Sql.peek_after ?_)
  have hclosed : Outbound issued c.db.store c.db.started
      (some { c.db.lane with opened := false }) :=
    h.onward rfl rfl (h.lane _ rfl).phase fun hmay => hmay
  split_ifs with hlookup hstatus hrecorded
  · exact unrecorded_after hclosed
  · exact failed_after hclosed
  · exact Sql.lift_after hclosed fun _ _ => recorded_after hclosed
  · refine Sql.lift_after hclosed fun _ _ => uploaded_after hclosed ((h.lane _ rfl).phase ?_)
    cases hphase : c.db.lane.phase with
    | reserve => exact Or.inl rfl
    | transfer => exact Or.inr rfl
    | lookup => simp [hphase] at hrecorded
    | submit => simp [hphase] at hrecorded

end Lane

namespace Sender

def Sending (t : Sender) : Prop := Outbound t.issued t.store t.started t.upload

namespace Sending

variable {t : Sender} {env : Env}

theorem ended (h : t.Sending) : t.ended.Sending := h.closed

theorem continues {s : Store} (h : t.Sending) (hs : Continues t.store s) : (t.moved s).Sending :=
  Outbound.continues h hs

theorem locked {α : Type} {m : Tx α}
    (hm : (t.moved (m.run { db := t.store, faults := env.faults }).2.db).Sending) :
    (t.locked env m fun _ t => t).Sending := by
  unfold Sender.locked
  split
  · next hrun =>
    rw [hrun] at hm
    exact hm
  · next hrun =>
    rw [hrun] at hm
    exact hm.ended

theorem locked_continues {α : Type} {m : Tx α} (h : t.Sending) (hm : Sql.Advances Continues m) :
    (t.locked env m fun _ t => t).Sending :=
  locked (h.continues (hm { db := t.store, faults := env.faults }))

theorem locked_outcome {id : Bytes} {state : OutboxState} {detail : String} (h : t.Sending)
    (hstate : state ≠ .uploading) : (t.locked env (outcome id state detail) fun _ t => t).Sending :=
  locked (Sql.execute_after (P := fun s => (t.moved s).Sending) h
    (Outbound.outcome h (Or.inl hstate)))

theorem hand {r : Request} {starts : Bool}
    (h : Outbound t.issued t.store (t.started ++ [{
      request := r, saved := t.store.outbox.get? r.id }]) t.upload) :
    (t.hand r starts).Sending := by
  unfold Sender.hand
  split_ifs
  · exact h
  · exact Outbound.closed h

theorem hand_lookup {id : Bytes} {starts : Bool} (h : t.Sending) (hid : id ∈ t.issued) :
    (t.hand (.lookup id) starts).Sending :=
  hand (Outbound.hand h hid (fun input hinput => by cases hinput)
    fun a _ input _ hsame => congrArg Request.lookup hsame)

theorem work {dec : LaneDecoder} (h : t.Sending) (a : Action) : (t.work dec a).Sending := by
  have hstep (hclear : a ≠ .clear) (helsewhere : ∀ change, a ≠ .elsewhere change) :
      Continues t.store (t.worker.step dec.toDecoder a).store :=
    t.worker.step_continues a hclear helsewhere
  cases a with
  | restart => exact h.ended
  | clear =>
    exact ⟨fun id row hrow => (by cases hrow), h.handed, h.durable,
      fun id row _ hrow => (by cases hrow), h.quiet, fun l hl => (by cases hl)⟩
  | elsewhere change => exact h
  | _ => exact Outbound.continues h (hstep (fun h => by cases h) fun _ h => by cases h)

theorem recover {id : Bytes} {starts : Bool} (h : t.Sending) : (t.recover id starts).Sending := by
  unfold Sender.recover
  split_ifs with hready
  · simp only [Bool.and_eq_true, Option.any_eq_true] at hready
    obtain ⟨-, row, hrow, -⟩ := hready
    exact hand_lookup h (h.rows id row hrow).2
  · exact h

theorem complete {dec : LaneDecoder} {reply : Reply} (h : t.Sending) :
    (t.complete dec env reply).Sending := by
  have hrecord : Sql.Advances Continues (do
      Sql.lift ((JsonInput.check reply.raw (8 * 1024 * 1024) (512 * 1024)).mapError .ofCheck)
      let _ ← upsert dec.toDecoder true .request reply.raw : Tx Unit) :=
    .bind .lift fun _ => .bind upsert_continues fun _ => .pure
  have hnext : ({ t with job := .idle } : Sender).Sending := h
  unfold Sender.complete
  cases t.job with
  | send id =>
    dsimp only
    split_ifs with hfailed hrejects
    · exact hnext.locked_outcome (by decide)
    · exact hnext.locked_outcome (by decide)
    · split
      · next hrun => exact hnext.continues (hrecord.run hrun)
      · next hrun => exact (hnext.continues (hrecord.run hrun)).locked_outcome (by decide)
  | recover id =>
    dsimp only
    split_ifs
    · exact hnext.locked_outcome (by decide)
    · exact hnext
    · exact hnext.continues (hrecord { db := t.store, faults := env.faults })
  | _ => exact hnext

theorem pollUpload {dec : LaneDecoder} {net : Net} {lane : Lane} {reply : Reply} (h : t.Sending)
    (hlane : t.upload = some lane) : (t.pollUpload dec env net lane reply).Sending := by
  let c : Conn Polling Bytes := {
    db := { lane := lane, store := t.store, started := t.started }, faults := env.faults }
  have hpoll := @Lane.poll_after t.issued c net dec reply (show Outbound _ _ _ _ from hlane ▸ h)
  unfold Sender.pollUpload
  split
  · next finished c hrun =>
    rw [hrun] at hpoll
    cases finished with
    | true => exact Outbound.closed hpoll
    | false => exact hpoll
  · next c hrun =>
    rw [hrun] at hpoll
    have hended : ({ t.moved c.db.store with upload := none, started := c.db.started } : Sender).Sending :=
      Outbound.closed hpoll
    refine hended.locked_outcome ?_
    split_ifs <;> decide

theorem openUpload {net : Net} (h : t.Sending) :
    (t.openUpload env net).Sending := by
  unfold Sender.openUpload Sender.locked
  split
  · next next c hrun =>
    obtain ⟨hnext, hdb⟩ := Sql.query_ok hrun
    have hmoved : (t.moved c.db).Sending := hdb ▸ h
    cases next with
    | none => exact hmoved
    | some found =>
      obtain ⟨id, row⟩ := found
      have hselected := List.mem_of_mem_head? (Option.mem_def.mpr hnext.symm)
      obtain ⟨hrow, hwanted⟩ := Table.get?_select.mp hselected
      simp only [Bool.and_eq_true, decide_eq_true_eq] at hwanted
      dsimp only
      split
      · exact hmoved.ended
      · next lane hlane =>
        obtain ⟨hinput, hmay, hphase, hfiles⟩ := Lane.init_ok hlane
        have hid : row.payload.requestId = id := (h.rows id row hrow).1
        refine hand_lookup (t := { t.moved c.db with upload := some lane }) ?_ ?_
        · refine ⟨hmoved.rows, hmoved.handed, hmoved.durable, hmoved.past, hmoved.quiet,
            fun l hl => ?_⟩
          rw [← Option.some.inj hl]
          refine ⟨⟨row, ?_, hinput.symm⟩, hfiles, ?_, fun hmay' hsubmitted => ?_⟩
          · rw [hinput, hid]
            exact (congrArg (fun s : Store => s.outbox.get? id) hdb).trans hrow
          · rw [hphase]
            rintro (hreserve | htransfer)
            · cases hreserve
            · cases htransfer
          · rw [hinput, hid] at hsubmitted
            rw [hmay, decide_eq_true_eq] at hmay'
            rcases h.past id row hsubmitted hrow with hrecord | hstate
            · have hnone := hwanted.1.1
              simp only [Store.unanswered, Bool.and_eq_true] at hnone
              rw [Option.isNone_iff_eq_none] at hnone
              rw [hnone.2] at hrecord
              cases hrecord
            · exact hstate hmay'
        · rw [hinput, hid]
          exact (h.rows id row hrow).2
  · next c hrun =>
    have hdb := Sql.Reads.query (g := Store.nextUpload) (ε := Error)
      ({ db := t.store, faults := env.faults } : Conn Store Bytes)
    rw [hrun] at hdb
    have hmoved : (t.moved c.db).Sending := hdb ▸ h
    exact hmoved.ended

theorem uploadFiles {dec : LaneDecoder} {active ready : Bool} {net : Net} {reply : Option Reply}
    (h : t.Sending) : (t.uploadFiles dec env active ready net reply).Sending := by
  have hclosed : ({ t with upload := none } : Sender).Sending := Outbound.closed h
  unfold Sender.uploadFiles
  cases hlane : t.upload with
  | none =>
    split_ifs
    · exact hclosed
    · exact h.openUpload
    · exact h
  | some lane =>
    dsimp only
    split_ifs
    · exact hclosed
    · exact hclosed
    · cases reply with
      | none => exact h
      | some reply => exact h.pollUpload hlane

theorem cancelUpload {id : Bytes} (h : t.Sending) : (t.cancelUpload env id).Sending := by
  unfold Sender.cancelUpload
  split_ifs
  · refine locked_outcome ?_ (by decide)
    refine ⟨h.rows, h.handed, h.durable, h.past, h.quiet, fun l hl => h.lane l ?_⟩
    exact (Option.filter_eq_some_iff.mp hl).1
  · exact h

theorem disconnect {detail : String} (h : t.Sending) : (t.disconnect env detail).Sending := by
  have hclosed : ({ t with job := .idle, upload := none } : Sender).Sending := Outbound.closed h
  unfold Sender.disconnect
  cases t.job with
  | send id => exact hclosed.locked_outcome (by decide)
  | _ => exact hclosed

theorem send {fresh : Option Bytes} {offer : Offer} {starts : Bool} (h : t.Sending)
    (hfresh : ∀ id, fresh = some id → id ∉ t.issued) :
    (t.send env fresh offer starts).Sending := by
  have hissued : ({ t with job := .idle, issued := fresh.toList ++ t.issued } : Sender).Sending :=
    Outbound.issue h fresh.toList
  unfold Sender.send
  split_ifs
  · exact h
  · dsimp only
    split
    · next c hrun =>
      exact hissued.continues (offered_calm (fun _ _ => saveDraft_continues) _ _ _ hrun
        fun input hsome => by cases hsome)
    · next input c hrun =>
      obtain ⟨hdrawn, d, d', hd, hd', hpersist⟩ := offered_saved hrun
      obtain ⟨row, outbox, c₁, c₂, hnew, hinsert, -, hdb₁, hsave, hdb₂⟩ := persistSend_stored hpersist
      rw [hd] at hinsert hdb₁
      have hunseen : ¬Submitted t.started input.requestId := by
        rintro ⟨r, hr, other, hother, hid⟩
        refine hfresh _ hdrawn ?_
        rw [← hid]
        have hhanded := h.handed r hr
        rwa [hother] at hhanded
      have hinserted : Outbound (fresh.toList ++ t.issued) c₁.db t.started t.upload := by
        refine Outbound.insert (s := t.store) hissued (List.mem_append_left _ ?_) hunseen hnew ?_
        · rw [hdrawn]
          exact List.mem_singleton_self _
        · rw [hdb₁]
          exact hinsert
      have hsaved : Outbound (fresh.toList ++ t.issued) c.db t.started t.upload := by
        rw [← hd', ← hdb₂]
        exact hinserted.continues (saveDraft_continues.run hsave)
      split_ifs with htext
      · refine hand ?_
        have hstages : stages c.db input.requestId = some (input, .sending, none) := by
          rw [← hd', ← hdb₂, saveDraft_stages.run hsave, stages, hdb₁, Table.get?_insert hinsert,
            if_pos rfl, Option.map_some, hnew.payload, hnew.record, hnew.state, if_pos htext]
        obtain ⟨row', hrow', hstage⟩ := Option.map_eq_some_iff.mp hstages
        obtain ⟨hpayload, hstate, -⟩ : row'.payload = input ∧ row'.state = .sending ∧
            row'.record = none := by simpa using hstage
        change Outbound (fresh.toList ++ t.issued) c.db (t.started ++ [{
          request := .submit input, saved := c.db.outbox.get? input.requestId }]) t.upload
        rw [hrow']
        refine hsaved.submit hrow' hpayload (Or.inl hstate) hunseen fun l hl _ hsame => ?_
        obtain ⟨row₀, hrow₀, -⟩ := (h.lane l hl).saved
        exact hfresh _ hdrawn (hsame ▸ (h.rows _ row₀ hrow₀).2)
      · exact hsaved
    · next e c hrun =>
      exact (hissued.continues (offered_calm (fun _ _ => saveDraft_continues) _ _ _ hrun
        fun input hsome => by cases hsome)).ended

theorem unlink {id : Bytes} {removed : Bool} (h : t.Sending) : (t.unlink id removed).Sending := by
  unfold Sender.unlink
  split_ifs
  · exact h
  · exact h

variable {sha256 : Bytes → Vector UInt8 32} {dec : LaneDecoder}

theorem stage {fresh : Option Bytes} {key name content : Bytes} {whole removed : Bool}
    (h : t.Sending) : (t.stage sha256 env fresh key name content whole removed).Sending := by
  have hissued : ({ t with issued := fresh.toList ++ t.issued } : Sender).Sending :=
    Outbound.issue h fresh.toList
  unfold Sender.stage
  split
  · dsimp only
    split
    · exact hissued
    · split
      · exact hissued
      · split_ifs
        · exact hissued
        · exact Sending.unlink hissued
  · exact hissued

theorem addDraft_outbox {key : Bytes} {file : Upload} :
    Sql.Keeps Store.outbox (addDraft key file) := by
  refine .transaction (.bind ?_ fun _ => .bind .query fun _ => .bind .lift fun _ =>
    .execute? fun s s' h => ?_)
  · exact .bind .lift fun _ => .bind .query fun _ => .bind .query fun _ => .bind .require fun _ =>
      .bind .require fun _ => .require
  · obtain ⟨files, -, rfl⟩ := Option.map_eq_some_iff.mp h
    rfl

theorem publish {cancelled removed : Bool} (h : t.Sending) :
    (t.publish env cancelled removed).Sending := by
  unfold Sender.publish
  split
  · next key file htask =>
    split_ifs
    · exact Sending.unlink h
    · have hkeeps := @addDraft_outbox key file { db := t.store, faults := env.faults }
      split
      · next hrun =>
        rw [hrun] at hkeeps
        exact h.continues (.of_outbox hkeeps)
      · next hrun =>
        rw [hrun] at hkeeps
        exact Sending.unlink (h.continues (.of_outbox hkeeps))
  · exact h

theorem inspect {id : Bytes} {retired : Bool} (h : t.Sending) :
    (t.inspect env id retired).Sending := by
  unfold Sender.inspect
  split_ifs
  · split
    · exact h
    · exact h
  · exact h

theorem collect {removed : Bool} (h : t.Sending) : (t.collect env removed).Sending := by
  unfold Sender.collect
  split
  · next id retired htask =>
    have hnext : (({ t with task := .idle } : Sender).unlink id removed).Sending := Sending.unlink h
    dsimp only
    split_ifs
    · have hkeeps : Sql.Keeps Store.outbox (forgetFile id) := .execute fun _ => rfl
      refine hnext.continues ?_
      have hstore : (({ t with task := .idle } : Sender).unlink id removed).store = t.store := by
        unfold Sender.unlink
        split_ifs <;> rfl
      rw [hstore]
      exact .of_outbox (hkeeps { db := t.store, faults := env.faults })
    · exact hnext
  · exact h

theorem step (h : t.Sending) (a : SenderAction) : (t.step sha256 dec a).Sending := by
  unfold Sender.step
  split_ifs with henabled
  · cases a with
    | work a => exact h.work a
    | enrich change => exact h.continues (.of_outbox rfl)
    | draft env key text => exact h.locked_continues saveDraft_continues
    | send env fresh offer starts =>
      refine h.send fun id hid hissued => ?_
      subst hid
      simp [enabled, drawn, hissued] at henabled
    | request cancellable =>
      change Sending (if t.job = .idle then { t with job := .background cancellable } else t)
      split_ifs <;> exact h
    | cancelRequest =>
      cases hjob : t.job <;> simp only [apply, hjob] <;> exact h
    | recover id starts => exact h.recover
    | complete env reply => exact h.complete
    | uploadFiles env active ready net reply => exact h.uploadFiles
    | cancelUpload env id => exact h.cancelUpload
    | disconnect env detail => exact h.disconnect
    | expireUnknown env now =>
      refine locked (Sql.statement_after (P := fun s => (t.moved s).Sending) h fun removed s hs => ?_)
      rw [← (Prod.mk.inj (Option.some.inj hs)).2]
      exact Outbound.expire h now
    | resolveDirect env chat =>
      exact h.locked_continues (.execute fun s => .modifyWhere s _ fun row => .rekey row _)
    | removeAttachment env key id =>
      exact h.locked_continues (.bind .query fun _ => .execute fun _ => .of_outbox rfl)
    | stage env fresh key name content whole removed => exact h.stage
    | publish env cancelled removed => exact h.publish
    | inspect env id retired => exact h.inspect
    | collect env removed => exact h.collect
    | failClear gone => exact h.ended
  · exact h

end Sending

variable (sha256 : Bytes → Vector UInt8 32) (dec : LaneDecoder)

theorem run_sending (actions : List SenderAction) : ((sender sha256 dec).run {} actions).Sending := by
  refine (sender sha256 dec).run_invariant (I := Sending) (fun t a h => h.step a) {} actions ?_
  exact ⟨fun id row hrow => (by cases hrow), fun r hr => (by cases hr), fun r hr => (by cases hr),
    fun id row _ hrow => (by cases hrow), List.Pairwise.nil, fun l hl => (by cases hl)⟩

end Sender

/-- Each submission that is handed over is of a send saved as it is, whose durable row
marks it as submitted or answered; it is the first for its send, and after it the
send is only looked up. -/
def SubmittedOnce (started : List Started) : Prop :=
  ∀ before r after input, started = before ++ r :: after → r.request = .submit input →
    r.Durable input ∧ ¬Submitted before input.requestId ∧
      ∀ later ∈ after, later.request.id = input.requestId →
        later.request = .lookup input.requestId

/-- Over any run, with connections lost, restarts, cancelled uploads, new epochs and
statements of the cache that fail, no send is submitted twice. -/
theorem submitted_once (sha256 : Bytes → Vector UInt8 32) (dec : LaneDecoder)
    (actions : List SenderAction) :
    SubmittedOnce ((sender sha256 dec).run {} actions).started := by
  have h := Sender.run_sending sha256 dec actions
  intro before r after input hsplit hr
  have hquiet := h.quiet
  rw [hsplit, List.pairwise_append, List.pairwise_cons] at hquiet
  refine ⟨h.durable r (hsplit ▸ List.mem_append_right _ List.mem_cons_self) input hr, ?_,
    fun later hlater => hquiet.2.1.1 later hlater input hr⟩
  rintro ⟨a, ha, other, hother, hid⟩
  have hlookup := hquiet.2.2 a ha r List.mem_cons_self other hother
    (by rw [hr, hid]; rfl)
  rw [hr] at hlookup
  cases hlookup

namespace Sample

def sendId : Bytes := text "SAAAAAAAAAAAAAAAAAAAAA"
def fileId : Bytes := text "FAAAAAAAAAAAAAAAAAAAAA"
def peer : Bytes := text "new:peer"

def noReplies : LaneDecoder where
  event _ := .error .invalidRecord
  conversation _ := .error .invalidRecord
  message _ := .error .invalidRecord
  request _ := .error .invalidRecord
  identity _ := .error .invalidRecord
  record _ := .error .invalidRecord
  failure _ := .error .invalidRecord

def offer (body : String) : Offer where
  key := peer
  text := text body
  recipient := text "+15551230000"
  preparing := false
  online := true
  sendDirect := true
  replyExisting := true
  attachmentsReady := true
  sentAt := 1

/-- A send of an epoch, whose response is lost before and after a restart. -/
def unanswered : List SenderAction :=
  let epoch := text "AAAAAAAAAAAAAAAAAAAAAA"
  [.work (.sync {} epoch (epoch ++ text ":0")), .send {} (some sendId) (offer "hi") true,
    .work .restart, .recover sendId true, .complete {} { status := 0, raw := [] },
    .send {} (some fileId) (offer "again") true]

/-- It is looked up, and while it is unresolved the next message stays a draft. -/
example :
    let t := (sender (fun _ => Vector.replicate 32 0) noReplies).run {} unanswered
    t.started.map (·.request) = [.submit {
        requestId := sendId
        serverEpoch := text "AAAAAAAAAAAAAAAAAAAAAA"
        target := {
          recipient := some { address := text "+15551230000", service := text "imessage" } }
        text := text "hi" }, .lookup sendId] ∧
      t.store.draftText peer = text "again" := by
  decide +kernel

end Sample

end Zimbr.Client
