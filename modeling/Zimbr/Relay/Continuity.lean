import Zimbr.Relay.Coverage

set_option autoImplicit false

/-!
# When the source is taken for another one

Rows of a source that only grows keep their GUIDs once they have one. A pass
then recognises the source, unless its live cursor was saved on a row that had
none yet.
-/
namespace Zimbr.Relay
open Library

namespace MessagesDb

variable {db : MessagesDb} {row : Int}

theorem guid_of_mem (h : row ∈ db.ids) : ∃ guid, db.guid row = some guid := by
  obtain ⟨r, hr, hrow⟩ := List.mem_map.mp h
  have hsome : (db.messages.find? fun r => decide (r.1 = row)).isSome = true :=
    List.find?_isSome.mpr ⟨r, hr, decide_eq_true hrow⟩
  obtain ⟨r', hr'⟩ := Option.isSome_iff_exists.mp hsome
  exact ⟨r'.2.guid, by rw [guid, columns, hr']; rfl⟩

theorem mem_of_guid {guid : Bytes} (h : db.guid row = some guid) : row ∈ db.ids := by
  obtain ⟨c, hc, -⟩ := Option.map_eq_some_iff.mp h
  exact mem_ids hc

end MessagesDb

namespace Intake

variable {e : PassEnv} {c c' : Conn Pass Bytes} {live : Int}

theorem reconcileAnchors_kept {t : Table Int Bytes}
    (h : Anchored (fun row guid => e.source.guid row = some guid) t)
    (hzero : (Anchors.reconcileAnchors e.source t).1 = 0) :
    (Anchors.reconcileAnchors e.source t).2.rows = [] := by
  have hrows (r : Int × Bytes) (hr : r ∈ t.rows) : e.source.guid r.1 = some r.2 :=
    h r.1 r.2 ((Table.get?_eq_some_iff _ _ _).mpr hr)
  have hpresent : t.select (fun row _ => (e.source.guid row).isSome) = t.rows := by
    refine List.filter_eq_self.mpr fun r hr => ?_
    dsimp only
    rw [hrows r hr]
    rfl
  have hmissing : t.select (fun row _ => (e.source.guid row).isNone) = [] := by
    refine List.filter_eq_nil_iff.mpr fun r hr => ?_
    dsimp only
    rw [hrows r hr]
    exact Bool.false_ne_true
  have hsame : (t.rows.any fun r => e.source.guid r.1 != some r.2) = false := by
    rw [List.any_eq_false]
    intro r hr
    rw [hrows r hr, bne_self_eq_false]
    exact Bool.false_ne_true
  unfold Anchors.reconcileAnchors at hzero ⊢
  simp only [hpresent, hmissing, hsame, Bool.false_eq_true, if_false, ne_eq, not_true_eq_false,
    decide_false, Bool.false_and, List.length_eq_zero_iff] at hzero ⊢
  simp [Table.deleteWhere, hzero]

theorem checkLive_continues {legacy : Bool} {anchors : Nat} {checked : Int × Option ResetReason}
    (hlive : 0 < live → missingAnchor e live (c.db.cursor "anchor").2 = false)
    (h : (checkLive e legacy anchors live).run c = (.ok checked, c')) : checked = (live, none) := by
  unfold checkLive at h
  split_ifs at h with hpositive
  · obtain ⟨saved, c₁, hsaved, h⟩ := Sql.bind_ok h
    obtain ⟨rfl, hdb₁⟩ := progress_ok hsaved
    rw [hlive hpositive] at h
    exact (Sql.pure_ok h).1
  · exact (Sql.pure_ok h).1

theorem checkSource_continues {checked : Int × Option ResetReason}
    (hanchors : Anchored (fun row guid => e.source.guid row = some guid) c.db.intake.ordinaryAnchors)
    (hlive : 0 < live → missingAnchor e live (c.db.cursor "anchor").2 = false)
    (h : (checkSource e e.source.identity live).run c = (.ok checked, c')) :
    checked = (live, none) := by
  unfold checkSource at h
  simp only [ne_eq, not_true_eq_false, decide_false, Bool.false_and, Bool.false_eq_true,
    if_false] at h
  obtain ⟨kept, c₁, hkept, h⟩ := Sql.bind_ok h
  obtain ⟨c₀, hkept, hdb₁, -⟩ := Sql.zoom_ok hkept
  obtain ⟨rfl, hc₀⟩ := Sql.query_ok hkept
  rw [hc₀] at hdb₁
  obtain ⟨_, c₂, hset, h⟩ := Sql.bind_ok h
  obtain ⟨c₃, hset, hdb₂, -⟩ := Sql.zoom_ok hset
  rw [Sql.execute_ok hset, hdb₁] at hdb₂
  split_ifs at h with hlost
  · rw [Bool.and_eq_true, decide_eq_true_eq, decide_eq_true_eq] at hlost
    exact absurd (reconcileAnchors_kept hanchors hlost.1) hlost.2
  · obtain ⟨checked', c₄, hchecked, h⟩ := Sql.bind_ok h
    obtain ⟨_, c₅, hidentity, h⟩ := Sql.bind_ok h
    obtain ⟨rfl, -⟩ := Sql.pure_ok h
    refine checkLive_continues (fun hpositive => ?_) hchecked
    rw [hdb₂]
    exact hlive hpositive

theorem openSource_continues {start : Int}
    (hknown : (c.db.cursor "identity").2 = some e.source.identity)
    (hanchors : Anchored (fun row guid => e.source.guid row = some guid) c.db.intake.ordinaryAnchors)
    (hlive : ∀ live, c.db.placed "live" = some live → 0 < live →
      missingAnchor e live (c.db.cursor "anchor").2 = false)
    (h : (openSource e).run c = (.ok start, c')) :
    c.db.placed "live" = some start ∧ c'.db.resetReason = c.db.resetReason := by
  obtain ⟨identity, c₁, hidentity, h⟩ := Sql.bind_ok h
  obtain ⟨rfl, hdb₁⟩ := progress_ok hidentity
  obtain ⟨live, c₂, hposition, h⟩ := Sql.bind_ok h
  obtain ⟨hplaced, hdb₂⟩ := position_ok hposition
  rw [hdb₁] at hplaced hdb₂
  rw [hknown] at h
  obtain ⟨checked, c₃, hchecked, h⟩ := Sql.bind_ok h
  obtain rfl := checkSource_continues (by rw [hdb₂]; exact hanchors)
    (by rw [hdb₂]; exact hlive live hplaced) hchecked
  obtain ⟨rfl, rfl⟩ := Sql.pure_ok h
  refine ⟨hplaced, ?_⟩
  obtain ⟨d, d', legacy, hd, hlive', -, -, hreason, -⟩ := checkSource_ok hchecked rfl
  rw [hreason]
  rcases checkLive_ok hlive' rfl with ⟨-, hdb⟩ | ⟨-, d₀, hd₀, hrebase⟩
  · rw [hdb, hd, hdb₂]
  · rw [(rebase_ok hrebase).2.2.2.2.1, hd₀, hd, hdb₂]

end Intake

namespace Tracking

def nextLive (s : Tracking) : Int :=
  Intake.liveEnd s.source (if (s.opening.cursor "identity").2.isNone then s.source.high
    else (s.opening.placed "live").getD 0)

/-- The file stays the same, and so does every GUID that is not empty. -/
def Updates (s : Tracking) : TrackCall → Prop
  | .change db _ => db.identity = s.source.identity ∧
    ∀ row guid, s.source.guid row = some guid → guid ≠ [] → db.guid row = some guid
  | _ => True

def Identified (enc : Encoding) (s : Tracking) : TrackCall → Prop
  | .pass env faults fresh => (s.passed enc env faults fresh).1.isOk = true →
    0 < s.nextLive → s.source.guid s.nextLive ≠ some []
  | _ => True

/-- The pass recognised the source: it neither reset nor changed the epoch. -/
def Recognised (enc : Encoding) (s : Tracking) (env : PassEnv) (faults : List Bool)
    (fresh : List Bytes) : Prop :=
  (s.passed enc env faults fresh).2.db.resetReason = none ∧
    ((tracking enc).step s (.pass env faults fresh)).intake.journal.epoch = s.intake.journal.epoch

/-- What was saved of the source still holds of it. -/
structure Continuing (s : Tracking) : Prop where
  identity : ∀ identity, (s.opening.cursor "identity").2 = some identity → identity = s.source.identity
  anchors : Anchored (fun row guid => s.source.guid row = some guid ∧ guid ≠ []) s.intake.ordinaryAnchors
  live : (s.opening.cursor "identity").2.isSome = true → ∀ live, s.opening.placed "live" = some live →
    0 < live → ∃ guid, guid ≠ [] ∧ (s.opening.cursor "anchor").2 = some guid ∧
      s.source.guid live = some guid

section Steps

variable {enc : Encoding} {s : Tracking} {env : PassEnv} {faults : List Bool} {fresh : List Bytes}

theorem Continuing.admits :
    Intake.Admits (fun row guid => s.source.guid row = some guid ∧ guid ≠ []) s.source := by
  intro row c hcolumns hguid
  exact ⟨by rw [MessagesDb.guid, hcolumns]; rfl, hguid⟩

theorem Continuing.present (hs : s.Continuing) (hknown : (s.opening.cursor "identity").2.isSome = true)
    {live : Int} (hplaced : s.opening.placed "live" = some live) (hpositive : 0 < live) :
    Intake.missingAnchor { env with source := s.source } live (s.opening.cursor "anchor").2 = false := by
  obtain ⟨guid, hguid, hsaved, hsource⟩ := hs.live hknown live hplaced hpositive
  have hhigh := MessagesDb.le_high (MessagesDb.mem_of_guid hsource)
  unfold Intake.missingAnchor
  dsimp only
  rw [hsaved, hsource]
  simp [hguid, hhigh]

/-- A committed pass starts at its live cursor, at the first import at the end. -/
theorem Continuing.opened (hs : s.Continuing) {start : Int} {c₁ c₂ : Conn Pass Bytes}
    (hdb : c₁.db = s.opening)
    (hopen : (Intake.openSource { env with source := s.source }).run c₁ = (.ok start, c₂)) :
    c₂.db.resetReason = none ∧ c₂.db.intake.journal.epoch = s.intake.journal.epoch ∧
      Intake.liveEnd s.source start = s.nextLive ∧
      (0 < start → ∃ guid, s.source.guid start = some guid) ∧
      -(2 ^ 63) ≤ start ∧ start < 2 ^ 63 := by
  have hopened := (Intake.openSource_ok hopen).1
  rw [hdb] at hopened
  cases hknown : (s.opening.cursor "identity").2 with
  | none =>
    cases hopened with
    | resumed known => simp [hknown] at known
    | rebased old known => simp [hknown] at known
    | started start_eq live backfill reason =>
      obtain ⟨-, hreason, hepoch⟩ := reason.resolve_right fun h => by simp [hknown] at h
      have hnext : Intake.liveEnd s.source start = s.nextLive := by
        rw [nextLive, hknown, start_eq]
        rfl
      rcases (start_eq ▸ MessagesDb.high_mem : start = 0 ∨ start ∈ s.source.ids) with rfl | hmem
      · exact ⟨hreason, hepoch, hnext, fun h => absurd h (lt_irrefl 0), by decide, by decide⟩
      · exact ⟨hreason, hepoch, hnext, fun _ => MessagesDb.guid_of_mem hmem,
          MessagesDb.ids_bounded hmem⟩
  | some identity =>
    have hidentified : (s.opening.cursor "identity").2.isSome = true := by rw [hknown]; rfl
    have hsame : (c₁.db.cursor "identity").2 = some s.source.identity := by
      rw [hdb, hknown, hs.identity identity hknown]
    obtain ⟨hplaced, hreason⟩ := Intake.openSource_continues hsame
      (by rw [hdb]; exact fun row guid hget => (hs.anchors row guid hget).1)
      (fun live hlive hpositive => by
        rw [hdb] at hlive ⊢
        exact hs.present hidentified hlive hpositive) hopen
    rw [hdb] at hplaced hreason
    have hnext : Intake.liveEnd s.source start = s.nextLive := by
      rw [nextLive, hknown, hplaced]
      rfl
    have hguid (hpositive : 0 < start) : ∃ guid, s.source.guid start = some guid := by
      obtain ⟨guid, -, -, hsource⟩ := hs.live hidentified start hplaced hpositive
      exact ⟨guid, hsource⟩
    refine ⟨hreason, ?_, hnext, hguid, Pass.placed_bounded hplaced⟩
    cases hopened with
    | resumed known placed cursor reason unmoved =>
      exact congrArg Prod.fst (cursor "live" (apart_of_head (by decide)) (by decide))
    | rebased old known placed positive anchor live cursor reason moved =>
      exact congrArg Prod.fst (cursor "backfill" (apart_of_head (by decide)) (by decide))
    | started start_eq live backfill reason =>
      rcases reason with ⟨hnone, -⟩ | ⟨-, hsome⟩
      · simp [hknown] at hnone
      · simp [hreason, opening] at hsome

/-- One pass recognises the source and saves what the next one needs. -/
theorem Continuing.pass (hs : s.Continuing) (hidentified : s.Identified enc (.pass env faults fresh)) :
    s.Recognised enc env faults fresh ∧
      (s.ingested (s.passed enc env faults fresh)).Continuing := by
  unfold Recognised
  change (_ ∧ (s.ingested (s.passed enc env faults fresh)).intake.journal.epoch = _) ∧ _
  generalize hpass : s.passed enc env faults fresh = r
  cases hresult : r.1 with
  | error err =>
    have hdb : r.2.db = s.opening := Sql.transaction_error (hpass.trans (Prod.ext hresult rfl))
    rw [passed_error hpass hresult, hdb]
    exact ⟨⟨rfl, rfl⟩, hs⟩
  | ok u =>
    obtain ⟨start, frontier, c₁, c₂, hdb₁, hopen, hfrontier, hscanned, hreason⟩ :=
      passed_run hpass hresult
    have hidentity : (r.2.db.cursor "identity").2 = some s.source.identity := by
      rw [hscanned.identity]
      exact (Intake.openSource_ok hopen).2.2
    obtain ⟨hnone, hepoch, hnext, hguid, hbounded⟩ := hs.opened hdb₁ hopen
    have hend : -(2 ^ 63) ≤ s.nextLive ∧ s.nextLive < 2 ^ 63 := by
      rw [← hnext]
      rcases Intake.liveEnd_mem s.source start with heq | hmem
      · rw [heq]
        exact hbounded
      · exact MessagesDb.ids_bounded hmem
    have hlive := hscanned.live
    have hanchor := hscanned.anchor
    rw [hnext] at hlive hanchor
    refine ⟨⟨hreason.trans hnone, hscanned.epoch.trans hepoch⟩, fun identity hget => ?_, ?_, ?_⟩
    · rw [ingested_source]
      exact Option.some.inj (hget.symm.trans hidentity)
    · rw [ingested_source]
      exact passed_anchored Continuing.admits hpass hresult hs.anchors
    · intro _ live hplaced hpositive
      obtain rfl : s.nextLive = live :=
        Option.some.inj ((Pass.placed_signed hlive hend).symm.trans hplaced)
      have hrow : ∃ guid, s.source.guid s.nextLive = some guid := by
        rw [← hnext] at hpositive ⊢
        rcases Intake.liveEnd_mem s.source start with heq | hmem
        · rw [heq] at hpositive ⊢
          exact hguid hpositive
        · exact MessagesDb.guid_of_mem hmem
      obtain ⟨guid, hrow⟩ := hrow
      rw [hrow] at hanchor
      rw [ingested_source]
      refine ⟨guid, fun hnil => ?_, hanchor, hrow⟩
      refine hidentified ?_ hpositive (hnil ▸ hrow)
      rw [hpass, hresult]
      rfl

theorem Continuing.withJournal (hs : s.Continuing) {j : Journal}
    (hj : backdrop j = backdrop s.intake.journal) : (s.withJournal j).Continuing := by
  have hcursor {key : String} : (s.withJournal j).opening.cursor key = s.opening.cursor key := by
    obtain ⟨hepoch, hprogress⟩ := Prod.mk.inj hj
    change (j.epoch, j.ingestionProgress.get? key) = _
    rw [hepoch, hprogress]
    rfl
  have hsource : (s.withJournal j).source = s.source := rfl
  refine ⟨fun identity hget => ?_, hs.anchors, fun hknown live hplaced hpositive => ?_⟩
  · rw [hcursor] at hget
    exact hs.identity identity hget
  · rw [hcursor] at hknown ⊢
    rw [Pass.placed_congr (congrArg Prod.snd hcursor)] at hplaced
    exact hs.live hknown live hplaced hpositive

theorem Continuing.change (hs : s.Continuing) {db : MessagesDb} {inserted : List Int}
    (hupdates : s.Updates (.change db inserted)) :
    ((tracking enc).step s (.change db inserted)).Continuing := by
  obtain ⟨hidentity, hguids⟩ := hupdates
  refine ⟨fun identity hget => (hs.identity identity hget).trans hidentity.symm,
    fun row guid hget => ?_, fun hknown live hplaced hpositive => ?_⟩
  · obtain ⟨hsource, hguid⟩ := hs.anchors row guid hget
    exact ⟨hguids row guid hsource hguid, hguid⟩
  · obtain ⟨guid, hguid, hsaved, hsource⟩ := hs.live hknown live hplaced hpositive
    exact ⟨guid, hguid, hsaved, hguids live guid hsource hguid⟩

theorem Continuing.reset (hs : s.Continuing) :
    (s.wiped ((Sql.transaction (Intake.resetIntake env)).run (s.begun faults fresh))).Continuing := by
  generalize hreset : (Sql.transaction (Intake.resetIntake env)).run (s.begun faults fresh) = r
  obtain ⟨err | u, c'⟩ := r
  · rw [wiped_error hreset]
    exact hs
  · obtain ⟨hprogress, hanchors⟩ := wiped_ok hreset
    have hcursor (key : String) :
        ((s.wiped (.ok u, c')).opening.cursor key).2 = none := by
      change (s.wiped (.ok u, c')).intake.journal.ingestionProgress.get? key = none
      rw [hprogress]
      rfl
    refine ⟨fun identity hget => ?_, fun row guid hget => ?_, fun hknown => ?_⟩
    · rw [hcursor] at hget
      exact nomatch hget
    · rw [hanchors] at hget
      exact nomatch hget
    · rw [hcursor] at hknown
      exact nomatch hknown

theorem step_continuing (hs : s.Continuing) (call : TrackCall) (hupdates : s.Updates call)
    (hidentified : s.Identified enc call) : ((tracking enc).step s call).Continuing := by
  cases call with
  | change db inserted => exact hs.change hupdates
  | pass env faults fresh => exact (hs.pass hidentified).2
  | reset env faults fresh => exact hs.reset
  | request cid => exact ⟨hs.identity, hs.anchors, hs.live⟩
  | rewrite env change faults fresh =>
    exact hs.withJournal (Intake.rewrite_keeps.transaction _)
  | elsewhere f events => exact hs.withJournal rfl

end Steps

end Tracking

/-- Over a source whose file and GUIDs stay, no pass resets the journal, when each
committed pass leaves its live cursor on a row that has its GUID. -/
theorem source_recognised (enc : Encoding) (epoch : Bytes) (db : MessagesDb) (calls : List TrackCall)
    (hupdates : ∀ before call after, calls = before ++ call :: after →
      ((tracking enc).run (.new epoch db) before).Updates call)
    (hidentified : ∀ before call after, calls = before ++ call :: after →
      ((tracking enc).run (.new epoch db) before).Identified enc call)
    (before : List TrackCall) (env : PassEnv) (faults : List Bool) (fresh : List Bytes)
    (after : List TrackCall) (hcalls : calls = before ++ .pass env faults fresh :: after) :
    ((tracking enc).run (.new epoch db) before).Recognised enc env faults fresh := by
  have hinitial : (Tracking.new epoch db).Continuing :=
    ⟨fun _ hget => (nomatch hget), fun _ _ hget => (nomatch hget), fun hknown => (nomatch hknown)⟩
  have hbefore := Machine.run_invariant_when (tracking enc) (I := Tracking.Continuing)
    (C := fun s call => s.Updates call ∧ s.Identified enc call)
    (fun s call hs hcall => Tracking.step_continuing hs call hcall.1 hcall.2) (.new epoch db) before
    hinitial fun earlier call later hsplit => by
      have hprefix : calls = earlier ++ call :: (later ++ .pass env faults fresh :: after) := by
        rw [hcalls, hsplit, List.append_assoc, List.cons_append]
      exact ⟨hupdates _ _ _ hprefix, hidentified _ _ _ hprefix⟩
  exact (hbefore.pass (hidentified _ _ _ hcalls)).1

section Example

def oneRow (guid : String) : MessagesDb where
  identity := text "i"
  messages := [(1, columnsOf guid)]
  chats := [(1, chatColumns)]
  ascending := List.pairwise_singleton _ _
  bounded r hr := by
    obtain rfl := List.mem_singleton.mp hr
    exact (by decide : -(2 ^ 63) ≤ (1 : Int) ∧ (1 : Int) < 2 ^ 63)
  chatsAscending := List.pairwise_singleton _ _

theorem oneRow_guid {guid : String} {row : Int} {found : Bytes}
    (h : (oneRow guid).guid row = some found) : row = 1 ∧ found = text guid := by
  obtain ⟨c, hc, hfound⟩ := Option.map_eq_some_iff.mp h
  obtain ⟨r, hr, hcolumns⟩ := Option.map_eq_some_iff.mp hc
  obtain rfl := List.mem_singleton.mp (List.mem_of_find?_eq_some hr)
  have hrow := List.find?_some hr
  rw [decide_eq_true_eq] at hrow
  rw [← hfound, ← hcolumns]
  exact ⟨hrow.symm, rfl⟩

def firstPass : List TrackCall := [.pass plainEnv [] [text "chat", text "m1"]]

def identifying : List TrackCall := firstPass ++ [.change (oneRow "a") []]

/-- The row of the live cursor had no GUID when the cursor was saved. -/
theorem source_recognised_unidentified :
    let calls := identifying ++ [.pass plainEnv [] [text "e2", text "chat", text "m1"]]
    (∀ before call after, calls = before ++ call :: after →
      ((tracking Sample.encoding).run (.new (text "e") (oneRow "")) before).Updates call) ∧
    ¬ ((tracking Sample.encoding).run (.new (text "e") (oneRow "")) identifying).Recognised
      Sample.encoding plainEnv [] [text "e2", text "chat", text "m1"] := by
  refine ⟨?_, fun h => absurd h.2 (by decide +kernel)⟩
  refine Machine.meets_cons _ (C := Tracking.Updates) trivial (Machine.meets_cons _ ⟨rfl, ?_⟩
    (Machine.meets_cons _ trivial (Machine.meets_nil _)))
  intro row guid hrow hguid
  have hrow : (oneRow "").guid row = some guid := hrow
  exact absurd (oneRow_guid hrow).2 hguid

theorem source_recognised_identified :
    ((tracking Sample.encoding).run (.new (text "e") (oneRow "a")) identifying).Recognised
      Sample.encoding plainEnv [] [text "m2"] := by
  refine source_recognised Sample.encoding (text "e") (oneRow "a")
    (identifying ++ [.pass plainEnv [] [text "m2"]]) ?_ ?_ identifying _ _ _ [] rfl
  · exact Machine.meets_cons _ (C := Tracking.Updates) trivial (Machine.meets_cons _
      ⟨rfl, fun row guid hrow _ => hrow⟩ (Machine.meets_cons _ trivial (Machine.meets_nil _)))
  · exact Machine.meets_cons _ (C := Tracking.Identified Sample.encoding)
      (fun _ _ => by decide +kernel) (Machine.meets_cons _ trivial
      (Machine.meets_cons _ (fun _ _ => by decide +kernel) (Machine.meets_nil _)))

end Example

end Zimbr.Relay
