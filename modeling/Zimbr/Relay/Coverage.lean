import Mathlib.Data.List.Pairwise
import Zimbr.Relay.Dispatch
import Zimbr.Relay.Tracking

set_option autoImplicit false

/-!
# No row is skipped

New rows appear above every earlier one and rows may disappear. Between two
resets the live cursor and the backfill frontier then leave no row out.
-/
namespace Zimbr.Relay
open Library

namespace MessagesDb

variable {db : MessagesDb} {row : Int}

theorem ids_bounded (h : row ∈ db.ids) : -(2 ^ 63) ≤ row ∧ row < 2 ^ 63 := by
  obtain ⟨r, hr, rfl⟩ := List.mem_map.mp h
  exact db.bounded r hr

theorem high_mem : db.high = 0 ∨ db.high ∈ db.ids := by
  unfold high
  rw [List.getLastD_eq_getLast?]
  cases hlast : db.ids.getLast? with
  | none => exact Or.inl rfl
  | some last => exact Or.inr (List.mem_of_getLast? hlast)

theorem le_high (h : row ∈ db.ids) : row ≤ db.high := by
  have hordered : db.ids.Pairwise (· ≤ ·) := db.ascending.imp le_of_lt
  have hlast : db.high = db.ids.getLast (List.ne_nil_of_mem h) := by
    unfold high
    rw [List.getLastD_eq_getLast?, List.getLast?_eq_some_getLast (List.ne_nil_of_mem h)]
    rfl
  rw [hlast]
  exact hordered.rel_getLast h

theorem mem_ids {c : MessageColumns} (h : db.columns row = some c) : row ∈ db.ids := by
  obtain ⟨r, hr, -⟩ := Option.map_eq_some_iff.mp h
  have hrow := List.find?_some hr
  rw [decide_eq_true_eq] at hrow
  exact List.mem_map.mpr ⟨r, List.mem_of_find?_eq_some hr, hrow⟩

end MessagesDb

theorem Pass.placed_signed {p : Pass} {key : String} {n : Int}
    (h : (p.cursor key).2 = some (signed n)) (hbounded : -(2 ^ 63) ≤ n ∧ n < 2 ^ 63) :
    p.placed key = some n := by
  unfold Pass.placed
  rw [h]
  exact parseInt_signed hbounded.1 hbounded.2

theorem Pass.placed_bounded {p : Pass} {key : String} {n : Int} (h : p.placed key = some n) :
    -(2 ^ 63) ≤ n ∧ n < 2 ^ 63 := by
  unfold Pass.placed at h
  cases hcursor : (p.cursor key).2 with
  | none =>
    rw [hcursor] at h
    obtain rfl := Option.some.inj h
    decide
  | some s =>
    rw [hcursor] at h
    exact parseInt_bounded h

theorem Pass.placed_congr {p p' : Pass} {key : String}
    (h : (p'.cursor key).2 = (p.cursor key).2) : p'.placed key = p.placed key := by
  unfold Pass.placed
  rw [h]

namespace Intake

variable {db : MessagesDb} {start frontier : Int}

theorem liveEnd_mem (db : MessagesDb) (start : Int) :
    liveEnd db start = start ∨ liveEnd db start ∈ db.ids := by
  unfold liveEnd
  rw [List.getLastD_eq_getLast?]
  cases hlast : (livePage db start).getLast? with
  | none => exact Or.inl rfl
  | some last => exact Or.inr (Scan.mem_after (List.mem_of_getLast? hlast)).1

theorem backfillEnd_mem (db : MessagesDb) (frontier : Int) :
    backfillEnd db frontier = 0 ∨ backfillEnd db frontier + 1 ∈ db.ids := by
  unfold backfillEnd
  cases hlast : (backfillPage db frontier).getLast? with
  | none => exact Or.inl rfl
  | some last =>
    refine Or.inr ?_
    rw [Option.map_some, Option.getD_some, Int.sub_add_cancel]
    exact (Scan.mem_upTo (List.mem_of_getLast? hlast)).1

/-- Both pages move their cursor past what they visit and nothing else. -/
theorem scanned_covered {p p' : Pass} {visited : List Int}
    (hscanned : Scanned db start frontier p p')
    (hcovered : Scan.Covered db.ids start frontier visited) :
    Scan.Covered db.ids (liveEnd db start) (if 0 < frontier then backfillEnd db frontier else frontier)
      (p'.rows ++ visited) := by
  have hforward := Scan.Covered.forward (n := MessagesDb.rowBatchSize) db.ascending hcovered
  by_cases hpositive : 0 < frontier
  · rw [if_pos hpositive]
    have hlast (last : Int) (h : (Scan.upTo db.ids frontier initialImportLimit).getLast? = some last)
        (k : Int) (_ : k ∈ db.ids) (hk : k < last) : k ≤ backfillEnd db frontier := by
      have hend : backfillEnd db frontier = last - 1 := by
        unfold backfillEnd
        exact congrArg (fun o : Option Int => (o.map (· - 1)).getD 0) h
      omega
    have hbackward := hforward.backward db.ascending (by decide) hlast
    refine hbackward.mono fun k hk => ?_
    rcases List.mem_append.mp hk with hold | hk
    · exact List.mem_append_left _ (hscanned.visited k (Or.inr (Or.inr ⟨hpositive, hold⟩)))
    · rcases List.mem_append.mp hk with hlive | hvisited
      · exact List.mem_append_left _ (hscanned.visited k (Or.inr (Or.inl hlive)))
      · exact List.mem_append_right _ hvisited
  · rw [if_neg hpositive]
    refine hforward.mono fun k hk => ?_
    rcases List.mem_append.mp hk with hlive | hvisited
    · exact List.mem_append_left _ (hscanned.visited k (Or.inr (Or.inl hlive)))
    · exact List.mem_append_right _ hvisited

end Intake

namespace Tracking

/-- Each row is above the live cursor, at or below the frontier that is still to
be visited, or was given to `importRow`. -/
def Covered (s : Tracking) : Prop :=
  ∃ live backfill, s.opening.placed "live" = some live ∧
    s.opening.placed "backfill" = some backfill ∧
    ∀ row ∈ s.source.ids, live < row ∨ (0 < backfill ∧ row ≤ backfill) ∨ row ∈ s.visited

/-- The new rows are above every row that the source has had. -/
def Appends (s : Tracking) : TrackCall → Prop
  | .change db _ => ∀ row ∈ db.ids, row ∈ s.source.ids ∨ s.top < row
  | _ => True

structure Covering (s : Tracking) : Prop where
  rows : ∀ row ∈ s.source.ids, 0 < row ∧ row ≤ s.top
  top : 0 ≤ s.top ∧ s.top < 2 ^ 63
  anchors : Anchored (fun row _ => 0 < row ∧ row < 2 ^ 63) s.intake.ordinaryAnchors
  cursors : ∃ live backfill, s.opening.placed "live" = some live ∧
    s.opening.placed "backfill" = some backfill ∧ 0 ≤ live ∧ live ≤ s.top ∧
    0 ≤ backfill ∧ backfill < 2 ^ 63 ∧ Scan.Covered s.source.ids live backfill s.visited

theorem Covering.covered {s : Tracking} (hs : s.Covering) : s.Covered := by
  obtain ⟨live, backfill, hlive, hbackfill, -, -, -, -, hcovered⟩ := hs.cursors
  refine ⟨live, backfill, hlive, hbackfill, fun row hrow => ?_⟩
  have hpositive := (hs.rows row hrow).1
  exact (hcovered row hrow).imp_right (Or.imp_left fun hle => ⟨by omega, hle⟩)

section Steps

variable {enc : Encoding} {s : Tracking} {env : PassEnv} {faults : List Bool} {fresh : List Bytes}

theorem Covering.positive (hs : s.Covering) {start : Int}
    (hstart : start = 0 ∨ start ∈ s.source.ids) : 0 ≤ start ∧ start ≤ s.top := by
  rcases hstart with rfl | hmem
  · exact ⟨le_refl 0, hs.top.1⟩
  · have hrow := hs.rows start hmem
    exact ⟨by omega, hrow.2⟩

theorem Covering.admits (hs : s.Covering) :
    Intake.Admits (fun row _ => 0 < row ∧ row < 2 ^ 63) s.source := by
  intro row c hcolumns _
  have hmem := MessagesDb.mem_ids hcolumns
  exact ⟨(hs.rows row hmem).1, (MessagesDb.ids_bounded hmem).2⟩

theorem Covering.opened (hs : s.Covering) {start frontier : Int} {p : Pass}
    (hopened : Intake.Opened s.source s.opening start p)
    (hfrontier : p.placed "backfill" = some frontier) :
    0 ≤ start ∧ start ≤ s.top ∧ 0 ≤ frontier ∧ frontier < 2 ^ 63 ∧
      Scan.Covered s.source.ids start frontier
        (if (s.opening.cursor "identity").2.isNone || p.resetReason.isSome then [] else s.visited) := by
  obtain ⟨live, backfill, hlive, hbackfill, hlow, hhigh, hlow', hhigh', hcovered⟩ := hs.cursors
  have happart : Apart "backfill" := apart_of_head (by decide)
  cases hopened with
  | resumed known placed cursor reason unmoved =>
    rw [Pass.placed_congr (congrArg Prod.snd (cursor _ happart (by decide))), hbackfill] at hfrontier
    rw [hlive] at placed
    obtain rfl := Option.some.inj hfrontier
    obtain rfl := Option.some.inj placed
    rw [reason, ← Option.not_isSome, known]
    exact ⟨hlow, hhigh, hlow', hhigh', hcovered⟩
  | rebased old known placed positive anchor live' cursor reason moved =>
    rw [Pass.placed_congr (congrArg Prod.snd (cursor _ happart (by decide))), hbackfill] at hfrontier
    rw [hlive] at placed
    obtain rfl := Option.some.inj hfrontier
    obtain rfl := Option.some.inj placed
    have hstart : 0 ≤ start ∧ start ≤ live := by
      rcases anchor with rfl | ⟨guid, hget, hlt⟩
      · exact ⟨le_refl 0, hlow⟩
      · have hrow := hs.anchors start guid hget
        exact ⟨by omega, by omega⟩
    rw [reason, ← Option.not_isSome, known]
    exact ⟨hstart.1, by omega, hlow', hhigh', hcovered.rebase hstart.2⟩
  | started start_eq live' backfill' reason =>
    obtain ⟨hlow₁, hhigh₁⟩ := hs.positive (start_eq ▸ MessagesDb.high_mem)
    have htop := hs.top.2
    rw [Pass.placed_signed backfill' ⟨by omega, by omega⟩] at hfrontier
    obtain rfl := Option.some.inj hfrontier
    refine ⟨hlow₁, hhigh₁, hlow₁, by omega, fun row hrow => Or.inr (Or.inl ?_)⟩
    rw [start_eq]
    exact MessagesDb.le_high hrow

theorem Covering.pass (hs : s.Covering) : (s.ingested (s.passed enc env faults fresh)).Covering := by
  generalize hpass : s.passed enc env faults fresh = r
  cases hresult : r.1 with
  | error err =>
    rw [passed_error hpass hresult]
    exact hs
  | ok u =>
    obtain ⟨start, frontier, p, hopened, hfrontier, hscanned, hbegins⟩ := passed_ok hpass hresult
    obtain ⟨hlow, hhigh, hlow', hhigh', hcovered⟩ := hs.opened hopened hfrontier
    obtain ⟨hlive, hlive'⟩ : 0 ≤ Intake.liveEnd s.source start ∧
        Intake.liveEnd s.source start ≤ s.top := by
      rcases Intake.liveEnd_mem s.source start with heq | hmem
      · rw [heq]
        exact ⟨hlow, hhigh⟩
      · exact hs.positive (Or.inr hmem)
    obtain ⟨hend, hend'⟩ : 0 ≤ Intake.backfillEnd s.source frontier ∧
        Intake.backfillEnd s.source frontier < 2 ^ 63 := by
      rcases Intake.backfillEnd_mem s.source frontier with heq | hmem
      · rw [heq]
        omega
      · have hrow := hs.rows _ hmem
        have hbound := MessagesDb.ids_bounded hmem
        omega
    have hbound := hs.top.2
    refine ⟨?_, ?_, ?_, Intake.liveEnd s.source start,
      if 0 < frontier then Intake.backfillEnd s.source frontier else frontier, ?_, ?_, hlive, ?_,
      ?_, ?_, ?_⟩
    · rw [ingested_source, ingested_top]
      exact hs.rows
    · rw [ingested_top]
      exact hs.top
    · exact passed_anchored hs.admits hpass hresult hs.anchors
    · exact Pass.placed_signed hscanned.live ⟨by omega, by omega⟩
    · split_ifs with hpositive
      · exact Pass.placed_signed (hscanned.backfill.trans (if_pos hpositive)) ⟨by omega, hend'⟩
      · rw [← hfrontier]
        exact Pass.placed_congr (hscanned.backfill.trans (if_neg hpositive))
    · rw [ingested_top]
      exact hlive'
    · split_ifs
      · exact hend
      · exact hlow'
    · split_ifs
      · exact hend'
      · exact hhigh'
    · rw [ingested_source, ingested_visited, hbegins]
      exact Intake.scanned_covered hscanned hcovered

theorem Covering.withJournal (hs : s.Covering) {j : Journal}
    (hj : backdrop j = backdrop s.intake.journal) : (s.withJournal j).Covering := by
  have hplaced {key : String} : (s.withJournal j).opening.placed key = s.opening.placed key := by
    refine Pass.placed_congr ?_
    exact congrArg (Table.get? · key) (congrArg Prod.snd hj)
  obtain ⟨live, backfill, hlive, hbackfill, hrest⟩ := hs.cursors
  exact ⟨hs.rows, hs.top, hs.anchors, live, backfill, hplaced.trans hlive,
    hplaced.trans hbackfill, hrest⟩

theorem Covering.reset (hs : s.Covering) :
    (s.wiped ((Sql.transaction (Intake.resetIntake env)).run (s.begun faults fresh))).Covering := by
  generalize hreset : (Sql.transaction (Intake.resetIntake env)).run (s.begun faults fresh) = r
  obtain ⟨err | u, c'⟩ := r
  · rw [wiped_error hreset]
    exact hs
  · obtain ⟨hprogress, hanchors⟩ := wiped_ok hreset
    have hplaced (key : String) : (s.wiped (.ok u, c')).opening.placed key = some 0 := by
      unfold Pass.placed Pass.cursor
      change ((s.wiped (.ok u, c')).intake.journal.ingestionProgress.get? key).elim (some 0)
        parseInt = some 0
      rw [hprogress]
      rfl
    refine ⟨hs.rows, hs.top, ?_, 0, 0, hplaced _, hplaced _, le_refl 0, hs.top.1, le_refl 0,
      by decide, fun row hrow => Or.inl (hs.rows row hrow).1⟩
    intro row guid hget
    rw [hanchors] at hget
    exact nomatch hget

theorem Covering.change (hs : s.Covering) {db : MessagesDb} {inserted : List Int}
    (happends : s.Appends (.change db inserted)) :
    ((tracking enc).step s (.change db inserted)).Covering := by
  have hrows (row : Int) (hrow : row ∈ db.ids) : 0 < row ∧ row ≤ max s.top db.high := by
    have hhigh := MessagesDb.le_high hrow
    refine ⟨?_, le_max_of_le_right hhigh⟩
    rcases happends row hrow with hold | hnew
    · exact (hs.rows row hold).1
    · exact lt_of_le_of_lt hs.top.1 hnew
  obtain ⟨live, backfill, hlive, hbackfill, hlow, hhigh, hlow', hhigh', hcovered⟩ := hs.cursors
  refine ⟨hrows, ⟨le_max_of_le_left hs.top.1, max_lt hs.top.2 ?_⟩, hs.anchors, live, backfill,
    hlive, hbackfill, hlow, le_max_of_le_left hhigh, hlow', hhigh', hcovered.changes fun row hrow => ?_⟩
  · rcases db.high_mem with hzero | hmem
    · rw [hzero]
      decide
    · exact (MessagesDb.ids_bounded hmem).2
  · exact (happends row hrow).imp_right (lt_of_le_of_lt hhigh)

theorem step_covering (hs : s.Covering) (call : TrackCall) (happends : s.Appends call) :
    ((tracking enc).step s call).Covering := by
  cases call with
  | change db inserted => exact hs.change happends
  | pass env faults fresh => exact hs.pass
  | reset env faults fresh => exact hs.reset
  | request cid => exact ⟨hs.rows, hs.top, hs.anchors, hs.cursors⟩
  | rewrite env change faults fresh =>
    exact hs.withJournal (Intake.rewrite_keeps.transaction _)
  | elsewhere f events => exact hs.withJournal rfl

end Steps

end Tracking

/-- In every run over a source whose new rows appear above all earlier ones, each
row is above the live cursor, at or below the frontier of the backfill, or was
given to `importRow` by a committed pass of the import. -/
theorem source_covered (enc : Encoding) (epoch : Bytes) (calls : List TrackCall)
    (happends : ∀ before call after, calls = before ++ call :: after →
      ((tracking enc).run (.new epoch .empty) before).Appends call) :
    ((tracking enc).run (.new epoch .empty) calls).Covered := by
  have hinitial : (Tracking.new epoch .empty).Covering :=
    ⟨fun row hrow => absurd hrow List.not_mem_nil, ⟨le_refl 0, Int.pow_pos (by decide)⟩,
      fun row guid hget => (nomatch hget), 0, 0, rfl, rfl, le_refl 0, le_refl 0, le_refl 0,
      by decide, fun row hrow => absurd hrow List.not_mem_nil⟩
  exact Tracking.Covering.covered (Machine.run_invariant_when (tracking enc)
    (I := Tracking.Covering) (C := Tracking.Appends)
    (fun s call hs hcall => Tracking.step_covering hs call hcall) _ calls hinitial happends)

section Example

def chatColumns : MessagesDb.ChatColumns where
  guid := text "chat"
  service := text "iMessage"

def columnsOf (guid : String) : MessagesDb.MessageColumns where
  guid := text guid
  service := text "iMessage"
  text := text "hello"
  isFromMe := 1
  chatId := 1

/-- Three rows, then the highest one is deleted and another one appears. -/
def threeRows : MessagesDb where
  identity := text "i"
  messages := [(1, columnsOf "a"), (2, columnsOf "b"), (3, columnsOf "c")]
  chats := [(1, chatColumns)]
  ascending := by decide
  bounded := by decide
  chatsAscending := by decide

def oneReplaced : MessagesDb where
  identity := text "i"
  messages := [(1, columnsOf "a"), (2, columnsOf "b"), (4, columnsOf "d")]
  chats := [(1, chatColumns)]
  ascending := by decide
  bounded := by decide
  chatsAscending := by decide

def plainEnv : PassEnv where
  now := 0
  source := threeRows
  decoders := {
    body := fun _ => .error .malformed
    parts := fun _ _ _ => .error .malformed
    link := fun _ => { state := .complete }
    bindLocalArtwork := fun _ _ artwork => artwork
    reaction := fun _ _ _ _ => none
    hashId := id }
  assets := fun _ m => (m.value.attachments, m.value.linkPreviews)
  reactionEvent := fun _ _ _ => none

/-- The first pass imports the rows, the second one rebases its live cursor. -/
def replacing : List TrackCall := [.change threeRows [1, 2, 3],
  .pass plainEnv [] [text "chat", text "m1", text "m2", text "m3"],
  .change oneReplaced [4], .pass plainEnv [] [text "m4"]]

theorem source_covered_replaced :
    ((tracking Sample.encoding).run (.new (text "e") .empty) replacing).Covered := by
  refine source_covered Sample.encoding (text "e") replacing ?_
  have hfirst : ∀ row ∈ threeRows.ids, row ∈ ([] : List Int) ∨ 0 < row := by decide
  have hsecond : ∀ row ∈ oneReplaced.ids, row ∈ threeRows.ids ∨ 3 < row := by decide
  refine Machine.meets_cons _ (C := Tracking.Appends) hfirst (Machine.meets_cons _ trivial
    (Machine.meets_cons _ ?_ (Machine.meets_cons _ trivial (Machine.meets_nil _))))
  intro row hrow
  exact hsecond row hrow

end Example

end Zimbr.Relay
