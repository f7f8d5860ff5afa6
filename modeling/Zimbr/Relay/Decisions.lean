import Zimbr.Relay.Imported

set_option autoImplicit false

/-!
# What a pass knows when it decides

A pass reconciles its requests after its scans, so each decision rests on every
row of the scans that has a GUID and a chat.
-/
namespace Zimbr.Relay.Intake
open Library

def recentPage (db : MessagesDb) : List Int :=
  db.rowsFor MessagesDb.rowBatchSize .recent db.high 0

section Decisions

variable (enc : Encoding) (e : PassEnv)

/-- The part of a pass between the opening of the source and the requests it
reconciles. -/
def gather (live : Int) : PassTx (Bool × List (Bytes × SendRequestRow)) := do
  let backfill ← onJournal (position "backfill")
  scanChats e (backfill = 0)
  scanLive enc e live (backfill = 0)
  scanBackfill enc e backfill
  retryPending enc e (backfill = 0)
  importRows enc e (recentPage e.source) .reconciliation (backfill = 0)
  scanRolling enc e (backfill = 0)
  scanRequested enc e (backfill = 0)
  let parts ← onJournal (Sql.query submittedRows)
  importRows enc e parts .reconciliation (backfill = 0)
  let items ← onJournal (Sql.query pendingRequests)
  return (decide (backfill = 0), items)

def conclude (complete : Bool) : PassTx Unit := do
  scanEnrichment enc e complete
  scanReactions enc e complete
  onIntake (Sql.execute fun i => { i with ordinaryAnchors := Anchors.trimAnchors i.ordinaryAnchors })
  onJournal (backfillIdentities e)

/-- A pass up to the request that it reconciles after `n` others. -/
def decision (n : Nat) : PassTx (Option (Bytes × SendRequestRow)) := do
  let live ← openSource e
  let (complete, items) ← gather enc e live
  Sql.each (reconcileRequest enc e complete) (items.take n)
  return items[n]?

theorem pass_eq : pass enc e = Sql.transaction (do
    let live ← openSource e
    let (complete, items) ← gather enc e live
    Sql.each (reconcileRequest enc e complete) items
    conclude enc e complete) := by
  simp only [pass, scan, revisit, reconcile, gather, conclude, recentPage, Sql.bind_assoc,
    Sql.pure_bind]

end Decisions

section Scans

variable {enc : Encoding} {e : PassEnv} {complete : Bool} {origin : Origin}

theorem importRows_gathering {rows : List Int} :
    Sql.Yields (Gathering e) (importRows enc e rows origin complete) :=
  Sql.Yields.each fun _ _ => importRow_gathering

theorem setProgress_brings {key : String} {value : Bytes} :
    Sql.Yields (Brings e) (onJournal (setProgress key value)) := onJournal_brings setProgress_gathers

theorem brings_gathering {α : Type} {m : PassTx α} (hm : Sql.Yields (Brings e) m) :
    Sql.Yields (Gathering e) m := hm.mono fun _ _ => Brings.gathering

theorem scanChats_gathering : Sql.Yields (Gathering e) (scanChats e complete) := by
  refine brings_gathering (Sql.Yields.bind position_brings fun after =>
    Sql.Yields.bind (Sql.Yields.each fun row _ => ?_) fun _ => setProgress_brings)
  exact Sql.Yields.bind importChat_brings fun _ => Sql.Yields.pure

theorem scanLive_gathering {live : Int} : Sql.Yields (Gathering e) (scanLive enc e live complete) :=
  Sql.Yields.bind importRows_gathering fun _ => brings_gathering
    (Sql.Yields.bind setProgress_brings fun _ => setProgress_brings)

theorem scanBackfill_gathering {backfill : Int} :
    Sql.Yields (Gathering e) (scanBackfill enc e backfill) := by
  unfold scanBackfill
  split_ifs
  · exact Sql.Yields.bind importRows_gathering fun _ => brings_gathering setProgress_brings
  · exact Sql.Yields.pure

theorem retryPending_gathering : Sql.Yields (Gathering e) (retryPending enc e complete) :=
  Sql.Yields.bind (brings_gathering (onIntake_brings Sql.Keeps.query)) fun _ => importRows_gathering

theorem scanRolling_gathering : Sql.Yields (Gathering e) (scanRolling enc e complete) := by
  unfold scanRolling
  split_ifs
  · exact Sql.Yields.bind (brings_gathering position_brings) fun _ =>
      Sql.Yields.bind importRows_gathering fun _ => brings_gathering setProgress_brings
  · exact Sql.Yields.pure

theorem scanRequested_gathering : Sql.Yields (Gathering e) (scanRequested enc e complete) := by
  refine Sql.Yields.bind (brings_gathering (onIntake_brings Sql.Keeps.query)) fun requested => ?_
  cases requested with
  | none => exact Sql.Yields.pure
  | some r =>
    exact Sql.Yields.bind importRows_gathering fun _ =>
      brings_gathering (onIntake_brings (Sql.Keeps.execute fun _ => rfl))

theorem gather_gathering {live : Int} : Sql.Yields (Gathering e) (gather enc e live) :=
  Sql.Yields.bind (brings_gathering position_brings) fun _ =>
    Sql.Yields.bind scanChats_gathering fun _ => Sql.Yields.bind scanLive_gathering fun _ =>
    Sql.Yields.bind scanBackfill_gathering fun _ => Sql.Yields.bind retryPending_gathering fun _ =>
    Sql.Yields.bind importRows_gathering fun _ => Sql.Yields.bind scanRolling_gathering fun _ =>
    Sql.Yields.bind scanRequested_gathering fun _ =>
    Sql.Yields.bind (brings_gathering (onJournal_brings Sql.Yields.query)) fun _ =>
    Sql.Yields.bind importRows_gathering fun _ =>
    Sql.Yields.bind (brings_gathering (onJournal_brings Sql.Yields.query)) fun _ => Sql.Yields.pure

theorem updateIfSome_learns {now : Int} {v : Option SendRequest} :
    Sql.Yields Learns (updateIfSome now v) := by
  intro c u c' h
  cases v with
  | none =>
    rw [(Sql.pure_ok h).2]
    exact ⟨fun _ h => h, fun h => h⟩
  | some v =>
    obtain ⟨w, c₁, hupdate, h⟩ := Sql.bind_ok h
    have hmeets := updateRequest_meets hupdate
    rw [(Sql.pure_ok h).2]
    exact ⟨fun _ h => h.congr hmeets.messages, fun h => h.congr hmeets.messages hmeets.cache⟩

theorem recordObservation_gathers {now : Int} {id : Bytes} :
    Sql.Yields Gathers (Sql.execute? (recordObservation now id) : Tx Unit) := by
  refine Sql.Yields.execute? fun j j' h => ?_
  unfold recordObservation at h
  split_ifs at h
  rw [← Option.some.inj h]
  exact gathers_of_eq rfl rfl rfl

theorem gathering_learning {α : Type} {m : PassTx α} (hm : Sql.Yields (Gathering e) m) :
    Sql.Yields (Learning e) m := hm.mono fun _ _ => Gathering.toLearning

theorem brings_learning {α : Type} {m : PassTx α} (hm : Sql.Yields (Brings e) m) :
    Sql.Yields (Learning e) m := gathering_learning (brings_gathering hm)

/-- Every message that an earlier decision knew is known to the next one. -/
theorem reconcileRequest_learning {item : Bytes × SendRequestRow} :
    Sql.Yields (Learning e) (reconcileRequest enc e complete item) := by
  refine Sql.Yields.bind (brings_learning (onJournal_brings recordObservation_gathers)) fun _ => ?_
  split
  · exact Sql.Yields.bind (brings_learning (onJournal_brings Sql.Yields.query)) fun _ =>
      Sql.Yields.bind (gathering_learning importRows_gathering) fun _ =>
      Sql.Yields.bind (brings_learning (onJournal_brings Sql.Yields.query)) fun _ =>
      onJournal_learning updateIfSome_learns
  · exact Sql.Yields.bind (brings_learning (onJournal_brings Sql.Yields.query)) fun _ =>
      onJournal_learning updateIfSome_learns

theorem rewrite_gathers {change : Bytes × (Message → Message)} :
    Sql.Yields Gathers (rewrite enc e change) := by
  refine Sql.Yields.bind Sql.Yields.query fun found => ?_
  cases found with
  | none => exact Sql.Yields.pure
  | some r => exact fun _ _ _ h => (message_gathers h).1

theorem scanEnrichment_learning : Sql.Yields (Learning e) (scanEnrichment enc e complete) := by
  refine Sql.Yields.bind (brings_learning (onJournal_brings
    (Sql.Yields.of_reads (progress_reads _)))) fun stored => ?_
  dsimp only
  split_ifs
  · exact Sql.Yields.pure
  · refine Sql.Yields.bind (gathering_learning importRows_gathering) fun _ => ?_
    split
    · exact brings_learning setProgress_brings
    · exact brings_learning setProgress_brings

theorem scanReactions_learning : Sql.Yields (Learning e) (scanReactions enc e complete) := by
  have hrewrite {changes : List (Bytes × (Message → Message))} :
      Sql.Yields (Learning e) (onJournal (Sql.each (rewrite enc e) changes)) :=
    brings_learning (onJournal_brings (Sql.Yields.each fun _ _ => rewrite_gathers))
  unfold scanReactions
  split_ifs
  · exact Sql.Yields.bind hrewrite fun _ =>
      Sql.Yields.bind (gathering_learning importRows_gathering) fun _ =>
      Sql.Yields.bind (gathering_learning importRows_gathering) fun _ => hrewrite
  · exact Sql.Yields.pure

theorem backfillIdentities_gathers : Sql.Yields Gathers (backfillIdentities e) := by
  refine Sql.Yields.bind (Sql.Yields.of_reads (progress_reads _)) fun stored => ?_
  dsimp only
  split_ifs
  · exact Sql.Yields.pure
  · refine Sql.Yields.bind Sql.Yields.query fun rows =>
      Sql.Yields.bind (Sql.Yields.each fun r _ => ?_) fun _ => setProgress_gathers
    split_ifs
    · exact Sql.Yields.bind observeIdentity_gathers fun _ => Sql.Yields.pure
    · exact Sql.Yields.pure

theorem conclude_learning : Sql.Yields (Learning e) (conclude enc e complete) :=
  Sql.Yields.bind scanEnrichment_learning fun _ => Sql.Yields.bind scanReactions_learning fun _ =>
    Sql.Yields.bind (brings_learning (onIntake_brings (Sql.Keeps.execute fun _ => rfl))) fun _ =>
    brings_learning (onJournal_brings backfillIdentities_gathers)

end Scans

section Opening

structure Opens (p p' : Pass) : Prop where
  cached : Cached p.intake.journal → Cached p'.intake.journal
  rows : p'.rows = p.rows
  chats : p'.chats = p.chats

instance : Std.Refl Opens where
  refl _ := ⟨fun h => h, rfl, rfl⟩

instance : IsTrans Pass Opens where
  trans _ _ _ h h' := ⟨fun hc => h'.cached (h.cached hc), h'.rows.trans h.rows,
    h'.chats.trans h.chats⟩

variable {enc : Encoding} {e : PassEnv}

theorem onJournal_opens {α : Type} {m : Tx α} (hm : Sql.Yields Gathers m) :
    Sql.Yields Opens (onJournal m) :=
  hm.zoom fun _ _ h => ⟨h.cached, rfl, rfl⟩

theorem onIntake_opens {α : Type} {m : Sql Error Intake Bytes α} (hm : Sql.Keeps Intake.journal m) :
    Sql.Yields Opens (onIntake m) :=
  (Sql.Yields.of_keeps (R := fun i i' : Intake => i'.journal = i.journal) hm fun _ _ h => h).zoom
    fun _ _ h => ⟨fun hc => hc.congr (by rw [h]) (by rw [h]), rfl, rfl⟩

theorem reset_cached {now : Int} {c c' : Conn Journal Bytes} {u : Unit}
    (h : (reset now).run c = (.ok u, c')) : Cached c'.db := by
  obtain ⟨_, c₁, hcache, h⟩ := Sql.bind_ok h
  obtain ⟨items, c₂, hitems, h⟩ := Sql.bind_ok h
  obtain ⟨epoch, c₃, hepoch, h⟩ := Sql.bind_ok h
  obtain ⟨_, c₄, hclear, h⟩ := Sql.bind_ok h
  obtain ⟨_, c₅, hloop, hmark⟩ := Sql.bind_ok h
  have hcleared : c₄.db.sourceMessageCache = .empty := by
    rw [Sql.execute_ok hclear, (Sql.draw_ok hepoch).2, (Sql.query_ok hitems).2,
      Sql.execute_ok hcache]
    rfl
  have hheld : c₅.db.sourceMessageCache = c₄.db.sourceMessageCache := by
    refine Sql.each_ok (I := fun c' => c'.db.sourceMessageCache = c₄.db.sourceMessageCache) ?_ hloop rfl
    intro row _ d d' _ hI h
    obtain ⟨v, d₁, hv, h⟩ := Sql.bind_ok h
    rw [(Sql.orThrow_ok hv).2] at h
    split_ifs at h
    · obtain ⟨w, d₂, hwrite, h⟩ := Sql.bind_ok h
      rw [(Sql.pure_ok h).2, (updateRequest_meets hwrite).cache, hI]
    · rw [Sql.execute_ok h]
      exact hI
  intro slot entry hentry
  rw [Sql.execute_ok hmark] at hentry
  change c₅.db.sourceMessageCache.get? slot = some entry at hentry
  rw [hheld, hcleared] at hentry
  exact nomatch hentry

theorem setProgress_opens {key : String} {value : Bytes} :
    Sql.Yields Opens (onJournal (setProgress key value)) := onJournal_opens setProgress_gathers

theorem resetIntake_opens : Sql.Yields Opens (resetIntake e) := by
  intro c u c' h
  obtain ⟨_, c₁, hreset, h⟩ := Sql.bind_ok h
  obtain ⟨d, hrun, hdb, -⟩ := Sql.zoom_ok hreset
  have hyields : Sql.Yields Opens (onIntake (Sql.execute fun i => { journal := i.journal })) :=
    onIntake_opens (Sql.Keeps.execute fun _ => rfl)
  refine IsTrans.trans _ _ _ ?_ (hyields _ _ _ h)
  rw [hdb]
  exact ⟨fun _ => reset_cached hrun, rfl, rfl⟩

theorem startImport_opens : Sql.Yields Opens (startImport e) :=
  Sql.Yields.bind setProgress_opens fun _ => Sql.Yields.bind setProgress_opens fun _ =>
    Sql.Yields.bind setProgress_opens fun _ => Sql.Yields.bind setProgress_opens fun _ =>
    Sql.Yields.bind setProgress_opens fun _ => Sql.Yields.bind setProgress_opens fun _ =>
    Sql.Yields.pure

theorem checkLive_opens {legacy : Bool} {anchors : Nat} {live : Int} :
    Sql.Yields Opens (checkLive e legacy anchors live) := by
  have hrebase : Sql.Yields Opens (rebase live) :=
    Sql.Yields.bind (onIntake_opens Sql.Keeps.query) fun _ =>
      Sql.Yields.bind (Sql.Yields.note fun _ => ⟨fun h => h, rfl, rfl⟩) fun _ =>
      Sql.Yields.bind setProgress_opens fun _ => Sql.Yields.bind setProgress_opens fun _ =>
      Sql.Yields.pure
  have hdeleted {saved : Option Bytes} : Sql.Yields Opens (deletedRow e legacy anchors live saved) := by
    refine Sql.Yields.bind Sql.Yields.peek fun i => ?_
    split_ifs
    · exact Sql.Yields.lift
    · exact Sql.Yields.pure
  unfold checkLive
  split_ifs
  · refine Sql.Yields.bind (onJournal_opens (Sql.Yields.of_reads (progress_reads _))) fun saved => ?_
    split_ifs
    · refine Sql.Yields.bind hdeleted fun deleted => ?_
      split_ifs
      · exact Sql.Yields.bind hrebase fun _ => Sql.Yields.pure
      · exact Sql.Yields.pure
    · exact Sql.Yields.pure
  · exact Sql.Yields.pure

theorem checkSource_opens {identity : Bytes} {live : Int} :
    Sql.Yields Opens (checkSource e identity live) := by
  unfold checkSource
  dsimp only
  split_ifs
  · exact Sql.Yields.pure
  · refine Sql.Yields.bind (onIntake_opens Sql.Keeps.query) fun kept =>
      Sql.Yields.bind (onIntake_opens (Sql.Keeps.execute fun _ => rfl)) fun _ => ?_
    split_ifs
    · exact Sql.Yields.pure
    · refine Sql.Yields.bind checkLive_opens fun checked => Sql.Yields.bind (onJournal_opens ?_)
        fun _ => Sql.Yields.pure
      split_ifs
      · exact setProgress_gathers
      · exact Sql.Yields.pure

theorem openSource_opens : Sql.Yields Opens (openSource e) := by
  refine Sql.Yields.bind (onJournal_opens (Sql.Yields.of_reads (progress_reads _))) fun identity =>
    Sql.Yields.bind (onJournal_opens (Sql.Yields.of_reads (position_reads _))) fun live => ?_
  cases identity with
  | none => exact startImport_opens
  | some identity =>
    refine Sql.Yields.bind checkSource_opens fun checked => ?_
    split_ifs
    · exact Sql.Yields.bind (Sql.Yields.note fun _ => ⟨fun h => h, rfl, rfl⟩) fun _ =>
        Sql.Yields.bind resetIntake_opens fun _ => startImport_opens
    · exact Sql.Yields.pure

end Opening

section Evidence

variable {enc : Encoding} {e : PassEnv} {c c' : Conn Pass Bytes}

theorem gather_ok {live : Int} {complete : Bool} {items : List (Bytes × SendRequestRow)}
    (h : (gather enc e live).run c = (.ok (complete, items), c')) :
    (∀ row, row ∈ livePage e.source live ∨ row ∈ recentPage e.source → row ∈ c'.db.rows) ∧
      items = pendingRequests c'.db.intake.journal := by
  obtain ⟨backfill, c₁, -, h⟩ := Sql.bind_ok h
  obtain ⟨_, c₂, -, h⟩ := Sql.bind_ok h
  obtain ⟨_, c₃, hlive, h⟩ := Sql.bind_ok h
  obtain ⟨_, c₄, hbackfill, h⟩ := Sql.bind_ok h
  obtain ⟨_, c₅, hpending, h⟩ := Sql.bind_ok h
  obtain ⟨_, c₆, hrecent, h⟩ := Sql.bind_ok h
  obtain ⟨_, c₇, hrolling, h⟩ := Sql.bind_ok h
  obtain ⟨_, c₈, hrequested, h⟩ := Sql.bind_ok h
  obtain ⟨parts, c₉, hparts, h⟩ := Sql.bind_ok h
  obtain ⟨_, c₁₀, hsubmitted, h⟩ := Sql.bind_ok h
  obtain ⟨found, c₁₁, hitems, h⟩ := Sql.bind_ok h
  obtain ⟨d, hquery, hdb, -⟩ := Sql.zoom_ok hitems
  obtain ⟨hresult, hc'⟩ := Sql.pure_ok h
  rw [Prod.mk.injEq] at hresult
  have hlater : Learning e c₆.db c'.db := by
    rw [hc']
    refine IsTrans.trans _ _ _ (scanRolling_gathering _ _ _ hrolling).toLearning ?_
    refine IsTrans.trans _ _ _ (scanRequested_gathering _ _ _ hrequested).toLearning ?_
    refine IsTrans.trans _ _ _ (brings_learning (onJournal_brings Sql.Yields.query) _ _ _ hparts) ?_
    refine IsTrans.trans _ _ _ (importRows_gathering _ _ _ hsubmitted).toLearning ?_
    exact brings_learning (onJournal_brings Sql.Yields.query) _ _ _ hitems
  refine ⟨fun row hrow => hlater.visits row ?_, ?_⟩
  · rcases hrow with hrow | hrow
    · refine (importRows_gathering _ _ _ hrecent).visits row ?_
      refine (retryPending_gathering _ _ _ hpending).visits row ?_
      exact (scanBackfill_gathering _ _ _ hbackfill).visits row ((scanLive_ok hlive).2.2 row hrow)
    · exact importRows_rows hrecent hrow
  · obtain ⟨rfl, hd⟩ := Sql.query_ok hquery
    rw [hresult.2, hc', hdb]
    change pendingRequests c₁₀.db.intake.journal = pendingRequests d.db
    rw [hd]

/-- What a decision rests on: the rows of the scans, and what was imported before. -/
theorem decision_ok {n : Nat} {item : Bytes × SendRequestRow}
    (h : (decision enc e n).run c = (.ok (some item), c')) (hcached : Cached c.db.intake.journal)
    (hrows : c.db.rows = []) (hchats : c.db.chats = []) :
    ∃ start c₁, (openSource e).run c = (.ok start, c₁) ∧ Evident e c'.db ∧
      (∀ row, row ∈ livePage e.source start ∨ row ∈ recentPage e.source → row ∈ c'.db.rows) ∧
      (∀ source, Imported c₁.db.intake.journal source → Imported c'.db.intake.journal source) ∧
      c₁.db.intake.journal.sendRequests.get? item.1 = some item.2 := by
  obtain ⟨start, c₁, hopen, h⟩ := Sql.bind_ok h
  obtain ⟨⟨complete, items⟩, c₂, hgather, h⟩ := Sql.bind_ok h
  obtain ⟨_, c₃, heach, h⟩ := Sql.bind_ok h
  obtain ⟨hitem, hc'⟩ := Sql.pure_ok h
  have hopens := openSource_opens _ _ _ hopen
  have hevident : Evident e c₁.db := by
    refine ⟨hopens.cached hcached, fun row hrow => ?_, fun row hrow => ?_⟩
    · rw [hopens.chats, hchats] at hrow
      exact absurd hrow List.not_mem_nil
    · rw [hopens.rows, hrows] at hrow
      exact absurd hrow List.not_mem_nil
  have hgathering := gather_gathering _ _ _ hgather
  obtain ⟨hvisited, hpending⟩ := gather_ok hgather
  have hdecided : Learning e c₂.db c'.db := by
    rw [hc']
    exact Sql.Yields.each (fun _ _ => reconcileRequest_learning) _ _ _ heach
  refine ⟨start, c₁, hopen, hdecided.evident (hgathering.evident hevident),
    fun row hrow => hdecided.visits row (hvisited row hrow),
    fun source hs => hdecided.learns.imported source (hgathering.learns.imported source hs), ?_⟩
  have hmem : item ∈ items := List.mem_of_getElem? hitem.symm
  rw [hpending] at hmem
  rw [← hgathering.requests]
  exact ((pendingRequests_spec c₂.db.intake.journal).2 item hmem).1

end Evidence

end Zimbr.Relay.Intake
