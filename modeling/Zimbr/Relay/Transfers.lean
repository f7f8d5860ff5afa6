import Zimbr.Relay.Host

set_option autoImplicit false

/-!
# Transfers of uploads

What each system call of a transfer or a removal does to the disk, and what a
step of the relay does to the rows they work for.
-/
namespace Zimbr.Relay
open Library Files

def Intact (sha256 : Bytes → Bytes) (disk : Storage) (file : Upload) : Prop :=
  ∃ f, disk.file? file.id file.name = some f ∧ Attachments.validate file = .ok f.bytes.length ∧
    hexToBytes file.sha256 = some (sha256 f.bytes) ∧ f.synced = true

namespace Files

def Removal.Opened (r : Removal) (disk : Storage) : Prop :=
  ∀ directory, r.directory = some directory → disk.handle? r.id = some directory

/-- The temporary file holds the bytes the hash was fed. -/
structure Transfer.Receiving (t : Transfer) (disk : Storage) (lease : Uploads.Lease) : Prop where
  planned : plan lease = some t.toPlan
  counted : t.received = t.hashed.length
  stored : ∃ d f, disk.directories.get? lease.file.id = some d ∧ d.handle = t.directory ∧
    d.files.get? t.temporary = some f ∧ f.handle = t.file ∧ f.bytes = t.hashed

section Calls

variable {disk : Storage} {lease : Uploads.Lease} {sha256 : Bytes → Bytes}

theorem Removal.step_spec {r : Removal} (hs : disk.Sound) (h : r.Opened disk) (s : Sweep) :
    Disk.OnlyAt r.id disk (r.step disk s).2 ∧
      ∀ r', (r.step disk s).1 = .going r' → r'.id = r.id ∧ r'.Opened (r.step disk s).2 := by
  have hidle (progress : Progress) (hgoing : ∀ r', progress = .going r' → r' = r) :
      Disk.OnlyAt r.id disk disk ∧ ∀ r', progress = .going r' → r'.id = r.id ∧ r'.Opened disk :=
    ⟨.refl hs r.id, fun r' hr' => by
      rw [hgoing r' hr']
      exact ⟨rfl, h⟩⟩
  cases s with
  | «open» call =>
    unfold Removal.step
    by_cases hcall : call = .ok
    · cases hhandle : disk.handle? r.id with
      | none => simpa [hcall, hhandle] using hidle .done fun _ hr' => by cases hr'
      | some directory =>
        simp only [if_pos hcall]
        refine ⟨.refl hs r.id, fun r' hr' => ?_⟩
        rw [← Progress.going.inj hr']
        refine ⟨rfl, fun directory' hdirectory => ?_⟩
        rw [← Option.some.inj hdirectory]
        exact hhandle
    · simpa [hcall] using hidle .failed fun _ hr' => by cases hr'
  | unlink name call =>
    unfold Removal.step
    cases hdirectory : r.directory with
    | none => exact hidle (.going r) fun _ hr' => (Progress.going.inj hr').symm
    | some directory =>
      dsimp only
      by_cases hrefused : (decide (r.count + 1 > 16) || decide (call = .refused)) = true
      · rw [if_pos hrefused]
        exact hidle .failed fun _ hr' => by cases hr'
      · rw [if_neg hrefused]
        obtain ⟨honly, hhandle⟩ := hs.within_handle (h directory hdirectory) fun files =>
          files.deleteWhere fun name' _ => decide (name' = name)
        refine ⟨honly, fun r' hr' => ?_⟩
        dsimp only at hr'
        split_ifs at hr'
        rw [← Progress.going.inj hr']
        refine ⟨rfl, fun directory' hdirectory' => ?_⟩
        rw [← Option.some.inj hdirectory']
        exact hhandle
  | finish call =>
    unfold Removal.step
    cases hdirectory : r.directory with
    | none => exact hidle (.going r) fun _ hr' => (Progress.going.inj hr').symm
    | some directory =>
      dsimp only
      by_cases hrefused : call = .refused
      · rw [if_pos hrefused]
        exact hidle .failed fun _ hr' => by cases hr'
      · rw [if_neg hrefused]
        cases hrmdir : disk.rmdir r.id with
        | none => exact hidle .failed fun _ hr' => by cases hr'
        | some disk' =>
          refine ⟨(hs.rmdir hrmdir).1, fun r' hr' => ?_⟩
          dsimp only at hr'
          split_ifs at hr'

theorem Transfer.Receiving.append {t : Transfer} (hs : disk.Sound) (h : t.Receiving disk lease)
    (bytes : Bytes) :
    Disk.OnlyAt lease.file.id disk (disk.append t.directory t.file bytes) ∧
      (disk.append t.directory t.file bytes).handle? lease.file.id = some t.directory ∧
      { t with received := t.received + bytes.length, hashed := t.hashed ++ bytes }.Receiving
        (disk.append t.directory t.file bytes) lease := by
  obtain ⟨d, f, hd, hdirectory, hf, hfile, hbytes⟩ := h.stored
  have hwithin := hs.within hd fun files =>
    files.modifyWhere (fun _ f => decide (f.handle = t.file)) fun f =>
      { f with bytes := f.bytes ++ bytes, synced := false }
  rw [hdirectory] at hwithin
  obtain ⟨honly, hget⟩ := hwithin
  refine ⟨honly, ?_, h.planned, ?_, _, { f with bytes := f.bytes ++ bytes, synced := false },
    hget, rfl, ?_, hfile, ?_⟩
  · rw [Disk.handle?, Disk.append, hget]
    rfl
  · rw [List.length_append, h.counted]
  · change (Table.modifyWhere _ _ _).get? t.temporary = _
    rw [Table.get?_modifyWhere, hf, Option.map_some, if_pos (decide_eq_true hfile)]
  · change f.bytes ++ bytes = t.hashed ++ bytes
    rw [hbytes]

theorem Transfer.Receiving.handle? {t : Transfer} (h : t.Receiving disk lease) :
    disk.handle? lease.file.id = some t.directory := by
  obtain ⟨d, -, hd, hdirectory, -⟩ := h.stored
  rw [Disk.handle?, hd, ← hdirectory]
  rfl

theorem Transfer.write_spec {t : Transfer} (hs : disk.Sound) (h : t.Receiving disk lease)
    (bytes : Bytes) (stored : Option Nat) :
    Disk.OnlyAt lease.file.id disk (t.write disk bytes stored).2 ∧
      (t.write disk bytes stored).2.handle? lease.file.id = some t.directory ∧
      ∀ t', (t.write disk bytes stored).1 = some t' →
        t'.Receiving (t.write disk bytes stored).2 lease := by
  unfold Transfer.write
  by_cases hlong : bytes.length > t.expected - t.received
  · rw [if_pos hlong]
    exact ⟨.refl hs _, h.handle?, fun _ ht' => nomatch ht'⟩
  · rw [if_neg hlong]
    cases stored with
    | none =>
      obtain ⟨honly, hhandle, hreceiving⟩ := h.append hs bytes
      exact ⟨honly, hhandle, fun t' ht' => Option.some.inj ht' ▸ hreceiving⟩
    | some n =>
      obtain ⟨honly, hhandle, -⟩ := h.append hs (bytes.take n)
      exact ⟨honly, hhandle, fun _ ht' => nomatch ht'⟩

theorem plan_some {plan : Plan} (h : Files.plan lease = some plan) :
    plan.name = lease.file.name ∧ Attachments.validate lease.file = .ok plan.expected ∧
      hexToBytes lease.file.sha256 = some plan.digest := by
  unfold Files.plan at h
  split at h
  · exact nomatch h
  · next expected hvalid =>
    split_ifs at h
    obtain ⟨digest, hdigest, hplan⟩ := Option.map_eq_some_iff.mp h
    rw [← hplan]
    exact ⟨rfl, hvalid, hdigest⟩

/-- A sealed transfer published what the reservation declares. -/
theorem Transfer.sealFile_spec {t : Transfer} (hs : disk.Sound) (h : t.Receiving disk lease)
    (call : Call) :
    Disk.OnlyAt lease.file.id disk (t.sealFile sha256 disk call).2 ∧
      (t.sealFile sha256 disk call).2.handle? lease.file.id = some t.directory ∧
      ((t.sealFile sha256 disk call).1 = true →
        Intact sha256 (t.sealFile sha256 disk call).2 lease.file) := by
  have hkept : Disk.OnlyAt lease.file.id disk disk ∧
      disk.handle? lease.file.id = some t.directory ∧
      (false = true → Intact sha256 disk lease.file) :=
    ⟨.refl hs _, h.handle?, fun himpossible => by cases himpossible⟩
  unfold Transfer.sealFile
  by_cases hlength : (t.received != t.expected) = true
  · rw [if_pos hlength]
    exact hkept
  rw [if_neg hlength]
  by_cases hhash : (sha256 t.hashed != t.digest) = true
  · rw [if_pos hhash]
    exact hkept
  rw [if_neg hhash]
  unfold Transfer.install
  split
  · exact hkept
  cases hinstall : disk.install t.directory t.temporary t.name with
  | none => exact hkept
  | some disk' =>
    obtain ⟨d, f, hd, hdirectory, hf, -, hbytes⟩ := h.stored
    rw [← hdirectory] at hinstall
    obtain ⟨file, hfile, honly, hget⟩ := hs.install hd hinstall
    obtain ⟨hname, hvalid, hdigest⟩ := plan_some h.planned
    have hsame : file = f := Option.some.inj (hfile.symm.trans hf)
    rw [bne_iff_ne, ne_eq, not_not] at hlength hhash
    refine ⟨honly, ?_, fun _ => ⟨{ f with synced := true }, ?_, ?_, ?_, rfl⟩⟩
    · rw [Disk.handle?, hget, ← hdirectory]
      rfl
    · change (disk'.directories.get? lease.file.id).bind _ = _
      rw [hget, Option.bind_some, ← hname, Disk.renamed, Table.get?_upsert, if_pos rfl, hsame]
      cases (d.files.deleteWhere fun name' _ => decide (name' = t.temporary)).get? t.name <;> rfl
    · rw [hvalid, hbytes, ← h.counted, hlength]
    · rw [hdigest, hbytes, hhash]

theorem Transfer.unlink_spec {t : Transfer} (hs : disk.Sound)
    (h : disk.handle? lease.file.id = some t.directory) (name : Bytes) (call : Call) :
    Disk.OnlyAt lease.file.id disk (t.unlink disk name call) ∧
      (t.unlink disk name call).handle? lease.file.id = some t.directory := by
  unfold Transfer.unlink
  split_ifs
  · exact ⟨.refl hs _, h⟩
  · exact hs.within_handle h _

end Calls

end Files

def Stage.active : Stage → Bool
  | .published | .closed => false
  | _ => true

/-- What the disk holds for a request that stands there. -/
def Stage.Holds (sha256 : Bytes → Bytes) (disk : Storage) (lease : Uploads.Lease) : Stage → Prop
  | .clearing r => r.id = lease.file.id ∧ r.Opened disk
  | .created directory => disk.directories.get? lease.file.id = some { handle := directory }
  | .receiving t => t.Receiving disk lease
  | .sealed t => disk.handle? lease.file.id = some t.directory ∧ Intact sha256 disk lease.file
  | .dropping t | .closing t => disk.handle? lease.file.id = some t.directory
  | .claimed | .cleared | .published | .closed => True

def Uploads.Lease.Held (lease : Uploads.Lease) (j : Journal) : Prop :=
  ∃ r, j.uploads.get? lease.file.id = some r ∧
    Uploads.leased lease lease.file.id r = true ∧ r.record = lease.file

def UploadRow.Retained (r : UploadRow) : Prop := r.state = .ready ∨ r.state = .pinned

def Cleaner.ids : Cleaner → List Bytes
  | .idle => []
  | .removing r rest => r.id :: rest
  | .purging id rest => id :: rest

def Cleaner.Opened (disk : Storage) : Cleaner → Prop
  | .removing r _ => r.Opened disk
  | _ => True

theorem Cleaner.next_ids (ids : List Bytes) : (Cleaner.next ids).ids = ids := by
  cases ids <;> rfl

theorem Cleaner.next_opened (disk : Storage) (ids : List Bytes) :
    (Cleaner.next ids).Opened disk := by
  cases ids with
  | nil => trivial
  | cons id rest => exact fun directory hdirectory => nomatch hdirectory

section Frames

variable {sha256 : Bytes → Bytes} {disk disk' : Storage} {id : Bytes}

theorem Intact.frame {file : Upload} (h : Intact sha256 disk file)
    (honly : Disk.OnlyAt id disk disk') (hne : file.id ≠ id) : Intact sha256 disk' file := by
  obtain ⟨f, hf, hdeclared⟩ := h
  exact ⟨f, (honly.file? hne _).trans hf, hdeclared⟩

theorem Files.Removal.Opened.frame {r : Removal} (h : r.Opened disk)
    (honly : Disk.OnlyAt id disk disk') (hne : r.id ≠ id) : r.Opened disk' :=
  fun directory hdirectory => (honly.handle? hne).trans (h directory hdirectory)

theorem Stage.Holds.frame {lease : Uploads.Lease} {stage : Stage}
    (h : stage.Holds sha256 disk lease) (honly : Disk.OnlyAt id disk disk')
    (hne : lease.file.id ≠ id) : stage.Holds sha256 disk' lease := by
  cases stage with
  | clearing r =>
    obtain ⟨hid, hopened⟩ := h
    exact ⟨hid, hopened.frame honly (hid ▸ hne)⟩
  | created directory => exact (honly.others _ hne).trans h
  | receiving t =>
    have h : t.Receiving disk lease := h
    obtain ⟨d, f, hd, hstored⟩ := h.stored
    exact ⟨h.planned, h.counted, d, f, (honly.others _ hne).trans hd, hstored⟩
  | sealed t =>
    obtain ⟨hhandle, hintact⟩ := h
    exact ⟨(honly.handle? hne).trans hhandle, hintact.frame honly hne⟩
  | dropping t => exact (honly.handle? hne).trans h
  | closing t => exact (honly.handle? hne).trans h
  | claimed => trivial
  | cleared => trivial
  | published => trivial
  | closed => trivial

theorem Cleaner.Opened.frame {c : Cleaner} (h : c.Opened disk)
    (honly : Disk.OnlyAt id disk disk') (hne : ∀ id' ∈ c.ids, id' ≠ id) : c.Opened disk' := by
  cases c with
  | idle => trivial
  | removing r rest => exact Files.Removal.Opened.frame h honly (hne r.id List.mem_cons_self)
  | purging id' rest => trivial

end Frames

section Rows

variable {a : Action} {handed : List Uploads.Lease} {id : Bytes}

/-- A row comes out retained only if it was, or when its transfer completes. -/
theorem Moves.retained {o : Option UploadRow} {r' : UploadRow} (h : Moves a handed id o (some r'))
    (hr' : r'.Retained) : ∃ r, o = some r ∧ r.record = r'.record ∧
      (r.Retained ∨ ∃ env lease, a = .critical env (.complete lease) ∧
        Uploads.leased lease id r = true) := by
  generalize ho' : some r' = o' at h
  cases h with
  | absent => exact nomatch ho'
  | used r _ h =>
    rw [Option.some.injEq] at ho'
    rw [← ho'] at h
    rcases h with hsame | ⟨hbefore, -, hrecord, -⟩
    · exact ⟨r, rfl, by rw [hsame], Or.inl (hsame ▸ hr')⟩
    · exact ⟨r, rfl, hrecord.symm, Or.inl hbefore⟩
  | reserved r state =>
    rw [Option.some.inj ho'] at hr'
    rcases hr' with hs | hs <;> exact nomatch state.symm.trans hs
  | claimed r =>
    rw [Option.some.inj ho'] at hr'
    rcases hr' with hs | hs <;> exact nomatch hs
  | completed r env lease action live =>
    exact ⟨r, rfl, by rw [Option.some.inj ho'], Or.inr ⟨env, lease, action, live⟩⟩
  | released r =>
    rw [Option.some.inj ho'] at hr'
    rcases hr' with hs | hs <;> exact nomatch hs
  | recovered r =>
    rw [Option.some.inj ho'] at hr'
    rcases hr' with hs | hs <;> exact nomatch hs
  | retired r =>
    rw [Option.some.inj ho'] at hr'
    rcases hr' with hs | hs <;> exact nomatch hs
  | purged => exact nomatch ho'

theorem Moves.stays {r : UploadRow} {o' : Option UploadRow} (h : Moves a handed id (some r) o')
    (hstate : r.state = .receiving) (hlaunch : ∀ env, a ≠ .launch env)
    (hended : ∀ env lease, a = .critical env (.complete lease) ∨ a = .critical env (.abandon lease) →
      lease.token ≠ r.lease) : o' = some r := by
  cases h with
  | used _ r' h =>
    rw [h.eq (fun hs => nomatch hstate.symm.trans hs) fun hs => nomatch hstate.symm.trans hs]
  | claimed _ _ _ _ _ _ state => exact nomatch hstate.symm.trans state
  | completed _ env lease action live =>
    exact absurd (Uploads.leased_id live).2.2.1.symm (hended env lease (Or.inl action))
  | released _ env lease action live =>
    exact absurd (Uploads.leased_id live).2.2.1.symm (hended env lease (Or.inr action))
  | recovered _ env action => exact absurd action (hlaunch env)
  | retired _ state => rcases state with hs | hs <;> exact nomatch hstate.symm.trans hs
  | purged _ _ _ state => exact nomatch hstate.symm.trans state

theorem Moves.rests {r : UploadRow} {o' : Option UploadRow} (h : Moves a handed id (some r) o')
    (hstate : r.state = .deleting) (hpurge : ∀ env, a ≠ .critical env (.purge id)) :
    o' = some r := by
  cases h with
  | used _ r' h =>
    rw [h.eq (fun hs => nomatch hstate.symm.trans hs) fun hs => nomatch hstate.symm.trans hs]
  | claimed _ _ _ _ _ _ state => exact nomatch hstate.symm.trans state
  | completed _ _ _ _ live => exact nomatch hstate.symm.trans (Uploads.leased_id live).2.2.2
  | released _ _ _ _ live => exact nomatch hstate.symm.trans (Uploads.leased_id live).2.2.2
  | recovered _ _ _ state => exact nomatch hstate.symm.trans state
  | retired _ state => rcases state with hs | hs <;> exact nomatch hstate.symm.trans hs
  | purged _ env action => exact absurd action (hpurge env)

end Rows

def Action.restarts : Action → Bool
  | .launch _ | .crash => true
  | _ => false

section Running

variable {enc : Encoding} {p : Process}

theorem Process.enabled_running {a : Action} (h : a.restarts = false) (henabled : p.enabled a) :
    p.running = true := by
  cases a with
  | launch env => exact nomatch h
  | crash => exact nomatch h
  | critical env s =>
    have hup := henabled.1
    simp only [Process.serving, Bool.or_eq_true, Bool.and_eq_true] at hup
    rcases hup with hup | hup <;> exact hup.1
  | prepareSend env gate source =>
    have hup := henabled.1
    simp only [Process.serving, Bool.and_eq_true] at hup
    exact hup.1
  | invoke invocation => exact henabled
  | commitResult env => exact henabled.1
  | recover env => exact henabled.1
  | prepareObservation env gate => exact henabled.1
  | publish env readReady candidate => exact henabled.1
  | reset env expected => exact henabled.1

theorem Process.step_running (enc : Encoding) (p : Process) {a : Action} (h : a.restarts = false) :
    (p.step enc a).running = p.running ∧ (p.running = false → p.step enc a = p) := by
  by_cases henabled : p.enabled a
  swap
  · rw [Process.step, if_neg henabled]
    exact ⟨rfl, fun _ => rfl⟩
  have hrunning := Process.enabled_running h henabled
  refine ⟨?_, fun hstopped => by cases hstopped.symm.trans hrunning⟩
  rw [Process.step, if_pos henabled, hrunning]
  have hlocked {α : Type} {env : Env} {m : Tx α} {result : Except Error α} {q : Process}
      (hrun : p.locked env m = (result, q)) : q.running = true := by
    have hup : (p.locked env m).2.running = true := hrunning
    rw [hrun] at hup
    exact hup
  cases a with
  | launch env => cases h
  | crash => cases h
  | critical env s => exact hrunning
  | prepareSend env gate source =>
    unfold Process.apply
    dsimp only
    split
    · unfold Process.prepared
      split <;> next hrun =>
      have hup := hlocked hrun
      exact hup
    · exact hrunning
  | invoke invocation =>
    unfold Process.apply
    dsimp only
    split
    · cases invocation <;> exact hrunning
    · exact hrunning
  | commitResult env =>
    unfold Process.apply
    dsimp only
    split
    · unfold Process.committed
      split <;> next hrun =>
      have hup := hlocked hrun
      exact hup
    · exact hrunning
  | recover env =>
    unfold Process.apply
    dsimp only
    split
    · unfold Process.recovered
      split <;> next hrun =>
      have hup := hlocked hrun
      exact hup
    · exact hrunning
  | prepareObservation env gate =>
    unfold Process.apply
    dsimp only
    split
    · unfold Process.observed
      split <;> next hrun =>
      have hup := hlocked hrun
      exact hup
    · exact hrunning
  | publish env readReady candidate =>
    unfold Process.apply
    dsimp only
    split
    · exact hrunning
    · exact hrunning
  | reset env expected =>
    obtain ⟨required, happly⟩ := p.resetBy_eq env expected
    change (p.resetBy env expected).running = true
    rw [happly]
    exact hrunning

end Running

end Zimbr.Relay
