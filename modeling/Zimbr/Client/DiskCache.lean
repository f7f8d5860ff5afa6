import Mathlib.Algebra.Order.BigOperators.Group.List
import Mathlib.Algebra.Order.Group.Nat
import Mathlib.Data.List.Sort
import Zimbr.Protocol.Types

set_option autoImplicit false

/-!
# The disk cache

Amortized disk maintenance for the media worker, the cache's sole writer. The directory is
scanned again when what was counted is over a limit, and then trimmed to less.
-/
namespace Zimbr.DiskCache

def sizeMax : Nat := 2 ^ 64 - 1

structure Timespec where
  sec : Int
  nsec : Int
  deriving DecidableEq, Repr

/-- A name of the directory; only regular files of the user count. -/
structure File where
  name : Bytes
  regular : Bool
  bytes : Nat
  used : Timespec
  deriving DecidableEq, Repr

def hexDigit (b : UInt8) : Bool := (97 ≤ b && b ≤ 102) || (48 ≤ b && b ≤ 57)

/-- Cache keys are 64 hex digits; temporaries are `tmp-` and 32 hex digits. -/
def cacheName (name : Bytes) : Bool :=
  if name.length ≠ 64 && name.length ≠ 36 then false
  else if name.length = 36 then [116, 109, 112, 45].isPrefixOf name && (name.drop 4).all hexDigit
  else name.all hexDigit

def oldest (a b : File) : Int :=
  if a.used.sec ≠ b.used.sec then if a.used.sec < b.used.sec then -1 else 1
  else if a.used.nsec < b.used.nsec then -1
  else if b.used.nsec < a.used.nsec then 1 else 0

/-- Which of the calls that a scan makes succeed. -/
structure Calls where
  opened : Bool
  reads : Bytes → Bool
  ended : Bool
  stats : Bytes → Bool
  unlinks : Bytes → Bool
  grows : Nat → Bool
  closed : Bool

/-- What stays of the directory read so far, and what is counted of it. -/
structure Scan where
  dir : List File
  entries : List File
  bytes : Nat
  capacity : Nat
  ok : Bool
  deriving DecidableEq, Repr

/-- The first loop of `zc_cache_prune`. -/
def scan (calls : Calls) (startup : Bool) : List File → Scan → Scan
  | [], s => { s with ok := s.ok && calls.ended }
  | f :: rest, s =>
    let stopped : Scan := { s with dir := s.dir ++ f :: rest, ok := false }
    let kept : Scan := { s with dir := s.dir ++ [f] }
    if !calls.reads f.name then stopped
    else if !cacheName f.name then scan calls startup rest kept
    else if !calls.stats f.name then scan calls startup rest { kept with ok := false }
    else if !f.regular then scan calls startup rest kept
    else if f.name.length = 36 then
      if startup && calls.unlinks f.name then scan calls startup rest s
      else if sizeMax - s.bytes < f.bytes then stopped
      else scan calls startup rest { kept with bytes := s.bytes + f.bytes, ok := s.ok && !startup }
    else if s.entries.length = 8192 then
      if calls.unlinks f.name then scan calls startup rest s
      else scan calls startup rest { kept with ok := false }
    else if s.entries.length = s.capacity && !calls.grows s.capacity then stopped
    else if sizeMax - s.bytes < f.bytes then stopped
    else scan calls startup rest { kept with
      entries := s.entries ++ [f]
      bytes := s.bytes + f.bytes
      capacity :=
        if s.entries.length = s.capacity then if s.capacity = 0 then 64 else s.capacity * 2
        else s.capacity }

structure Trim where
  dir : List File
  bytes : Nat
  remaining : Nat
  ok : Bool
  deriving DecidableEq, Repr

def without (name : Bytes) (dir : List File) : List File := dir.filter fun f => f.name ≠ name

/-- The second loop of `zc_cache_prune`, over the entries from the oldest on. -/
def evict (calls : Calls) (budget maxEntries : Nat) : List File → Trim → Trim
  | [], s => s
  | f :: rest, s =>
    if budget < s.bytes || maxEntries < s.remaining then
      if calls.unlinks f.name then
        evict calls budget maxEntries rest {
          dir := without f.name s.dir
          bytes := s.bytes - f.bytes
          remaining := s.remaining - 1
          ok := s.ok }
      else evict calls budget maxEntries rest { s with ok := false }
    else s

structure Usage where
  bytes : Nat
  entries : Nat
  deriving DecidableEq, Repr

def sorted (entries : List File) : List File := entries.insertionSort fun a b => oldest a b ≤ 0

/-- `zc_cache_prune`: the usage, if all has been counted and is within the targets. -/
def prune (calls : Calls) (dir : List File) (budget maxEntries : Nat) (startup : Bool) :
    Option Usage × List File :=
  if !calls.opened then (none, dir)
  else
    let s := scan calls startup dir ⟨[], [], 0, 0, true⟩
    let e := evict calls budget maxEntries (sorted s.entries)
      ⟨s.dir, s.bytes, s.entries.length, s.ok && calls.closed⟩
    (if !e.ok || budget < e.bytes || maxEntries < e.remaining then none
      else some ⟨e.bytes, e.remaining⟩, e.dir)

/-- The limits that `init` asserts. -/
structure Limits where
  bytes : Nat
  trimBytes : Nat
  entries : Nat
  trimEntries : Nat
  trimBytes_lt : trimBytes < bytes
  trimEntries_lt : trimEntries < entries
  entries_le : entries ≤ 8192

structure Cache where
  dir : List File
  usage : Option Usage

variable (limits : Limits)

def trim (calls : Calls) (startup : Bool) (dir : List File) : Cache where
  dir := (prune calls dir limits.trimBytes limits.trimEntries startup).2
  usage := (prune calls dir limits.trimBytes limits.trimEntries startup).1

def init (calls : Calls) (dir : List File) : Cache := trim limits calls true dir

/-- Sums that do not fit are the greatest number. -/
def counted (bytes : Nat) (usage : Usage) : Usage :=
  ⟨min (usage.bytes + bytes) sizeMax, min (usage.entries + 1) sizeMax⟩

def downloaded (calls : Calls) (bytes : Nat) (s : Cache) : Cache :=
  match s.usage with
  | none => trim limits calls false s.dir
  | some usage =>
    if (counted bytes usage).bytes ≤ limits.bytes &&
        (counted bytes usage).entries ≤ limits.entries then
      { s with usage := some (counted bytes usage) }
    else trim limits calls false s.dir

/-- `zc_cache_install` where it renames: the name is taken from the temporary file. -/
def install (temporary : Bytes) (f : File) (s : Cache) : Cache :=
  if !cacheName temporary || !cacheName f.name || f.name.length ≠ 64 then s
  else { s with dir := without f.name (without temporary s.dir) ++ [f] }

/-- `zc_cache_remove`. -/
def remove (name : Bytes) (s : Cache) : Cache :=
  if cacheName name then { s with dir := without name s.dir } else s

/-- `zc_image_read` where it decodes the image: the file is used now. -/
def touch (name : Bytes) (now : Timespec) (s : Cache) : Cache :=
  if cacheName name then
    { s with dir := s.dir.map fun f => if f.name = name && f.regular then { f with used := now } else f }
  else s

/-- What the media worker does to the directory. A download is counted also if its installation
failed, and a directory may be read in any order. -/
inductive Step : Cache → Cache → Prop where
  | written (s : Cache) (f : File) (hname : f.name.length = 36) :
      Step s { s with dir := without f.name s.dir ++ [f] }
  | installed (s : Cache) (temporary : Bytes) (f : File) (bytes : Nat) (hbytes : f.bytes ≤ bytes)
      (calls : Calls) : Step s (downloaded limits calls bytes (install temporary f s))
  | failed (s : Cache) (bytes : Nat) (calls : Calls) : Step s (downloaded limits calls bytes s)
  | removed (s : Cache) (name : Bytes) : Step s (remove name s)
  | read (s : Cache) (name : Bytes) (now : Timespec) : Step s (touch name now s)
  | listed (s : Cache) (dir : List File) (hperm : dir.Perm s.dir) : Step s { s with dir := dir }
  | restarted (s : Cache) (calls : Calls) : Step s (init limits calls s.dir)

/-- The caches that a directory of files with different names leads to. -/
inductive Reachable : Cache → Prop where
  | init (dir : List File) (hnames : (dir.map File.name).Nodup) (calls : Calls) :
      Reachable (init limits calls dir)
  | step {s s' : Cache} (h : Reachable s) (hstep : Step limits s s') : Reachable s'

/-! ## What is counted -/

def keyed (f : File) : Bool := cacheName f.name && f.regular && f.name.length ≠ 36

def cached (dir : List File) : List File := dir.filter keyed

def size (files : List File) : Nat := (files.map File.bytes).sum

section Counts

variable {dir dir' files : List File} {f : File} {name : Bytes}

@[simp] theorem cached_append (dir dir' : List File) :
    cached (dir ++ dir') = cached dir ++ cached dir' := List.filter_append dir dir'

theorem keyed_iff : keyed f = true ↔
    cacheName f.name = true ∧ f.regular = true ∧ f.name.length ≠ 36 := by
  rw [keyed, Bool.and_eq_true, Bool.and_eq_true, decide_eq_true_eq, and_assoc]

theorem cached_cons_keyed (h : keyed f = true) (files : List File) :
    cached (f :: files) = f :: cached files := List.filter_cons_of_pos h

theorem cached_cons_other (h : keyed f = false) (files : List File) :
    cached (f :: files) = cached files := List.filter_cons_of_neg (Bool.eq_false_iff.mp h)

theorem unnamed_other (h : (!cacheName f.name) = true) : keyed f = false := by
  rw [Bool.not_eq_true'] at h
  rw [keyed, h, Bool.false_and, Bool.false_and]

theorem irregular_other (h : (!f.regular) = true) : keyed f = false := by
  rw [Bool.not_eq_true'] at h
  rw [keyed, h, Bool.and_false, Bool.false_and]

theorem temporary_other (h : f.name.length = 36) : keyed f = false := by
  rw [keyed, decide_eq_false (not_not.mpr h), Bool.and_false]

@[simp] theorem size_append (files files' : List File) :
    size (files ++ files') = size files + size files' := by
  rw [size, List.map_append, List.sum_append]
  rfl

theorem size_perm (h : files.Perm dir) : size files = size dir := (h.map File.bytes).sum_eq

theorem size_sublist (h : files.Sublist dir) : size files ≤ size dir :=
  (h.map File.bytes).sum_le_sum fun _ _ => Nat.zero_le _

theorem cached_without (name : Bytes) (dir : List File) :
    cached (without name dir) = without name (cached dir) := List.filter_comm _ _ _

theorem without_sublist (name : Bytes) (dir : List File) : (without name dir).Sublist dir :=
  List.filter_sublist

theorem cached_sublist (h : dir.Sublist dir') : (cached dir).Sublist (cached dir') := h.filter keyed

theorem not_mem_without : name ∉ (without name dir).map File.name := by
  intro hmem
  obtain ⟨f, hf, hname⟩ := List.mem_map.mp hmem
  exact of_decide_eq_true (List.mem_filter.mp hf).2 hname

theorem nodup_sublist (h : dir.Sublist dir') (hnames : (dir'.map File.name).Nodup) :
    (dir.map File.name).Nodup := hnames.sublist (h.map File.name)

theorem nodup_put (hnames : (dir.map File.name).Nodup) :
    ((without f.name dir ++ [f]).map File.name).Nodup := by
  rw [List.map_append, List.map_singleton]
  refine (nodup_sublist (without_sublist f.name dir) hnames).append (List.nodup_singleton _) ?_
  exact List.disjoint_singleton.mpr not_mem_without

theorem without_head (hnames : ((f :: files).map File.name).Nodup) :
    without f.name (f :: files) = files := by
  rw [List.map_cons, List.nodup_cons] at hnames
  rw [without, List.filter_cons_of_neg (by simp)]
  refine List.filter_eq_self.mpr fun g hg => decide_eq_true fun hname => hnames.1 ?_
  rw [← hname]
  exact List.mem_map_of_mem hg

end Counts

/-! ## A scan counts what it leaves -/

section Scans

variable {calls : Calls} {startup : Bool} {dir files : List File} {s : Scan}

theorem kept_sublist {f : File} {rest left : List File} (h : left.Sublist (dir ++ [f] ++ rest)) :
    left.Sublist (dir ++ f :: rest) := by
  rwa [List.append_assoc] at h

theorem gone_sublist {f : File} {rest left : List File} (h : left.Sublist (dir ++ rest)) :
    left.Sublist (dir ++ f :: rest) := h.trans ((List.sublist_cons_self f rest).append_left dir)

variable (calls startup) in
theorem scan_sublist (files : List File) (s : Scan) :
    (scan calls startup files s).dir.Sublist (s.dir ++ files) := by
  fun_induction scan calls startup files s with
  | case1 s => rw [List.append_nil]
  | case2 | case7 | case11 | case12 => exact List.Sublist.refl _
  | case6 _ _ _ _ _ _ _ _ _ ih | case9 _ _ _ _ _ _ _ _ _ _ ih => exact gone_sublist ih
  | case3 _ _ _ _ _ _ ih | case4 _ _ _ _ _ _ _ ih | case5 _ _ _ _ _ _ _ _ ih =>
    exact kept_sublist ih
  | case8 _ _ _ _ _ _ _ _ _ _ _ ih | case10 _ _ _ _ _ _ _ _ _ _ _ ih => exact kept_sublist ih
  | case13 _ _ _ _ _ _ _ _ _ _ _ _ ih => exact kept_sublist ih

/-- Unless a call has failed, all downloads are entries, and the bytes of at least these are
counted. -/
def Counted (s : Scan) : Prop := s.ok = true → cached s.dir = s.entries ∧ size s.entries ≤ s.bytes

theorem Counted.failed {dir entries : List File} {bytes capacity : Nat} :
    Counted ⟨dir, entries, bytes, capacity, false⟩ := fun hok => absurd hok Bool.false_ne_true

variable {f : File} {s' : Scan}

theorem Counted.other (h : Counted s) (hf : keyed f = false) (hdir : s'.dir = s.dir ++ [f])
    (hentries : s'.entries = s.entries) (hbytes : s.bytes ≤ s'.bytes)
    (hok : s'.ok = true → s.ok = true) : Counted s' := by
  intro hdone
  obtain ⟨hcached, hsize⟩ := h (hok hdone)
  rw [hdir, hentries, cached_append, cached_cons_other hf]
  change cached s.dir ++ [] = s.entries ∧ _
  rw [List.append_nil]
  exact ⟨hcached, hsize.trans hbytes⟩

variable (calls startup files) in
theorem scan_counted (h : Counted s) : Counted (scan calls startup files s) := by
  fun_induction scan calls startup files s with
  | case1 => exact fun hok => h (Bool.and_eq_true_iff.mp hok).1
  | case2 | case7 | case11 | case12 => exact .failed
  | case4 _ _ _ _ _ _ _ ih | case10 _ _ _ _ _ _ _ _ _ _ _ ih => exact ih .failed
  | case6 _ _ _ _ _ _ _ _ _ ih | case9 _ _ _ _ _ _ _ _ _ _ ih => exact ih h
  | case3 f rest s kept hread hname ih => exact ih (h.other (unnamed_other hname) rfl rfl le_rfl id)
  | case5 f rest s kept hread hname hstat hregular ih =>
    exact ih (h.other (irregular_other hregular) rfl rfl le_rfl id)
  | case8 f rest s kept hread hname hstat hregular htemporary hunlink hfits ih =>
    exact ih (h.other (temporary_other htemporary) rfl rfl (Nat.le_add_right _ _)
      fun hok => (Bool.and_eq_true_iff.mp hok).1)
  | case13 f rest s kept hread hname hstat hregular hkey hfull hgrow hfits ih =>
    refine ih fun hok => ?_
    obtain ⟨hcached, hsize⟩ := h hok
    rw [Bool.not_eq_true, Bool.not_eq_false'] at hname hregular
    refine ⟨?_, ?_⟩
    · change cached (s.dir ++ [f]) = s.entries ++ [f]
      rw [cached_append, cached_cons_keyed (keyed_iff.mpr ⟨hname, hregular, hkey⟩), hcached]
      rfl
    · change size (s.entries ++ [f]) ≤ s.bytes + f.bytes
      rw [size_append]
      exact Nat.add_le_add hsize (by simp [size])

theorem scan_ok (hok : (scan calls startup files s).ok = true) : s.ok = true := by
  fun_induction scan calls startup files s with
  | case1 => exact (Bool.and_eq_true_iff.mp hok).1
  | case2 | case7 | case11 | case12 => exact absurd hok Bool.false_ne_true
  | case4 _ _ _ _ _ _ _ ih | case10 _ _ _ _ _ _ _ _ _ _ _ ih =>
    exact absurd (ih hok) Bool.false_ne_true
  | case6 _ _ _ _ _ _ _ _ _ ih | case9 _ _ _ _ _ _ _ _ _ _ ih => exact ih hok
  | case3 _ _ _ _ _ _ ih | case5 _ _ _ _ _ _ _ _ ih => exact ih hok
  | case8 f rest s kept hread hname hstat hregular htemporary hunlink hfits ih =>
    exact (Bool.and_eq_true_iff.mp (ih hok)).1
  | case13 f rest s kept hread hname hstat hregular hkey hfull hgrow hfits ih => exact ih hok

theorem scan_entries (hroom : s.entries.length + (cached files).length ≤ 8192)
    (hok : (scan calls startup files s).ok = true) :
    (scan calls startup files s).entries = s.entries ++ cached files := by
  fun_induction scan calls startup files s with
  | case1 => exact (List.append_nil _).symm
  | case2 | case7 | case11 | case12 => exact absurd hok Bool.false_ne_true
  | case4 _ _ _ _ _ _ _ ih | case10 _ _ _ _ _ _ _ _ _ _ _ ih =>
    exact absurd (scan_ok hok) Bool.false_ne_true
  | case3 f rest s kept hread hname ih =>
    rw [cached_cons_other (unnamed_other hname)] at hroom ⊢
    exact ih hroom hok
  | case5 f rest s kept hread hname hstat hregular ih =>
    rw [cached_cons_other (irregular_other hregular)] at hroom ⊢
    exact ih hroom hok
  | case6 f rest s hread hname hstat hregular htemporary hunlink ih =>
    rw [cached_cons_other (temporary_other htemporary)] at hroom ⊢
    exact ih hroom hok
  | case8 f rest s kept hread hname hstat hregular htemporary hunlink hfits ih =>
    rw [cached_cons_other (temporary_other htemporary)] at hroom ⊢
    exact ih hroom hok
  | case9 f rest s hread hname hstat hregular hkey hfull hunlink ih =>
    rw [Bool.not_eq_true, Bool.not_eq_false'] at hname hregular
    rw [cached_cons_keyed (keyed_iff.mpr ⟨hname, hregular, hkey⟩), List.length_cons] at hroom
    omega
  | case13 f rest s kept hread hname hstat hregular hkey hfull hgrow hfits ih =>
    rw [Bool.not_eq_true, Bool.not_eq_false'] at hname hregular
    rw [cached_cons_keyed (keyed_iff.mpr ⟨hname, hregular, hkey⟩), List.length_cons] at hroom
    rw [cached_cons_keyed (keyed_iff.mpr ⟨hname, hregular, hkey⟩), ih ?_ hok]
    · exact List.append_assoc _ _ _
    · rw [List.length_append, List.length_singleton]
      omega

end Scans

/-! ## A trim is within its targets -/

section Trims

variable {dir files : List File} {s : Trim}

theorem size_cons (f : File) (files : List File) : size (f :: files) = f.bytes + size files := by
  rw [size, List.map_cons, List.sum_cons]
  rfl

/-- Unless a call has failed, the entries are the downloads of the directory. -/
structure Holds (files : List File) (s : Trim) : Prop where
  names : (s.dir.map File.name).Nodup
  entries : s.ok = true → (cached s.dir).Perm files
  bytes : s.ok = true → size files ≤ s.bytes
  remaining : s.ok = true → files.length = s.remaining

theorem Holds.evicted {f : File} (h : Holds (f :: files) s) :
    Holds files ⟨without f.name s.dir, s.bytes - f.bytes, s.remaining - 1, s.ok⟩ := by
  refine ⟨nodup_sublist (without_sublist f.name s.dir) h.names, fun hok => ?_, fun hok => ?_,
    fun hok => ?_⟩
  · have hperm := h.entries hok
    have hnames : ((f :: files).map File.name).Nodup :=
      (hperm.map File.name).nodup_iff.mp (nodup_sublist List.filter_sublist h.names)
    have hrest : (without f.name (cached s.dir)).Perm (without f.name (f :: files)) :=
      hperm.filter _
    rwa [without_head hnames, ← cached_without] at hrest
  · have hsize := h.bytes hok
    rw [size_cons] at hsize
    dsimp only
    omega
  · have hlength := h.remaining hok
    rw [List.length_cons] at hlength
    dsimp only
    omega

theorem Holds.failed (h : Holds files s) (rest : List File) : Holds rest { s with ok := false } :=
  ⟨h.names, fun hok => absurd hok Bool.false_ne_true, fun hok => absurd hok Bool.false_ne_true,
    fun hok => absurd hok Bool.false_ne_true⟩

theorem evict_holds (calls : Calls) (budget maxEntries : Nat) (h : Holds files s) :
    (evict calls budget maxEntries files s).dir.Sublist s.dir ∧
      ∃ gone rest, gone ++ rest = files ∧ Holds rest (evict calls budget maxEntries files s) := by
  induction files generalizing s with
  | nil => exact ⟨List.Sublist.refl _, [], [], rfl, h⟩
  | cons f files ih =>
    unfold evict
    split_ifs with hover hunlink
    · obtain ⟨hsub, gone, rest, rfl, hrest⟩ := ih h.evicted
      exact ⟨hsub.trans (without_sublist f.name s.dir), f :: gone, rest, rfl, hrest⟩
    · obtain ⟨hsub, gone, rest, rfl, hrest⟩ := ih (h.failed files)
      exact ⟨hsub, f :: gone, rest, rfl, hrest⟩
    · exact ⟨List.Sublist.refl _, [], f :: files, rfl, h⟩

theorem evict_ok {calls : Calls} {budget maxEntries : Nat}
    (hok : (evict calls budget maxEntries files s).ok = true) : s.ok = true := by
  induction files generalizing s with
  | nil => exact hok
  | cons f files ih =>
    unfold evict at hok
    split_ifs at hok
    · have hstart := ih hok
      exact hstart
    · exact absurd (ih hok) Bool.false_ne_true
    · exact hok

theorem sorted_perm (entries : List File) : (sorted entries).Perm entries :=
  List.perm_insertionSort _ entries

theorem oldest_le {f g : File} : oldest f g ≤ 0 ↔
    f.used.sec < g.used.sec ∨ f.used.sec = g.used.sec ∧ f.used.nsec ≤ g.used.nsec := by
  unfold oldest
  split_ifs <;> omega

theorem sorted_oldest (entries : List File) :
    (sorted entries).Pairwise fun f g => oldest f g ≤ 0 := by
  have htotal : Std.Total fun f g => oldest f g ≤ 0 := ⟨fun f g => by
    rw [oldest_le, oldest_le]
    omega⟩
  have htrans : IsTrans File fun f g => oldest f g ≤ 0 := ⟨fun f g k hfg hgk => by
    rw [oldest_le] at hfg hgk ⊢
    omega⟩
  exact List.pairwise_insertionSort _ entries

structure Bounds (dir : List File) (usage : Usage) : Prop where
  bytes : min (size (cached dir)) sizeMax ≤ usage.bytes
  entries : min (cached dir).length sizeMax ≤ usage.entries

variable {calls : Calls} {budget maxEntries : Nat} {startup : Bool} {usage : Usage}

theorem scan_holds {scanned : Scan} (hnames : (dir.map File.name).Nodup)
    (hscan : scan calls startup dir ⟨[], [], 0, 0, true⟩ = scanned) :
    Holds (sorted scanned.entries)
      ⟨scanned.dir, scanned.bytes, scanned.entries.length, scanned.ok && calls.closed⟩ := by
  have hsub := scan_sublist calls startup dir ⟨[], [], 0, 0, true⟩
  have hcounted := scan_counted calls startup dir (s := ⟨[], [], 0, 0, true⟩)
    fun _ => ⟨rfl, le_rfl⟩
  rw [hscan] at hsub hcounted
  refine ⟨nodup_sublist hsub hnames, fun hok => ?_, fun hok => ?_, fun _ => ?_⟩
  · rw [(hcounted (Bool.and_eq_true_iff.mp hok).1).1]
    exact (sorted_perm scanned.entries).symm
  · rw [size_perm (sorted_perm scanned.entries)]
    exact (hcounted (Bool.and_eq_true_iff.mp hok).1).2
  · exact (sorted_perm scanned.entries).length_eq

theorem prune_sublist (hnames : (dir.map File.name).Nodup) :
    (prune calls dir budget maxEntries startup).2.Sublist dir := by
  unfold prune
  split
  next => exact List.Sublist.refl _
  next =>
    exact (evict_holds calls budget maxEntries (scan_holds hnames rfl)).1.trans
      (scan_sublist calls startup dir ⟨[], [], 0, 0, true⟩)

/-- A trim that is done has counted all entries, and evicted the first of them. -/
theorem prune_done (hnames : (dir.map File.name).Nodup)
    (hdone : (prune calls dir budget maxEntries startup).1 = some usage) :
    (scan calls startup dir ⟨[], [], 0, 0, true⟩).ok = true ∧
      (∃ gone rest, gone ++ rest = sorted (scan calls startup dir ⟨[], [], 0, 0, true⟩).entries ∧
        Holds rest
          ⟨(prune calls dir budget maxEntries startup).2, usage.bytes, usage.entries, true⟩) ∧
      usage.bytes ≤ budget ∧ usage.entries ≤ maxEntries := by
  unfold prune at hdone ⊢
  split at hdone
  next => cases hdone
  next hopened =>
    rw [if_neg hopened]
    dsimp only at hdone ⊢
    generalize hscan : scan calls startup dir ⟨[], [], 0, 0, true⟩ = scanned at hdone ⊢
    obtain ⟨-, gone, rest, hsplit, hrest⟩ :=
      evict_holds calls budget maxEntries (scan_holds hnames hscan)
    split at hdone
    next => cases hdone
    next hwithin =>
      obtain rfl := Option.some.inj hdone
      simp only [Bool.or_eq_true, decide_eq_true_eq, Bool.not_eq_true', not_or, Bool.not_eq_false,
        not_lt] at hwithin
      obtain ⟨⟨hok, hbytes⟩, hentries⟩ := hwithin
      refine ⟨(Bool.and_eq_true_iff.mp (evict_ok hok)).1,
        ⟨gone, rest, hsplit, hrest.names, fun _ => hrest.entries hok, fun _ => hrest.bytes hok,
          fun _ => hrest.remaining hok⟩, hbytes, hentries⟩

theorem prune_bounds (hnames : (dir.map File.name).Nodup)
    (hdone : (prune calls dir budget maxEntries startup).1 = some usage) :
    Bounds (prune calls dir budget maxEntries startup).2 usage := by
  obtain ⟨-, ⟨gone, rest, -, hrest⟩, -⟩ := prune_done hnames hdone
  have hperm := hrest.entries rfl
  refine ⟨(min_le_left _ _).trans ?_, (min_le_left _ _).trans ?_⟩
  · rw [size_perm hperm]
    exact hrest.bytes rfl
  · rw [hperm.length_eq]
    exact (hrest.remaining rfl).le

/-- A trim evicts no download that was used after one that it keeps. -/
theorem trim_oldest (hnames : (dir.map File.name).Nodup) (hroom : (cached dir).length ≤ 8192)
    (hdone : (prune calls dir budget maxEntries startup).1 = some usage) {f g : File}
    (hf : f ∈ cached dir) (hgone : f ∉ (prune calls dir budget maxEntries startup).2)
    (hg : g ∈ cached (prune calls dir budget maxEntries startup).2) : oldest f g ≤ 0 := by
  obtain ⟨hok, ⟨gone, rest, hsplit, hrest⟩, -⟩ := prune_done hnames hdone
  have hperm := hrest.entries rfl
  have hentries := scan_entries (s := ⟨[], [], 0, 0, true⟩) ((Nat.zero_add _).trans_le hroom) hok
  have hmem : f ∈ gone ++ rest := by
    rw [hsplit, (sorted_perm _).mem_iff, hentries]
    exact hf
  have hkept : f ∉ rest := fun hmem => hgone (List.mem_of_mem_filter (hperm.mem_iff.mpr hmem))
  have hsorted := sorted_oldest (scan calls startup dir ⟨[], [], 0, 0, true⟩).entries
  rw [← hsplit] at hsorted
  exact (List.pairwise_append.mp hsorted).2.2 f ((List.mem_append.mp hmem).resolve_right hkept) g
    (hperm.mem_iff.mp hg)

end Trims

def succeeding : Calls where
  opened := true
  reads _ := true
  ended := true
  stats _ := true
  unlinks _ := true
  grows _ := true
  closed := true

def download (digit : UInt8) (bytes : Nat) (sec : Int) : File :=
  ⟨List.replicate 64 digit, true, bytes, ⟨sec, 0⟩⟩

/-- Of two downloads, the older one goes. -/
theorem trim_oldest_two : oldest (download 48 600 1) (download 49 500 2) ≤ 0 := by
  have hdone : (prune succeeding [download 49 500 2, download 48 600 1] 1000 10 false).1 =
      some ⟨500, 1⟩ := by decide +kernel
  exact trim_oldest (by decide) (by decide) hdone (by decide) (by decide +kernel)
    (by decide +kernel)

/-! ## The usage bounds what is on disk -/

section Runs

variable {limits : Limits} {dir dir' : List File} {s s' : Cache} {usage : Usage}

theorem Bounds.sublist (h : Bounds dir usage) (hsub : (cached dir').Sublist (cached dir)) :
    Bounds dir' usage :=
  ⟨(min_le_min_right _ (size_sublist hsub)).trans h.bytes,
    (min_le_min_right _ hsub.length_le).trans h.entries⟩

/-- The names are different, and a known usage bounds the downloads and is within the limits. -/
structure Accounted (limits : Limits) (s : Cache) : Prop where
  names : (s.dir.map File.name).Nodup
  bounds : ∀ usage, s.usage = some usage → Bounds s.dir usage
  bytes : ∀ usage, s.usage = some usage → usage.bytes ≤ limits.bytes
  entries : ∀ usage, s.usage = some usage → usage.entries ≤ limits.entries

theorem trim_accounted (calls : Calls) (startup : Bool) (hnames : (dir.map File.name).Nodup) :
    Accounted limits (trim limits calls startup dir) := by
  refine ⟨nodup_sublist (prune_sublist hnames) hnames, fun usage h => prune_bounds hnames h,
    fun usage h => ?_, fun usage h => ?_⟩
  · obtain ⟨-, -, hbytes, -⟩ := prune_done hnames h
    exact hbytes.trans limits.trimBytes_lt.le
  · obtain ⟨-, -, -, hentries⟩ := prune_done hnames h
    exact hentries.trans limits.trimEntries_lt.le

/-- A directory to which at most one download of so many bytes has been added. -/
structure Grown (dir dir' : List File) (bytes : Nat) : Prop where
  names : (dir'.map File.name).Nodup
  size : size (cached dir') ≤ size (cached dir) + bytes
  entries : (cached dir').length ≤ (cached dir).length + 1

theorem saturated_le {a b c n most : Nat} (h : min a most ≤ c) (hn : n ≤ a + b) :
    min n most ≤ min (c + b) most := by omega

theorem Bounds.counted {bytes : Nat} (h : Bounds dir usage) (hgrown : Grown dir dir' bytes) :
    Bounds dir' (counted bytes usage) :=
  ⟨saturated_le h.bytes hgrown.size, saturated_le h.entries hgrown.entries⟩

theorem downloaded_accounted (h : Accounted limits s) {bytes : Nat} (hgrown : Grown s.dir dir' bytes)
    (calls : Calls) : Accounted limits (downloaded limits calls bytes { s with dir := dir' }) := by
  unfold downloaded
  split
  next => exact trim_accounted calls false hgrown.names
  next usage husage =>
    split
    next hwithin =>
      rw [Bool.and_eq_true, decide_eq_true_eq, decide_eq_true_eq] at hwithin
      refine ⟨hgrown.names, fun u hu => ?_, fun u hu => ?_, fun u hu => ?_⟩
      · obtain rfl := Option.some.inj hu
        exact (h.bounds usage husage).counted hgrown
      · obtain rfl := Option.some.inj hu
        exact hwithin.1
      · obtain rfl := Option.some.inj hu
        exact hwithin.2
    next => exact trim_accounted calls false hgrown.names

theorem Grown.refl (hnames : (dir.map File.name).Nodup) (bytes : Nat) : Grown dir dir bytes :=
  ⟨hnames, Nat.le_add_right _ _, Nat.le_succ _⟩

theorem Grown.put {f : File} {bytes : Nat} (hnames : (dir.map File.name).Nodup)
    (hsub : dir'.Sublist dir) (hbytes : f.bytes ≤ bytes) :
    Grown dir (without f.name dir' ++ [f]) bytes := by
  have hkept : (cached (without f.name dir')).Sublist (cached dir) :=
    cached_sublist ((without_sublist f.name dir').trans hsub)
  refine ⟨nodup_put (nodup_sublist hsub hnames), ?_, ?_⟩
  · rw [cached_append, size_append]
    refine Nat.add_le_add (size_sublist hkept) ((size_sublist List.filter_sublist).trans ?_)
    rwa [size_cons]
  · rw [cached_append, List.length_append]
    exact Nat.add_le_add hkept.length_le (List.filter_sublist (l := [f])).length_le

theorem install_grown {temporary : Bytes} {f : File} {bytes : Nat}
    (hnames : (s.dir.map File.name).Nodup) (hbytes : f.bytes ≤ bytes) :
    ∃ dir', install temporary f s = { s with dir := dir' } ∧ Grown s.dir dir' bytes := by
  unfold install
  split_ifs
  · exact ⟨s.dir, rfl, .refl hnames bytes⟩
  · exact ⟨_, rfl, .put hnames (without_sublist temporary s.dir) hbytes⟩

theorem Accounted.shrunk (h : Accounted limits s) (hnames : (dir'.map File.name).Nodup)
    (hsub : (cached dir').Sublist (cached s.dir)) : Accounted limits { s with dir := dir' } :=
  ⟨hnames, fun usage hu => (h.bounds usage hu).sublist hsub, h.bytes, h.entries⟩

theorem touch_accounted (h : Accounted limits s) (name : Bytes) (now : Timespec) :
    Accounted limits (touch name now s) := by
  unfold touch
  split_ifs
  · generalize htouched : (fun f : File => if f.name = name && f.regular then { f with used := now }
      else f) = used
    have hsame (f : File) : (used f).name = f.name ∧ (used f).bytes = f.bytes ∧ keyed (used f) = keyed f := by
      rw [← htouched]
      dsimp only
      split_ifs
      · exact ⟨rfl, rfl, rfl⟩
      · exact ⟨rfl, rfl, rfl⟩
    have hcached : cached (s.dir.map used) = (cached s.dir).map used := by
      rw [cached, cached, List.filter_map]
      exact congrArg (List.map used) (List.filter_congr fun f _ => (hsame f).2.2)
    have hsize : size (cached (s.dir.map used)) = size (cached s.dir) := by
      rw [hcached, size, List.map_map, size]
      exact congrArg List.sum (List.map_congr_left fun f _ => (hsame f).2.1)
    refine ⟨?_, fun usage hu => ⟨?_, ?_⟩, h.bytes, h.entries⟩
    · rw [List.map_map]
      exact (List.map_congr_left fun f _ => (hsame f).1) ▸ h.names
    · rw [hsize]
      exact (h.bounds usage hu).bytes
    · rw [hcached, List.length_map]
      exact (h.bounds usage hu).entries
  · exact h

theorem step_accounted (h : Accounted limits s) (hstep : Step limits s s') :
    Accounted limits s' := by
  cases hstep with
  | written f hname =>
    refine h.shrunk (nodup_put h.names) ?_
    rw [cached_append, cached_cons_other (temporary_other hname)]
    change (_ ++ []).Sublist _
    rw [List.append_nil]
    exact cached_sublist (without_sublist f.name s.dir)
  | installed temporary f bytes hbytes calls =>
    obtain ⟨dir', hdir, hgrown⟩ := install_grown h.names hbytes
    rw [hdir]
    exact downloaded_accounted h hgrown calls
  | failed bytes calls => exact downloaded_accounted h (.refl h.names bytes) calls
  | removed name =>
    unfold remove
    split_ifs
    · exact h.shrunk (nodup_sublist (without_sublist name s.dir) h.names)
        (cached_sublist (without_sublist name s.dir))
    · exact h
  | read name now => exact touch_accounted h name now
  | listed dir hperm =>
    have hcached : (cached dir).Perm (cached s.dir) := hperm.filter keyed
    refine ⟨(hperm.map File.name).nodup_iff.mpr h.names, fun usage hu => ?_, h.bytes, h.entries⟩
    have hbounds := h.bounds usage hu
    refine ⟨?_, ?_⟩
    · rw [size_perm hcached]
      exact hbounds.bytes
    · rw [hcached.length_eq]
      exact hbounds.entries
  | restarted calls => exact trim_accounted calls true h.names

theorem Reachable.accounted (h : Reachable limits s) : Accounted limits s := by
  induction h with
  | init dir hnames calls => exact trim_accounted calls true hnames
  | step _ hstep ih => exact step_accounted ih hstep

/-- However downloads, failures, reads, removals and restarts follow each other, the downloads on disk
are within the limits whenever the usage is known. -/
theorem cache_within (h : Reachable limits s) (hlimit : limits.bytes < sizeMax)
    (hknown : s.usage ≠ none) :
    size (cached s.dir) ≤ limits.bytes ∧ (cached s.dir).length ≤ limits.entries := by
  obtain ⟨usage, husage⟩ := Option.ne_none_iff_exists'.mp hknown
  have hacc := h.accounted
  have hbounds := hacc.bounds usage husage
  have hentries : limits.entries < sizeMax := lt_of_le_of_lt limits.entries_le (by decide)
  refine ⟨?_, ?_⟩
  · exact (min_le_iff.mp (hbounds.bytes.trans (hacc.bytes usage husage))).resolve_right hlimit.not_ge
  · exact (min_le_iff.mp (hbounds.entries.trans (hacc.entries usage husage))).resolve_right
      hentries.not_ge

end Runs

def mediaLimits : Limits where
  bytes := 496 * 1024 * 1024
  trimBytes := 448 * 1024 * 1024
  entries := 8192
  trimEntries := 7680
  trimBytes_lt := by decide
  trimEntries_lt := by decide
  entries_le := by decide

/-- `tmp-` and 32 digits. -/
def temporary : Bytes := [116, 109, 112, 45] ++ List.replicate 32 48

/-- A download of a million bytes into a directory with one of a thousand, which is read later. -/
def grown : Cache :=
  touch (List.replicate 64 48) ⟨3, 0⟩ (downloaded mediaLimits succeeding 1000000
    (install temporary (download 49 1000000 2) (init mediaLimits succeeding [download 48 1000 1])))

theorem cache_within_media :
    grown.dir = [download 48 1000 3, download 49 1000000 2] ∧
      size (cached grown.dir) ≤ mediaLimits.bytes :=
  ⟨by decide +kernel, (cache_within
    (.step (.step (.init [download 48 1000 1] (by decide) succeeding)
      (.installed _ temporary (download 49 1000000 2) 1000000 (by decide) succeeding))
      (.read _ (List.replicate 64 48) ⟨3, 0⟩))
    (by decide) (by decide +kernel)).1⟩

end Zimbr.DiskCache
