import Zimbr.Library.Table

set_option autoImplicit false

/-!
# Directories of files

One root directory holds named directories of regular files. Names are the same only
if their bytes are, as on a case-sensitive volume. A descriptor is a handle; once its
directory is unlinked, what is done through it is invisible.
-/
namespace Library

structure File (β : Type) where
  handle : Nat
  bytes : List β := []
  /-- The bytes and the name are on stable storage. -/
  synced : Bool := false

structure Directory (κ β : Type) where
  handle : Nat
  files : Table κ (File β) := .empty

structure Disk (κ β : Type) where
  directories : Table κ (Directory κ β) := .empty
  next : Nat := 0

namespace Disk

variable {κ β : Type} [DecidableEq κ]

def handle? (disk : Disk κ β) (id : κ) : Option Nat := (disk.directories.get? id).map (·.handle)

def file? (disk : Disk κ β) (id name : κ) : Option (File β) :=
  (disk.directories.get? id).bind fun d => d.files.get? name

def opened (disk : Disk κ β) (handle : Nat) : Option (Directory κ β) :=
  (disk.directories.rows.find? fun r => decide (r.2.handle = handle)).map Prod.snd

/-- The length of an open file that is still linked. -/
def size? (disk : Disk κ β) (handle file : Nat) : Option Nat :=
  (disk.opened handle).bind fun d =>
    (d.files.rows.find? fun r => decide (r.2.handle = file)).map fun r => r.2.bytes.length

def within (disk : Disk κ β) (handle : Nat) (f : Table κ (File β) → Table κ (File β)) :
    Disk κ β := { disk with
  directories := disk.directories.modifyWhere (fun _ d => decide (d.handle = handle))
    fun d => { d with files := f d.files } }

def mkdir (disk : Disk κ β) (id : κ) : Option (Nat × Disk κ β) :=
  (disk.directories.insert id { handle := disk.next }).map fun directories =>
    (disk.next, { directories := directories, next := disk.next + 1 })

def create (disk : Disk κ β) (handle : Nat) (name : κ) : Option (Nat × Disk κ β) :=
  match disk.opened handle with
  | some d =>
    if (d.files.get? name).isSome then none
    else some (disk.next, { disk.within handle fun files =>
      files.upsert name { handle := disk.next } (fun f => f) with next := disk.next + 1 })
  | none => none

def append (disk : Disk κ β) (handle file : Nat) (bytes : List β) : Disk κ β :=
  disk.within handle fun files =>
    files.modifyWhere (fun _ f => decide (f.handle = file)) fun f =>
      { f with bytes := f.bytes ++ bytes, synced := false }

/-- The files once one of them is durable under its name. -/
def renamed (files : Table κ (File β)) (temporary name : κ) (file : File β) : Table κ (File β) :=
  (files.deleteWhere fun name' _ => decide (name' = temporary)).upsert name
    { file with synced := true } fun _ => { file with synced := true }

/-- Durably give a file a name that must not exist. -/
def install (disk : Disk κ β) (handle : Nat) (temporary name : κ) : Option (Disk κ β) :=
  match disk.opened handle with
  | some d =>
    match d.files.get? temporary with
    | some file =>
      if (d.files.get? name).isSome then none
      else some (disk.within handle fun files => renamed files temporary name file)
    | none => none
  | none => none

def unlink (disk : Disk κ β) (handle : Nat) (name : κ) : Disk κ β :=
  disk.within handle fun files => files.deleteWhere fun name' _ => decide (name' = name)

def rmdir (disk : Disk κ β) (id : κ) : Option (Disk κ β) :=
  match disk.directories.get? id with
  | some d =>
    if d.files.rows.isEmpty then
      some { disk with directories := disk.directories.deleteWhere fun id' _ => decide (id' = id) }
    else none
  | none => none

/-- A power failure may lose what is not on stable storage. -/
def lose (disk : Disk κ β) (lost : List Nat) : Disk κ β := { disk with
  directories := disk.directories.modifyWhere (fun _ _ => true) fun d => { d with
    files := d.files.modifyWhere (fun _ f => decide (f.handle ∈ lost) && !f.synced)
      fun f => { f with bytes := [] } } }

/-- Directories have different handles, all of them issued. -/
structure Sound (disk : Disk κ β) : Prop where
  distinct : ∀ a b d d', disk.directories.get? a = some d → disk.directories.get? b = some d' →
    d.handle = d'.handle → a = b
  issued : ∀ a d, disk.directories.get? a = some d → d.handle < disk.next

/-- Only the directory of one name changed. -/
structure OnlyAt (id : κ) (disk disk' : Disk κ β) : Prop where
  sound : disk'.Sound
  next : disk.next ≤ disk'.next
  others : ∀ id', id' ≠ id → disk'.directories.get? id' = disk.directories.get? id'

section Frames

variable {disk disk' : Disk κ β} {id : κ} {handle : Nat}

theorem OnlyAt.refl (h : disk.Sound) (id : κ) : OnlyAt id disk disk :=
  ⟨h, Nat.le_refl _, fun _ _ => rfl⟩

theorem OnlyAt.file? (h : OnlyAt id disk disk') {id' : κ} (hne : id' ≠ id) (name : κ) :
    disk'.file? id' name = disk.file? id' name := by
  unfold Disk.file?
  rw [h.others id' hne]

theorem OnlyAt.handle? (h : OnlyAt id disk disk') {id' : κ} (hne : id' ≠ id) :
    disk'.handle? id' = disk.handle? id' := by
  unfold Disk.handle?
  rw [h.others id' hne]

theorem Sound.opened (h : disk.Sound) {d : Directory κ β}
    (hd : disk.directories.get? id = some d) : disk.opened d.handle = some d := by
  have hmem := (Table.get?_eq_some_iff _ _ _).mp hd
  cases hfind : disk.directories.rows.find? fun r => decide (r.2.handle = d.handle) with
  | none =>
    rw [List.find?_eq_none] at hfind
    exact absurd (decide_eq_true rfl) (hfind _ hmem)
  | some r =>
    have hr := (Table.get?_eq_some_iff _ r.1 r.2).mpr (List.mem_of_find?_eq_some hfind)
    have hhandle : r.2.handle = d.handle := by simpa using List.find?_some hfind
    have hid := h.distinct r.1 id r.2 d hr hd hhandle
    rw [hid, hd, Option.some.injEq] at hr
    rw [Disk.opened, hfind, hr]
    rfl

theorem get?_within (f : Table κ (File β) → Table κ (File β)) (id' : κ) :
    (disk.within handle f).directories.get? id' = (disk.directories.get? id').map fun d =>
      if d.handle = handle then { d with files := f d.files } else d := by
  rw [within, Table.get?_modifyWhere]
  simp only [decide_eq_true_eq]

theorem Sound.within (h : disk.Sound) {d : Directory κ β}
    (hd : disk.directories.get? id = some d) (f : Table κ (File β) → Table κ (File β)) :
    OnlyAt id disk (disk.within d.handle f) ∧
      (disk.within d.handle f).directories.get? id = some { d with files := f d.files } := by
  have hget (id' : κ) : (disk.within d.handle f).directories.get? id' =
      (disk.directories.get? id').map fun d' =>
        if d'.handle = d.handle then { d' with files := f d'.files } else d' :=
    get?_within f id'
  have hkeeps (id' : κ) (d' : Directory κ β)
      (hd' : (disk.within d.handle f).directories.get? id' = some d') :
      ∃ d₀, disk.directories.get? id' = some d₀ ∧ d₀.handle = d'.handle := by
    rw [hget, Option.map_eq_some_iff] at hd'
    obtain ⟨d₀, hd₀, hd'⟩ := hd'
    refine ⟨d₀, hd₀, ?_⟩
    rw [← hd']
    split_ifs <;> rfl
  refine ⟨⟨⟨fun a b da db ha hb hsame => ?_, fun a da ha => ?_⟩, Nat.le_refl _, fun id' hne => ?_⟩, ?_⟩
  · obtain ⟨da₀, ha₀, hha⟩ := hkeeps a da ha
    obtain ⟨db₀, hb₀, hhb⟩ := hkeeps b db hb
    exact h.distinct a b da₀ db₀ ha₀ hb₀ (hha.trans (hsame.trans hhb.symm))
  · obtain ⟨da₀, ha₀, hha⟩ := hkeeps a da ha
    rw [← hha]
    exact h.issued a da₀ ha₀
  · rw [hget]
    cases hd' : disk.directories.get? id' with
    | none => rfl
    | some d' =>
      rw [Option.map_some, if_neg]
      exact fun hsame => hne (h.distinct id' id d' d hd' hd hsame)
  · rw [hget, hd, Option.map_some, if_pos rfl]

/-- Work through the handle of a name stays in the directory of that name. -/
theorem Sound.within_handle (h : disk.Sound) (hhandle : disk.handle? id = some handle)
    (f : Table κ (File β) → Table κ (File β)) :
    OnlyAt id disk (disk.within handle f) ∧ (disk.within handle f).handle? id = some handle := by
  obtain ⟨d, hd, rfl⟩ := Option.map_eq_some_iff.mp hhandle
  obtain ⟨honly, hget⟩ := h.within hd f
  refine ⟨honly, ?_⟩
  rw [handle?, hget]
  rfl

theorem Sound.mkdir (h : disk.Sound) (hmade : disk.mkdir id = some (handle, disk')) :
    OnlyAt id disk disk' ∧ disk'.directories.get? id = some { handle := handle } := by
  unfold Disk.mkdir at hmade
  rw [Option.map_eq_some_iff] at hmade
  obtain ⟨directories, hinsert, hmade⟩ := hmade
  rw [Prod.mk.injEq] at hmade
  obtain ⟨hhandle, hdisk⟩ := hmade
  rw [← hhandle, ← hdisk]
  have hget := Table.get?_insert hinsert
  have habsent := Table.get?_of_insert hinsert
  refine ⟨⟨⟨fun a b da db ha hb hsame => ?_, fun a da ha => ?_⟩, Nat.le_succ _, fun id' hne => ?_⟩, ?_⟩
  · by_cases hida : a = id
    · by_cases hidb : b = id
      · rw [hida, hidb]
      · rw [hget, if_neg hidb] at hb
        rw [hget, if_pos hida, Option.some.injEq] at ha
        have hlt := h.issued b db hb
        rw [← hsame, ← ha] at hlt
        exact absurd hlt (Nat.lt_irrefl _)
    · by_cases hidb : b = id
      · rw [hget, if_neg hida] at ha
        rw [hget, if_pos hidb, Option.some.injEq] at hb
        have hlt := h.issued a da ha
        rw [hsame, ← hb] at hlt
        exact absurd hlt (Nat.lt_irrefl _)
      · rw [hget, if_neg hida] at ha
        rw [hget, if_neg hidb] at hb
        exact h.distinct a b da db ha hb hsame
  · rw [hget] at ha
    split_ifs at ha with hid
    · rw [← Option.some.inj ha]
      exact Nat.lt_succ_self _
    · exact Nat.lt_succ_of_lt (h.issued a da ha)
  · exact (hget id').trans (if_neg hne)
  · exact (hget id).trans (if_pos rfl)

theorem OnlyAt.later {n : Nat} (h : OnlyAt id disk disk') (hn : disk'.next ≤ n) :
    OnlyAt id disk { disk' with next := n } where
  sound := ⟨h.sound.distinct, fun a d ha => Nat.lt_of_lt_of_le (h.sound.issued a d ha) hn⟩
  next := Nat.le_trans h.next hn
  others := h.others

theorem Sound.create (h : disk.Sound) {d : Directory κ β} {name : κ} {file : Nat}
    (hd : disk.directories.get? id = some d)
    (hmade : disk.create d.handle name = some (file, disk')) :
    OnlyAt id disk disk' ∧ disk'.directories.get? id =
      some { d with files := d.files.upsert name { handle := file } fun f => f } := by
  unfold Disk.create at hmade
  rw [h.opened hd] at hmade
  dsimp only at hmade
  split_ifs at hmade
  rw [Option.some.injEq, Prod.mk.injEq] at hmade
  obtain ⟨hfile, hdisk⟩ := hmade
  obtain ⟨honly, hget⟩ := h.within hd fun files =>
    files.upsert name { handle := disk.next } fun f => f
  rw [← hfile, ← hdisk]
  exact ⟨honly.later (Nat.le_succ _), hget⟩

theorem Sound.install (h : disk.Sound) {d : Directory κ β} {temporary name : κ}
    (hd : disk.directories.get? id = some d)
    (hmade : disk.install d.handle temporary name = some disk') :
    ∃ file, d.files.get? temporary = some file ∧ OnlyAt id disk disk' ∧
      disk'.directories.get? id =
        some { d with files := renamed d.files temporary name file } := by
  unfold Disk.install at hmade
  rw [h.opened hd] at hmade
  dsimp only at hmade
  split at hmade
  · next file hfile =>
    split_ifs at hmade
    rw [Option.some.injEq] at hmade
    rw [← hmade]
    exact ⟨file, hfile, h.within hd _⟩
  · cases hmade

theorem Sound.rmdir (h : disk.Sound) (hmade : disk.rmdir id = some disk') :
    OnlyAt id disk disk' ∧ disk'.directories.get? id = none := by
  unfold Disk.rmdir at hmade
  split at hmade
  · split_ifs at hmade
    rw [Option.some.injEq] at hmade
    rw [← hmade]
    have hget (id' : κ) := Table.get?_deleteWhere disk.directories
      (fun id' _ => decide (id' = id)) id'
    have hkept (id' : κ) (d' : Directory κ β)
        (hd' : (disk.directories.deleteWhere fun id' _ => decide (id' = id)).get? id' = some d') :
        disk.directories.get? id' = some d' := by
      rw [hget, Option.filter_eq_some_iff] at hd'
      exact hd'.1
    refine ⟨⟨⟨fun a b da db ha hb => h.distinct a b da db (hkept a da ha) (hkept b db hb),
      fun a da ha => h.issued a da (hkept a da ha)⟩, Nat.le_refl _, fun id' hne => ?_⟩, ?_⟩
    · change (disk.directories.deleteWhere _).get? id' = _
      rw [hget]
      cases hd' : disk.directories.get? id' <;> simp [hne]
    · change (disk.directories.deleteWhere _).get? id = none
      rw [hget]
      cases hd' : disk.directories.get? id <;> simp
  · cases hmade

/-- What is on stable storage survives a power failure. -/
theorem file?_lose {lost : List Nat} {name : κ} {file : File β} (hfile : disk.file? id name = some file)
    (hsynced : file.synced = true) : (disk.lose lost).file? id name = some file := by
  unfold Disk.file? at hfile ⊢
  rw [Option.bind_eq_some_iff] at hfile
  obtain ⟨d, hd, hfile⟩ := hfile
  simp [lose, Table.get?_modifyWhere, hd, hfile, hsynced]

theorem Sound.lose (h : disk.Sound) (lost : List Nat) : (disk.lose lost).Sound := by
  have hkept (id' : κ) (d' : Directory κ β)
      (hd' : (disk.lose lost).directories.get? id' = some d') :
      ∃ d₀, disk.directories.get? id' = some d₀ ∧ d₀.handle = d'.handle := by
    rw [Disk.lose, Table.get?_modifyWhere, Option.map_eq_some_iff] at hd'
    obtain ⟨d₀, hd₀, hd'⟩ := hd'
    exact ⟨d₀, hd₀, by rw [← hd']; rfl⟩
  refine ⟨fun a b da db ha hb hsame => ?_, fun a da ha => ?_⟩
  · obtain ⟨da₀, ha₀, hha⟩ := hkept a da ha
    obtain ⟨db₀, hb₀, hhb⟩ := hkept b db hb
    exact h.distinct a b da₀ db₀ ha₀ hb₀ (hha.trans (hsame.trans hhb.symm))
  · obtain ⟨da₀, ha₀, hha⟩ := hkept a da ha
    rw [← hha]
    exact h.issued a da₀ ha₀

end Frames

end Disk

end Library
