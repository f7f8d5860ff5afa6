import Zimbr.Library.Checked
import Zimbr.Library.Machine
import Zimbr.Library.Totals
import Zimbr.Protocol.Types

set_option autoImplicit false

/-!
# Textures of the GUI thread

Decoded images become textures within a budget, and the least recently drawn make room.
Bytes and decoding belong to the media worker.
-/
namespace Zimbr
open Library

namespace ImageCache

def textureBudget : Nat := 64 * 1024 * 1024

structure Key where
  bytes : Bytes
  deriving DecidableEq, Repr

def Key.isAvatar (key : Key) : Bool := key.bytes.head?.any fun b => b / 16 = 10

structure Texture where
  w : Nat
  h : Nat
  deriving DecidableEq, Repr

def textureBytes (texture : Texture) : Nat := texture.w * texture.h * 4

inductive FailureKind where
  | offline | preparing | failed | denied
  deriving DecidableEq, Repr

structure Failure where
  kind : FailureKind
  retryAt : Int
  reason : Bytes
  deriving DecidableEq, Repr

inductive Content where
  | pending
  | requested
  | ready (texture : Texture)
  | unavailable (failure : Failure)
  | retired (refresh : Bool)
  deriving DecidableEq, Repr

structure Entry where
  used : Nat := 0
  attempts : Nat := 0
  content : Content := .pending
  deriving DecidableEq, Repr

namespace Entry

def availableTexture (entry : Entry) : Option Texture :=
  match entry.content with
  | .ready texture => some texture
  | _ => none

def canRetry (entry : Entry) : Bool :=
  match entry.content with
  | .unavailable failure => failure.kind != .denied && failure.kind != .preparing
  | _ => false

def wantsRequest (entry : Entry) (now : Int) : Bool :=
  match entry.content with
  | .pending | .requested => true
  | .unavailable failure => failure.retryAt > 0 && now ≥ failure.retryAt
  | .ready _ | .retired _ => false

def isRetired (entry : Entry) : Bool :=
  match entry.content with
  | .retired _ => true
  | _ => false

def weight (entry : Entry) : Nat := (entry.availableTexture.map textureBytes).getD 0

end Entry

structure Pixels where
  present : Bool
  width : Int
  height : Int
  bytes : Nat
  deriving DecidableEq, Repr

inductive ResultState where
  | ready | offline | pending | failed | retired | denied
  deriving DecidableEq, Repr

structure Result where
  key : Key
  pixels : Pixels
  state : ResultState
  retryAt : Int
  reason : Bytes
  deriving DecidableEq, Repr

structure Order where
  walk : Table Key Entry → List Key
  perm : ∀ entries, (walk entries).Perm (entries.rows.map Prod.fst)

end ImageCache

open ImageCache in
structure ImageCache where
  entries : Table Key Entry := Table.empty
  bytes : Nat := 0
  frame : Nat := 0

namespace ImageCache

def edit (key : Key) (f : Entry → Entry) : Checked Empty ImageCache Unit :=
  Checked.modify fun s => { s with entries := s.entries.modify key f }

def setBytes (bytes : Nat) : Checked Empty ImageCache Unit :=
  Checked.modify fun s => { s with bytes := bytes }

/-- The first half of `release`: the texture is destroyed. -/
def refund (entry : Entry) : Checked Empty ImageCache Unit :=
  match entry.availableTexture with
  | some texture => do
    let bytes ← Checked.get ImageCache.bytes
    let left ← Checked.sub bytes (textureBytes texture)
    setBytes left
  | none => pure ()

def release (key : Key) : Checked Empty ImageCache Unit := do
  let entries ← Checked.get ImageCache.entries
  let entry ← Checked.orTrap (entries.get? key)
  refund entry
  edit key fun entry => { entry with content := .pending }

def contextChanged (order : Order) (avatars : Bool) : Checked Empty ImageCache Unit := do
  let entries ← Checked.get ImageCache.entries
  let _ ← Checked.each (fun key => do
    let entries ← Checked.get ImageCache.entries
    let entry ← Checked.orTrap (entries.get? key)
    if (!avatars && key.isAvatar) || entry.availableTexture.isNone then do
      release key
      edit key fun _ => {}
    else pure ()) (order.walk entries)
  pure ()

def olderTexture (entries : Table Key Entry) (oldest : Option (Key × Nat)) (key : Key) :
    Option (Key × Nat) :=
  match entries.get? key with
  | some entry =>
    if entry.availableTexture.isSome && oldest.all (fun best => entry.used < best.2) then
      some (key, entry.used)
    else oldest
  | none => oldest

def oldestTexture (order : Order) (entries : Table Key Entry) : Option Key :=
  ((order.walk entries).foldl (olderTexture entries) none).map Prod.fst

def makeRoom (order : Order) (bytes : Nat) : Nat → Checked Empty ImageCache Unit
  | 0 => Checked.trap
  | turns + 1 =>
    if bytes ≤ textureBudget then do
      let resident ← Checked.get ImageCache.bytes
      let sum ← Checked.add resident bytes
      if sum > textureBudget then do
        let entries ← Checked.get ImageCache.entries
        match oldestTexture order entries with
        | none => pure ()
        | some key => do
          release key
          makeRoom order bytes turns
      else pure ()
    else pure ()

/-- `created` says whether the graphics library made the texture. -/
def upload (result : Result) (created : Bool) : Option Texture :=
  let pixels := result.pixels
  if !pixels.present || pixels.width ≤ 0 || pixels.height ≤ 0 ||
      pixels.width.toNat * pixels.height.toNat * 4 != pixels.bytes ||
      pixels.bytes > textureBudget then none
  else if pixels.width > (2 ^ 31 - 1) / 4 then none
  else if created then some ⟨pixels.width.toNat, pixels.height.toNat⟩
  else none

def failureKind : ResultState → FailureKind
  | .offline => .offline
  | .pending => .preparing
  | .denied => .denied
  | _ => .failed

def delay (attempts : Nat) : Int := min 30000 (2000 * 2 ^ min (attempts - 1) 4)

/-- The content of an entry by its result. Readiness is committed only after the upload is
accepted. -/
def commit (order : Order) (result : Result) (created : Bool) (now : Int) (attempts turns : Nat) :
    Checked Empty ImageCache Unit :=
  match result.state with
  | .ready => do
    makeRoom order result.pixels.bytes turns
    match upload result created with
    | none =>
      edit result.key fun entry => { entry with content := .unavailable {
        kind := .failed, retryAt := now + delay attempts
        reason := text "Could not upload image · retrying" } }
    | some texture => do
      edit result.key fun entry => { entry with content := .ready texture, attempts := 0 }
      let bytes ← Checked.get ImageCache.bytes
      let bytes ← Checked.add bytes (textureBytes texture)
      setBytes bytes
  | .retired => edit result.key fun entry => { entry with content := .retired true }
  | state =>
    edit result.key fun entry => { entry with content := .unavailable {
      kind := failureKind state
      retryAt := if result.retryAt = 0 then 0 else max result.retryAt (now + delay attempts)
      reason := result.reason } }

def accept (order : Order) (result : Result) (created : Bool) (now : Int) :
    Checked Empty ImageCache Unit := do
  let entries ← Checked.get ImageCache.entries
  match entries.get? result.key with
  | none => pure ()
  | some entry => do
    release result.key
    let frame ← Checked.get ImageCache.frame
    let attempts := min (entry.attempts + 1) 255
    edit result.key fun entry => { entry with used := frame, attempts := attempts }
    commit order result created now attempts (entries.rows.length + 1)

def olderEntry (entries : Table Key Entry) (oldest : Option Key × Nat) (key : Key) :
    Option Key × Nat :=
  match entries.get? key with
  | some entry => if entry.used ≤ oldest.2 then (some key, entry.used) else oldest
  | none => oldest

def oldestEntry (order : Order) (entries : Table Key Entry) : Option Key :=
  ((order.walk entries).foldl (olderEntry entries) (none, 2 ^ 64 - 1)).1

/-- Leave room for new visible requests below the hard 1024-entry cap. -/
def evict (order : Order) : Nat → Checked Empty ImageCache Unit
  | 0 => Checked.trap
  | turns + 1 => do
    let entries ← Checked.get ImageCache.entries
    if entries.rows.length > 896 then
      match oldestEntry order entries with
      | none => pure ()
      | some key => do
        let removed ← Checked.orTrap (entries.get? key)
        Checked.modify fun s => { s with
          entries := s.entries.deleteWhere fun other _ => decide (other = key) }
        refund removed
        evict order turns
    else pure ()

def nextFrame (order : Order) : Checked Empty ImageCache Unit := do
  Checked.modify fun s => { s with frame := (s.frame + 1) % 2 ^ 64 }
  let entries ← Checked.get ImageCache.entries
  evict order (entries.rows.length + 1)

/-- Whether the key has an entry then. A new one needs memory. -/
def touch (key : Key) (allocated : Bool) : Checked Empty ImageCache Bool := do
  let s ← Checked.get id
  if s.entries.rows.length ≥ 1024 && !s.entries.contains key then pure false
  else if !s.entries.contains key && !allocated then pure false
  else do
    Checked.modify fun s => { s with entries := (s.entries.insert key {}).getD s.entries }
    edit key fun entry => { entry with used := s.frame }
    pure true

/-- `requested` says whether the media worker took the request. -/
def request (key : Key) (requested : Bool) (now : Int) : Checked Empty ImageCache Unit := do
  let entries ← Checked.get ImageCache.entries
  let entry ← Checked.orTrap (entries.get? key)
  if entry.wantsRequest now && requested then
    edit key fun entry => { entry with content := .requested }
  else pure ()

def get (mediaKey : AssetRef → Key) (avatars : Bool) (asset : AssetRef) (allocated requested : Bool)
    (now : Int) : Checked Empty ImageCache (Option Key) :=
  if !avatars && asset.variant = .avatar then pure none
  else do
    let key := mediaKey asset
    let touched ← touch key allocated
    if !touched then pure none
    else if asset.availability = .retired then do
      let entries ← Checked.get ImageCache.entries
      let entry ← Checked.orTrap (entries.get? key)
      if !entry.isRetired then do
        release key
        edit key fun entry => { entry with content := .retired true }
        pure (some key)
      else pure (some key)
    else do
      request key requested now
      pure (some key)

def getLocal (key : Key) (allocated requested : Bool) (now : Int) :
    Checked Empty ImageCache (Option Key) := do
  let touched ← touch key allocated
  if !touched then pure none
  else do
    request key requested now
    pure (some key)

def retry (key : Key) : Checked Empty ImageCache Unit :=
  edit key fun entry => if entry.canRetry then { entry with content := .pending } else entry

def takeRefresh (key : Key) : Checked Empty ImageCache Unit :=
  edit key fun entry => if entry.isRetired then { entry with content := .retired false } else entry

inductive Op where
  | accept (order : Order) (result : Result) (created : Bool) (now : Int)
  | get (avatars : Bool) (asset : AssetRef) (allocated requested : Bool) (now : Int)
  | getLocal (key : Key) (allocated requested : Bool) (now : Int)
  | nextFrame (order : Order)
  | contextChanged (order : Order) (avatars : Bool)
  | retry (key : Key)
  | takeRefresh (key : Key)

def perform (mediaKey : AssetRef → Key) : Op → Checked Empty ImageCache (Option Key)
  | .accept order result created now => do
    accept order result created now
    pure none
  | .get avatars asset allocated requested now => get mediaKey avatars asset allocated requested now
  | .getLocal key allocated requested now => getLocal key allocated requested now
  | .nextFrame order => do
    nextFrame order
    pure none
  | .contextChanged order avatars => do
    contextChanged order avatars
    pure none
  | .retry key => do
    retry key
    pure none
  | .takeRefresh key => do
    takeRefresh key
    pure none

def run (mediaKey : AssetRef → Key) (s : ImageCache) (ops : List Op) : Option ImageCache :=
  ops.foldl (fun s op => s.bind fun s => match perform mediaKey op s with
    | (.ok _, s') => some s'
    | (.error _, _) => none) (some s)

/-- The total is what the textures take, and entries and textures are bounded. -/
structure Sound (s : ImageCache) : Prop where
  bytes : s.bytes = s.entries.total Entry.weight
  budget : s.bytes ≤ textureBudget
  count : s.entries.rows.length ≤ 1024

variable {s : ImageCache} {key : Key} {entry : Entry} {order : Order}

theorem refund_eq (h : entry.weight ≤ s.bytes) :
    refund entry s = (.ok (), { s with bytes := s.bytes - entry.weight }) := by
  unfold refund
  cases htexture : entry.availableTexture with
  | none =>
    rw [Entry.weight, htexture]
    rfl
  | some texture =>
    rw [Entry.weight, htexture] at h ⊢
    dsimp only [Option.map_some, Option.getD_some] at h ⊢
    rw [Checked.bind_get, Checked.bind_eq (Checked.sub_ok.mpr ⟨h, rfl, rfl⟩)]
    rfl

theorem weight_le (h : Sound s) (hget : s.entries.get? key = some entry) : entry.weight ≤ s.bytes := by
  rw [h.bytes]
  exact Table.weight_le_total hget

/-- An edit that leaves the textures alone. -/
theorem edited_sound (h : Sound s) {f : Entry → Entry}
    (hf : ∀ entry, s.entries.get? key = some entry → (f entry).weight = entry.weight) :
    Sound { s with entries := s.entries.modify key f } := by
  obtain ⟨bytes, budget, count⟩ := h
  refine ⟨?_, budget, by rwa [Table.count_modify]⟩
  rw [bytes]
  cases hget : s.entries.get? key with
  | none =>
    have hsame : s.entries.modify key f = s.entries := by
      refine Table.modifyWhere_eq_self fun k v hk => decide_eq_false ?_
      rintro rfl
      exact nomatch hget.symm.trans hk
    dsimp only
    rw [hsame]
  | some entry =>
    have htotal := Table.total_modify Entry.weight (f := f) hget
    rw [hf entry hget] at htotal
    dsimp only
    omega

def cleared (s : ImageCache) (key : Key) (entry : Entry) : ImageCache :=
  { s with
    bytes := s.bytes - entry.weight
    entries := s.entries.modify key fun entry => { entry with content := .pending } }

theorem release_eq (h : Sound s) (hget : s.entries.get? key = some entry) :
    release key s = (.ok (), cleared s key entry) ∧ Sound (cleared s key entry) := by
  have hle := weight_le h hget
  constructor
  · unfold release
    rw [Checked.bind_get, Checked.bind_eq (Checked.orTrap_ok.mpr ⟨hget, rfl⟩),
      Checked.bind_eq (refund_eq hle)]
    rfl
  · have htotal := Table.total_modify Entry.weight
      (f := fun entry => { entry with content := .pending }) hget
    obtain ⟨bytes, budget, count⟩ := h
    refine ⟨?_, ?_, by rwa [cleared, Table.count_modify]⟩
    · have hnone : Entry.weight { entry with content := .pending } = 0 := rfl
      dsimp only [cleared] at htotal ⊢
      omega
    · dsimp only [cleared]
      omega

theorem cleared_get (hget : s.entries.get? key = some entry) :
    (cleared s key entry).entries.get? key = some { entry with content := .pending } := by
  rw [cleared, Table.get?_modify, if_pos rfl, hget, Option.map_some]

variable (order) in
theorem mem_walk (hget : s.entries.get? key = some entry) : key ∈ order.walk s.entries :=
  (order.perm s.entries).mem_iff.mpr
    (List.mem_map.mpr ⟨(key, entry), (Table.get?_eq_some_iff _ _ _).mp hget, rfl⟩)

theorem oldestTexture_some {entries : Table Key Entry} (h : oldestTexture order entries = some key) :
    ∃ entry, entries.get? key = some entry ∧ entry.availableTexture.isSome := by
  have hwalk : ∀ best, (order.walk entries).foldl (olderTexture entries) none = some best →
      ∃ entry, entries.get? best.1 = some entry ∧ entry.availableTexture.isSome := by
    refine List.foldlRecOn (motive := fun oldest => ∀ best, oldest = some best →
      ∃ entry, entries.get? best.1 = some entry ∧ entry.availableTexture.isSome)
      (order.walk entries) (olderTexture entries) ?_
      fun oldest holdest key _ best hbest => ?_
    · exact fun best hnone => nomatch hnone
    · unfold olderTexture at hbest
      split at hbest
      · next entry hget =>
        split_ifs at hbest with hnewer
        · obtain rfl := Option.some.inj hbest
          exact ⟨entry, hget, (Bool.and_eq_true_iff.mp hnewer).1⟩
        · exact holdest best hbest
      · exact holdest best hbest
  obtain ⟨best, hbest, rfl⟩ := Option.map_eq_some_iff.mp h
  exact hwalk best hbest

theorem oldestTexture_none (h : oldestTexture order s.entries = none)
    (hget : s.entries.get? key = some entry) : entry.availableTexture = none := by
  have hwalk : ∀ (keys : List Key) (oldest : Option (Key × Nat)), oldest.isSome ∨ key ∈ keys →
      entry.availableTexture.isSome → (keys.foldl (olderTexture s.entries) oldest).isSome := by
    intro keys
    induction keys with
    | nil => exact fun oldest hfound _ => hfound.resolve_right List.not_mem_nil
    | cons first rest ih =>
      intro oldest hfound htexture
      refine ih _ ?_ htexture
      rcases hfound with hsome | hmem
      · left
        unfold olderTexture
        split
        · split_ifs
          · rfl
          · exact hsome
        · exact hsome
      · rcases List.mem_cons.mp hmem with rfl | hrest
        · left
          rw [olderTexture, hget]
          dsimp only
          split_ifs with hnewer
          · rfl
          · cases oldest with
            | some best => rfl
            | none => simp [htexture] at hnewer
        · exact Or.inr hrest
  rw [oldestTexture, Option.map_eq_none_iff] at h
  by_contra htexture
  have hsome := hwalk _ none (Or.inr (mem_walk order hget))
    (Option.isSome_iff_ne_none.mpr htexture)
  rw [h] at hsome
  exact nomatch hsome

theorem total_eq_zero {weight : Entry → Nat} {entries : Table Key Entry}
    (h : ∀ key entry, entries.get? key = some entry → weight entry = 0) : entries.total weight = 0 := by
  refine List.sum_eq_zero fun n hn => ?_
  obtain ⟨⟨key, entry⟩, hrow, rfl⟩ := List.mem_map.mp hn
  exact h key entry ((Table.get?_eq_some_iff _ _ _).mpr hrow)

def resident (entry : Entry) : Nat := entry.availableTexture.isSome.toNat

structure Roomier (s s' : ImageCache) : Prop where
  frame : s'.frame = s.frame
  count : s'.entries.rows.length = s.entries.rows.length
  others : ∀ key entry, s.entries.get? key = some entry → entry.availableTexture = none →
    s'.entries.get? key = some entry

variable (order) in
theorem makeRoom_eq (bytes : Nat) {turns : Nat} (h : Sound s)
    (hturns : s.entries.total resident < turns) : ∃ s', makeRoom order bytes turns s = (.ok (), s') ∧
      Sound s' ∧ Roomier s s' ∧ (bytes ≤ textureBudget → s'.bytes + bytes ≤ textureBudget) := by
  induction turns generalizing s with
  | zero => exact absurd hturns (Nat.not_lt_zero _)
  | succ turns ih =>
    have hsame : Roomier s s := ⟨rfl, rfl, fun _ _ hget _ => hget⟩
    unfold makeRoom
    split_ifs with hfits
    · have hbudget := h.budget
      have hsmall : textureBudget < 2 ^ 32 := by decide
      rw [Checked.bind_get,
        Checked.bind_eq (Checked.add_ok.mpr ⟨by omega, rfl, rfl⟩)]
      split_ifs with hfull
      · rw [Checked.bind_get]
        cases holdest : oldestTexture order s.entries with
        | none =>
          have hempty : s.entries.total Entry.weight = 0 := by
            refine total_eq_zero fun key entry hget => ?_
            rw [Entry.weight, oldestTexture_none holdest hget]
            rfl
          have hbytes := h.bytes
          omega
        | some key =>
          obtain ⟨entry, hget, htexture⟩ := oldestTexture_some holdest
          obtain ⟨hrelease, hcleared⟩ := release_eq h hget
          have hfewer := Table.total_modify resident
            (f := fun entry => { entry with content := .pending }) hget
          have hone : resident entry = 1 := by rw [resident, htexture]; rfl
          have hnone : resident { entry with content := .pending } = 0 := rfl
          obtain ⟨s', hrun, hsound, hroomier, hroom⟩ := ih hcleared (by
            dsimp only [cleared] at hfewer ⊢
            omega)
          refine ⟨s', (Checked.bind_eq hrelease).trans hrun, hsound, ⟨hroomier.frame, ?_, ?_⟩, hroom⟩
          · exact hroomier.count.trans Table.count_modify
          · intro other entry' hother hpending
            refine hroomier.others other entry' ?_ hpending
            have hne : other ≠ key := by
              rintro rfl
              obtain rfl := Option.some.inj (hget.symm.trans hother)
              rw [hpending] at htexture
              exact nomatch htexture
            rw [cleared, Table.get?_modify, if_neg hne, hother]
      · exact ⟨s, rfl, h, hsame, fun _ => by omega⟩
    · exact ⟨s, rfl, h, hsame, fun hle => absurd hle hfits⟩

theorem resident_total_le (entries : Table Key Entry) : entries.total resident ≤ entries.rows.length := by
  unfold Table.total
  induction entries.rows with
  | nil => exact le_rfl
  | cons row rest ih =>
    have hone : resident row.2 ≤ 1 := Bool.toNat_le _
    rw [List.map_cons, List.sum_cons, List.length_cons]
    omega

theorem upload_some {result : Result} {created : Bool} {texture : Texture}
    (h : upload result created = some texture) :
    textureBytes texture = result.pixels.bytes ∧ result.pixels.bytes ≤ textureBudget := by
  unfold upload at h
  dsimp only at h
  split_ifs at h with hinvalid
  obtain rfl := Option.some.inj h
  simp only [Bool.or_eq_true, decide_eq_true_eq, bne_iff_ne, not_or, not_not, not_lt] at hinvalid
  exact ⟨hinvalid.1.2, hinvalid.2⟩

theorem edit_eq (key : Key) (f : Entry → Entry) :
    edit key f s = (.ok (), { s with entries := s.entries.modify key f }) := rfl

theorem commit_sound (h : Sound s) {result : Result} (hget : s.entries.get? result.key = some entry)
    (hentry : entry.availableTexture = none) (created : Bool) (now : Int) (attempts : Nat)
    {turns : Nat} (hturns : s.entries.rows.length < turns) :
    ∃ s', commit order result created now attempts turns s = (.ok (), s') ∧ Sound s' := by
  have hidle {s : ImageCache} (h : Sound s) (hget : s.entries.get? result.key = some entry)
      {f : Entry → Entry} (hf : ∀ entry, (f entry).availableTexture = none) :
      ∃ s', edit result.key f s = (.ok (), s') ∧ Sound s' := by
    refine ⟨_, edit_eq _ _, edited_sound h fun other hother => ?_⟩
    obtain rfl := Option.some.inj (hget.symm.trans hother)
    rw [Entry.weight, Entry.weight, hf, hentry]
  unfold commit
  cases result.state with
  | ready =>
    obtain ⟨s', hroom, hsound, hroomier, hfits⟩ := makeRoom_eq order result.pixels.bytes h
      ((resident_total_le _).trans_lt hturns)
    have hkept := hroomier.others _ _ hget hentry
    dsimp only
    rw [Checked.bind_eq hroom]
    cases hupload : upload result created with
    | none => exact hidle hsound hkept fun _ => rfl
    | some texture =>
      obtain ⟨hbytes, hbudget⟩ := upload_some hupload
      have hspace := hfits hbudget
      have hsmall : textureBudget < 2 ^ 32 := by decide
      have htotal := Table.total_modify Entry.weight
        (f := fun entry => { entry with content := .ready texture, attempts := 0 }) hkept
      have hnone : entry.weight = 0 := by rw [Entry.weight, hentry]; rfl
      have hready : Entry.weight { entry with content := .ready texture, attempts := 0 } =
          textureBytes texture := rfl
      have hbefore := hsound.bytes
      dsimp only
      rw [Checked.bind_eq (edit_eq _ _), Checked.bind_get,
        Checked.bind_eq (Checked.add_ok.mpr ⟨by dsimp only; omega, rfl, rfl⟩)]
      refine ⟨_, rfl, ?_, ?_, ?_⟩
      · dsimp only
        omega
      · dsimp only
        omega
      · dsimp only
        rw [Table.count_modify]
        exact hsound.count
  | retired => exact hidle h hget fun _ => rfl
  | offline | pending | failed | denied => exact hidle h hget fun _ => rfl

theorem accept_sound (h : Sound s) (order : Order) (result : Result) (created : Bool) (now : Int) :
    ∃ s', accept order result created now s = (.ok (), s') ∧ Sound s' := by
  unfold accept
  rw [Checked.bind_get]
  cases hget : s.entries.get? result.key with
  | none => exact ⟨s, rfl, h⟩
  | some entry =>
    obtain ⟨hrelease, hcleared⟩ := release_eq h hget
    dsimp only
    rw [Checked.bind_eq hrelease, Checked.bind_get,
      Checked.bind_eq (edit_eq _ _)]
    have hpending : ((cleared s result.key entry).entries.modify result.key fun other => { other with
        used := (cleared s result.key entry).frame, attempts := min (entry.attempts + 1) 255 }).get?
          result.key = some {
            used := s.frame, attempts := min (entry.attempts + 1) 255, content := .pending } := by
      rw [Table.get?_modify, if_pos rfl, cleared_get hget]
      rfl
    refine commit_sound (edited_sound hcleared ?_) hpending rfl created now _ ?_
    · exact fun _ _ => rfl
    · rw [Table.count_modify, cleared, Table.count_modify]
      exact Nat.lt_succ_self _

theorem oldestEntry_some {entries : Table Key Entry} (h : oldestEntry order entries = some key) :
    ∃ entry, entries.get? key = some entry := by
  have hwalk : ∀ key, ((order.walk entries).foldl (olderEntry entries) (none, 2 ^ 64 - 1)).1 = some key →
      ∃ entry, entries.get? key = some entry := by
    refine List.foldlRecOn (motive := fun oldest : Option Key × Nat => ∀ key, oldest.1 = some key →
      ∃ entry, entries.get? key = some entry)
      (order.walk entries) (olderEntry entries) ?_ fun oldest holdest first _ key hkey => ?_
    · exact fun _ hnone => nomatch hnone
    · unfold olderEntry at hkey
      split at hkey
      · next entry hget =>
        split_ifs at hkey
        · obtain rfl := Option.some.inj hkey
          exact ⟨entry, hget⟩
        · exact holdest key hkey
      · exact holdest key hkey
  exact hwalk key h

theorem evict_sound (order : Order) {turns : Nat} (h : Sound s) (hturns : s.entries.rows.length < turns) :
    ∃ s', evict order turns s = (.ok (), s') ∧ Sound s' := by
  induction turns generalizing s with
  | zero => exact absurd hturns (Nat.not_lt_zero _)
  | succ turns ih =>
    unfold evict
    rw [Checked.bind_get]
    split_ifs with hmany
    · cases holdest : oldestEntry order s.entries with
      | none => exact ⟨s, rfl, h⟩
      | some key =>
        obtain ⟨entry, hget⟩ : ∃ entry, s.entries.get? key = some entry :=
          oldestEntry_some holdest
        have htotal := Table.total_delete Entry.weight hget
        have hfewer := Table.count_delete hget
        have hle := weight_le h hget
        obtain ⟨bytes, budget, count⟩ := h
        dsimp only
        rw [Checked.bind_eq (Checked.orTrap_ok.mpr ⟨hget, rfl⟩),
          Checked.bind_eq (a := ()) (Checked.modify_ok.mpr rfl), Checked.bind_eq (refund_eq (s := { s with
            entries := s.entries.deleteWhere fun other _ => decide (other = key) }) hle)]
        refine ih ⟨?_, ?_, ?_⟩ ?_
        · dsimp only
          omega
        · dsimp only
          omega
        · dsimp only
          omega
        · dsimp only
          omega
    · exact ⟨s, rfl, h⟩

theorem nextFrame_sound (h : Sound s) (order : Order) :
    ∃ s', nextFrame order s = (.ok (), s') ∧ Sound s' := by
  unfold nextFrame
  rw [Checked.bind_eq (a := ()) (Checked.modify_ok.mpr rfl),
    Checked.bind_get]
  exact evict_sound order ⟨h.bytes, h.budget, h.count⟩ (Nat.lt_succ_self _)

theorem touch_sound (h : Sound s) (key : Key) (allocated : Bool) :
    ∃ touched s', touch key allocated s = (.ok touched, s') ∧ Sound s' ∧
      (touched = true → ∃ entry, s'.entries.get? key = some entry) := by
  unfold touch
  rw [Checked.bind_get]
  split_ifs with hfull hfails
  · exact ⟨false, s, rfl, h, fun habsurd => by cases habsurd⟩
  · exact ⟨false, s, rfl, h, fun habsurd => by cases habsurd⟩
  · have hinserted : Sound { s with entries := (s.entries.insert key {}).getD s.entries } ∧
        ∃ entry, ((s.entries.insert key {}).getD s.entries).get? key = some entry := by
      cases hinsert : s.entries.insert key {} with
      | none =>
        have hsome := (Table.insert_eq_none_iff _ _ _).mp hinsert
        exact ⟨h, Option.isSome_iff_exists.mp hsome⟩
      | some entries =>
        have htotal := Table.total_insert Entry.weight hinsert
        have hcount := Table.count_insert hinsert
        have hnone : Entry.weight {} = 0 := rfl
        have habsent : s.entries.contains key = false := by
          rw [Table.contains, Table.get?_of_insert hinsert]
          rfl
        simp only [id, habsent, Bool.not_false, Bool.and_true, decide_eq_true_eq] at hfull
        obtain ⟨bytes, budget, count⟩ := h
        refine ⟨⟨?_, budget, ?_⟩, {}, ?_⟩
        · dsimp only [Option.getD_some]
          omega
        · dsimp only [Option.getD_some]
          omega
        · rw [Option.getD_some, Table.get?_insert hinsert, if_pos rfl]
    obtain ⟨hsound, entry, hentry⟩ := hinserted
    rw [Checked.bind_eq (a := ()) (Checked.modify_ok.mpr rfl), Checked.bind_eq (edit_eq _ _)]
    refine ⟨true, _, rfl, edited_sound hsound fun _ _ => rfl, fun _ => ?_⟩
    exact ⟨{ entry with used := s.frame }, by
      dsimp only
      rw [Table.get?_modify, if_pos rfl, hentry]
      rfl⟩

theorem request_sound (h : Sound s) (hget : s.entries.get? key = some entry) (requested : Bool)
    (now : Int) : ∃ s', request key requested now s = (.ok (), s') ∧ Sound s' := by
  unfold request
  rw [Checked.bind_get, Checked.bind_eq (Checked.orTrap_ok.mpr ⟨hget, rfl⟩)]
  split_ifs with hwants
  · refine ⟨_, edit_eq _ _, edited_sound h fun other hother => ?_⟩
    obtain rfl := Option.some.inj (hget.symm.trans hother)
    -- A texture that is there is not requested.
    have hnone : entry.availableTexture = none := by
      have hwants := (Bool.and_eq_true_iff.mp hwants).1
      unfold Entry.wantsRequest at hwants
      unfold Entry.availableTexture
      cases hcontent : entry.content <;> simp [hcontent] at hwants ⊢
    rw [Entry.weight, Entry.weight, hnone]
    rfl
  · exact ⟨s, rfl, h⟩

/-- Entries without a texture, and avatars when they are not shown, start again. -/
theorem contextChanged_sound (h : Sound s) (order : Order) (avatars : Bool) :
    ∃ s', contextChanged order avatars s = (.ok (), s') ∧ Sound s' := by
  unfold contextChanged
  rw [Checked.bind_get]
  let Walked : ImageCache → Prop := fun s' => Sound s' ∧
    ∀ key ∈ order.walk s.entries, (s'.entries.get? key).isSome
  have hwalked : Walked s := by
    refine ⟨h, fun key hkey => ?_⟩
    obtain ⟨⟨found, entry⟩, hrow, rfl⟩ := List.mem_map.mp ((order.perm s.entries).mem_iff.mp hkey)
    rw [(Table.get?_eq_some_iff _ _ _).mpr hrow]
    rfl
  have hedit {s' : ImageCache} {key : Key} {f : Entry → Entry}
      (h : ∀ key ∈ order.walk s.entries, (s'.entries.get? key).isSome) :
      ∀ other ∈ order.walk s.entries, ((s'.entries.modify key f).get? other).isSome := by
    intro other hother
    rw [Table.get?_modify]
    split_ifs
    · rw [Option.isSome_map]
      exact h other hother
    · exact h other hother
  have hturns := Checked.Meets.each (P := Walked) (E := fun e _ => Empty.elim e)
    (f := fun key => do
      let entries ← Checked.get ImageCache.entries
      let entry ← Checked.orTrap (entries.get? key)
      if (!avatars && key.isAvatar) || entry.availableTexture.isNone then do
        release key
        edit key fun _ => {}
      else pure ()) fun key (hkey : key ∈ order.walk s.entries) => ?_
  · obtain ⟨units, s', hrun, -, hsound, -⟩ := hturns.returns hwalked
    exact ⟨s', Checked.bind_eq hrun, hsound⟩
  · apply Checked.Meets.of_returns
    rintro s' ⟨hsound, hall⟩
    obtain ⟨entry, hget⟩ := Option.isSome_iff_exists.mp (hall key hkey)
    rw [Checked.bind_get, Checked.bind_eq (Checked.orTrap_ok.mpr ⟨hget, rfl⟩)]
    split_ifs
    · obtain ⟨hrelease, hcleared⟩ := release_eq hsound hget
      refine ⟨(), _, (Checked.bind_eq hrelease).trans (edit_eq _ _), edited_sound hcleared ?_,
        hedit (hedit hall)⟩
      intro other hother
      obtain rfl := Option.some.inj ((cleared_get hget).symm.trans hother)
      rfl
    · exact ⟨(), s', rfl, hsound, hall⟩

theorem get_sound (mediaKey : AssetRef → Key) (h : Sound s) (avatars : Bool) (asset : AssetRef)
    (allocated requested : Bool) (now : Int) :
    ∃ found s', get mediaKey avatars asset allocated requested now s = (.ok found, s') ∧ Sound s' := by
  unfold get
  by_cases hhidden : (!avatars && decide (asset.variant = .avatar)) = true
  · rw [if_pos hhidden]
    exact ⟨none, s, rfl, h⟩
  · obtain ⟨touched, s₁, htouch, hsound, hentry⟩ := touch_sound h (mediaKey asset) allocated
    rw [if_neg hhidden, Checked.bind_eq htouch]
    split_ifs with hnone
    · exact ⟨none, s₁, rfl, hsound⟩
    · obtain ⟨entry, hget⟩ := hentry (by simpa using hnone)
      rw [Checked.bind_get,
        Checked.bind_eq (Checked.orTrap_ok.mpr ⟨hget, rfl⟩)]
      split_ifs
      · obtain ⟨hrelease, hcleared⟩ := release_eq hsound hget
        rw [Checked.bind_eq hrelease, Checked.bind_eq (edit_eq _ _)]
        refine ⟨_, _, rfl, edited_sound hcleared fun other hother => ?_⟩
        obtain rfl := Option.some.inj ((cleared_get hget).symm.trans hother)
        rfl
      · exact ⟨_, s₁, rfl, hsound⟩
    · obtain ⟨entry, hget⟩ := hentry (by simpa using hnone)
      obtain ⟨s₂, hrequest, hrequested⟩ := request_sound hsound hget requested now
      exact ⟨_, s₂, Checked.bind_eq hrequest, hrequested⟩

theorem getLocal_sound (h : Sound s) (key : Key) (allocated requested : Bool) (now : Int) :
    ∃ found s', getLocal key allocated requested now s = (.ok found, s') ∧ Sound s' := by
  unfold getLocal
  obtain ⟨touched, s₁, htouch, hsound, hentry⟩ := touch_sound h key allocated
  rw [Checked.bind_eq htouch]
  split_ifs with hnone
  · exact ⟨none, s₁, rfl, hsound⟩
  · obtain ⟨entry, hget⟩ := hentry (by simpa using hnone)
    obtain ⟨s₂, hrequest, hrequested⟩ := request_sound hsound hget requested now
    exact ⟨_, s₂, Checked.bind_eq hrequest, hrequested⟩

theorem retry_sound (h : Sound s) (key : Key) : ∃ s', retry key s = (.ok (), s') ∧ Sound s' := by
  refine ⟨_, edit_eq _ _, edited_sound h fun entry _ => ?_⟩
  split_ifs with hretry
  · unfold Entry.canRetry at hretry
    unfold Entry.weight Entry.availableTexture
    cases hcontent : entry.content <;> simp [hcontent] at hretry ⊢
  · rfl

theorem takeRefresh_sound (h : Sound s) (key : Key) :
    ∃ s', takeRefresh key s = (.ok (), s') ∧ Sound s' := by
  refine ⟨_, edit_eq _ _, edited_sound h fun entry _ => ?_⟩
  split_ifs with hretired
  · unfold Entry.isRetired at hretired
    unfold Entry.weight Entry.availableTexture
    cases hcontent : entry.content <;> simp [hcontent] at hretired ⊢
  · rfl

/-- No operation traps, and each keeps the account. -/
theorem perform_sound (mediaKey : AssetRef → Key) (h : Sound s) (op : Op) :
    ∃ found s', perform mediaKey op s = (.ok found, s') ∧ Sound s' := by
  cases op with
  | accept order result created now =>
    obtain ⟨s', hrun, hsound⟩ := accept_sound h order result created now
    exact ⟨none, s', Checked.bind_eq hrun, hsound⟩
  | get avatars asset allocated requested now =>
    exact get_sound mediaKey h avatars asset allocated requested now
  | getLocal key allocated requested now => exact getLocal_sound h key allocated requested now
  | nextFrame order =>
    obtain ⟨s', hrun, hsound⟩ := nextFrame_sound h order
    exact ⟨none, s', Checked.bind_eq hrun, hsound⟩
  | contextChanged order avatars =>
    obtain ⟨s', hrun, hsound⟩ := contextChanged_sound h order avatars
    exact ⟨none, s', Checked.bind_eq hrun, hsound⟩
  | retry key =>
    obtain ⟨s', hrun, hsound⟩ := retry_sound h key
    exact ⟨none, s', Checked.bind_eq hrun, hsound⟩
  | takeRefresh key =>
    obtain ⟨s', hrun, hsound⟩ := takeRefresh_sound h key
    exact ⟨none, s', Checked.bind_eq hrun, hsound⟩

/-- After any operations on an empty cache the total is what the resident textures take. -/
theorem run_sound (mediaKey : AssetRef → Key) (ops : List Op) :
    ∃ s, run mediaKey {} ops = some s ∧ Sound s := by
  have hops : ∀ (ops : List Op) (s : ImageCache), Sound s →
      ∃ s', run mediaKey s ops = some s' ∧ Sound s' := by
    intro ops
    induction ops with
    | nil => exact fun s h => ⟨s, rfl, h⟩
    | cons op rest ih =>
      intro s h
      obtain ⟨found, s₁, hperform, hsound⟩ := perform_sound mediaKey h op
      obtain ⟨s', hrest, hsound'⟩ := ih s₁ hsound
      refine ⟨s', ?_, hsound'⟩
      rw [← hrest, run, List.foldl_cons, Option.bind_some, hperform]
      rfl
  exact hops ops {} ⟨rfl, Nat.zero_le _, Nat.zero_le _⟩

section Example

def Order.plain : Order := ⟨fun entries => entries.rows.map Prod.fst, fun _ => .rfl⟩

def photo (n : UInt8) : Key := ⟨[n]⟩

def decoded (n : UInt8) : Result where
  key := photo n
  pixels := { present := true, width := 4096, height := 2048, bytes := 4096 * 2048 * 4 }
  state := .ready
  retryAt := 0
  reason := []

def draw (n : UInt8) : List Op :=
  [.getLocal (photo n) true true 0, .accept Order.plain (decoded n) true 0, .nextFrame Order.plain]

/-- The third photo takes the room of the first. -/
example : (run (fun _ => photo 0) {} (draw 1 ++ draw 2 ++ draw 3)).map (fun s =>
    (s.bytes, s.entries.rows.map fun r => r.2.availableTexture.isSome)) =
      some (textureBudget, [false, true, true]) := by
  decide +kernel

end Example

end ImageCache

end Zimbr
