import Zimbr.Library.Checked
import Zimbr.Protocol.Attachments
import Zimbr.Protocol.Decimal
import Zimbr.Protocol.Utf8Decode

set_option autoImplicit false

/-!
# Accepted attachment sets

The validation of a set in 64-bit arithmetic, and the sets it accepts.
-/
namespace Zimbr.Attachments
open Library

/-! ## What is accepted -/

def control (cp : Nat) : Prop := cp < 0x20 ∨ 0x7f ≤ cp ∧ cp ≤ 0x9f

def separator (cp : Nat) : Prop := cp = 0x2f ∨ cp = 0x5c

/-- Marks, embeddings, overrides and isolates of direction. -/
def bidirectional (cp : Nat) : Prop :=
  cp = 0x061c ∨ cp = 0x200e ∨ cp = 0x200f ∨ 0x202a ≤ cp ∧ cp ≤ 0x202e ∨ 0x2066 ≤ cp ∧ cp ≤ 0x2069

def lineBreak (cp : Nat) : Prop := cp = 0x2028 ∨ cp = 0x2029

structure Basename (name : Bytes) : Prop where
  nonempty : name ≠ []
  short : name.length ≤ 255
  notDirectory : name ≠ text "." ∧ name ≠ text ".."
  shown : ∃ cps, codepoints name = some cps ∧ ∀ cp ∈ cps,
    ¬control cp ∧ ¬separator cp ∧ ¬bidirectional cp ∧ ¬lineBreak cp

def token (ch : UInt8) : Bool := isAlphanumeric ch || (text "!#$&^_.+-").contains ch

structure MediaType (mime : Bytes) : Prop where
  short : mime.length ≤ 127
  parts : ∃ type subtype : Bytes, mime = type ++ 47 :: subtype ∧ type ≠ [] ∧ subtype ≠ [] ∧
    (∀ ch ∈ type, token ch = true) ∧ ∀ ch ∈ subtype, token ch = true

structure WellFormed (file : Upload) : Prop where
  id : validId file.id = true
  name : Basename file.name
  mime : MediaType file.mimeType
  hash : file.sha256.length = 64 ∧ ∀ ch ∈ file.sha256, ch ∈ text "0123456789abcdef"
  size : ∃ n ≤ maxFileBytes, file.bytes = decimal n

/-- The sizes are summed as unbounded numbers. -/
structure Accepted (files : List Upload) : Prop where
  count : files.length ≤ maxFiles
  distinct : (files.map Upload.id).Nodup
  wellFormed : ∀ file ∈ files, WellFormed file
  total : (files.map fun file => spelled file.bytes).sum ≤ maxSendBytes

/-! ## Names -/

theorem encode_bytes {cp : Nat} {unit : Bytes} (h : utf8Encode cp = some unit) :
    cp < 0x80 ∧ unit.map UInt8.toNat = [cp] ∨ 0x80 ≤ cp ∧ ∀ b ∈ unit, 0x80 ≤ b.toNat := by
  have hbyte {n : Nat} (hlow : 0x80 ≤ n) (hhigh : n < 256) : 0x80 ≤ (byte n).toNat := by
    rw [byte, UInt8.toNat_ofNat', Nat.mod_eq_of_lt hhigh]
    exact hlow
  unfold utf8Encode at h
  split_ifs at h with hone htwo hthree hplain hfour
  · cases h
    refine Or.inl ⟨hone, ?_⟩
    rw [List.map_singleton, byte, UInt8.toNat_ofNat', Nat.mod_eq_of_lt (by omega)]
  · cases h
    refine Or.inr ⟨by omega, ?_⟩
    simp only [List.mem_cons, List.not_mem_nil, or_false, forall_eq_or_imp, forall_eq]
    exact ⟨hbyte (by omega) (by omega), hbyte (by omega) (by omega)⟩
  · cases h
    refine Or.inr ⟨by omega, ?_⟩
    simp only [List.mem_cons, List.not_mem_nil, or_false, forall_eq_or_imp, forall_eq]
    exact ⟨hbyte (by omega) (by omega), hbyte (by omega) (by omega), hbyte (by omega) (by omega)⟩
  · cases h
    refine Or.inr ⟨by omega, ?_⟩
    simp only [List.mem_cons, List.not_mem_nil, or_false, forall_eq_or_imp, forall_eq]
    exact ⟨hbyte (by omega) (by omega), hbyte (by omega) (by omega), hbyte (by omega) (by omega),
      hbyte (by omega) (by omega)⟩

theorem ascii_mem {s : Bytes} {cps : List Nat} (h : codepoints s = some cps) {n : Nat}
    (hn : n < 0x80) : n ∈ cps ↔ ∃ b ∈ s, b.toNat = n := by
  obtain ⟨units, hunits, rfl⟩ := codepoints_encode h
  clear h
  induction hunits with
  | nil => simp
  | cons hunit _ ih =>
    rw [List.mem_cons, ih, List.flatten_cons]
    simp only [List.mem_append, or_and_right, exists_or]
    refine or_congr_left ?_
    rcases encode_bytes hunit with ⟨-, hone⟩ | ⟨hwide, hbytes⟩
    · rw [← List.mem_map, hone, List.mem_singleton]
    · refine iff_of_false (by omega) ?_
      rintro ⟨b, hb, hvalue⟩
      have hhigh := hbytes b hb
      omega

theorem plain_bytes {name : Bytes} {cps : List Nat} (h : codepoints name = some cps) :
    (name.all fun ch => !(ch < 32 || ch = 127 || ch = 47 || ch = 92)) = true ↔
      ∀ cp ∈ cps, ¬(cp < 0x20 ∨ cp = 0x7f ∨ separator cp) := by
  have hbyte (ch : UInt8) : (!(decide (ch < 32) || ch = 127 || ch = 47 || ch = 92)) = true ↔
      ¬(ch.toNat < 0x20 ∨ ch.toNat = 0x7f ∨ separator ch.toNat) := by
    simp [separator, UInt8.lt_iff_toNat_lt, ← UInt8.toNat_inj]
    omega
  simp only [List.all_eq_true, hbyte]
  constructor
  · intro hall cp hcp hbad
    have hascii : cp < 0x80 := by
      unfold separator at hbad
      omega
    obtain ⟨ch, hch, rfl⟩ := (ascii_mem h hascii).mp hcp
    exact hall ch hch hbad
  · intro hall ch hch hbad
    have hascii : ch.toNat < 0x80 := by
      unfold separator at hbad
      omega
    exact hall ch.toNat ((ascii_mem h hascii).mpr ⟨ch, hch, rfl⟩) hbad

theorem validName_iff {name : Bytes} : validName name = true ↔ Basename name := by
  unfold validName utf8ValidateSlice
  cases hcps : codepoints name with
  | none =>
    refine iff_of_false (by simp) ?_
    rintro ⟨-, -, -, cps, hsome, -⟩
    exact absurd (hcps.symm.trans hsome) nofun
  | some cps =>
    have hshown (cp : Nat) : ¬(cp < 0x20 ∨ cp = 0x7f ∨ separator cp) ∧ disguises cp = false ↔
        ¬control cp ∧ ¬separator cp ∧ ¬bidirectional cp ∧ ¬lineBreak cp := by
      simp only [disguises, control, separator, bidirectional, lineBreak, Bool.or_eq_false_iff,
        Bool.and_eq_false_iff, decide_eq_false_iff_not]
      omega
    simp only [Bool.and_eq_true, plain_bytes hcps, Option.isSome_some, Option.getD_some,
      List.all_eq_true, Bool.not_eq_true', bne_iff_ne, ne_eq, decide_eq_true_eq,
      List.length_eq_zero_iff]
    constructor
    · rintro ⟨⟨⟨⟨⟨⟨hne, hshort⟩, hdot⟩, hdots⟩, -⟩, hplain⟩, hdisguises⟩
      exact ⟨hne, hshort, ⟨hdot, hdots⟩, cps, hcps, fun cp hcp =>
        (hshown cp).mp ⟨hplain cp hcp, hdisguises cp hcp⟩⟩
    · rintro ⟨hne, hshort, ⟨hdot, hdots⟩, cps', hsame, hall⟩
      cases hcps.symm.trans hsame
      exact ⟨⟨⟨⟨⟨⟨hne, hshort⟩, hdot⟩, hdots⟩, trivial⟩,
        fun cp hcp => ((hshown cp).mpr (hall cp hcp)).1⟩,
        fun cp hcp => ((hshown cp).mpr (hall cp hcp)).2⟩

/-! ## Media types -/

theorem slash_iff {mime : Bytes} {slash : Nat} :
    mime.findIdx? (fun ch => decide (ch = 47)) = some slash ↔
      ∃ type subtype : Bytes, mime = type ++ 47 :: subtype ∧ 47 ∉ type ∧ type.length = slash := by
  induction mime generalizing slash with
  | nil => simp
  | cons ch rest ih =>
    rw [List.findIdx?_cons]
    by_cases hch : ch = 47
    · subst hch
      rw [decide_eq_true rfl, if_pos rfl, Option.some.injEq]
      constructor
      · rintro rfl
        exact ⟨[], rest, rfl, List.not_mem_nil, rfl⟩
      · rintro ⟨_ | ⟨first, type⟩, subtype, heq, hnone, rfl⟩
        · rfl
        · cases heq
          exact absurd List.mem_cons_self hnone
    · rw [decide_eq_false hch, if_neg Bool.false_ne_true, Option.map_eq_some_iff]
      constructor
      · rintro ⟨i, hi, rfl⟩
        obtain ⟨type, subtype, rfl, hnone, rfl⟩ := ih.mp hi
        refine ⟨ch :: type, subtype, rfl, ?_, rfl⟩
        rw [List.mem_cons, not_or]
        exact ⟨Ne.symm hch, hnone⟩
      · rintro ⟨_ | ⟨first, type⟩, subtype, heq, hnone, rfl⟩
        · exact absurd (List.cons.inj heq).1 hch
        · obtain ⟨rfl, rfl⟩ := List.cons.inj heq
          exact ⟨type.length, ih.mpr ⟨type, subtype, rfl, fun h => hnone (List.mem_cons_of_mem _ h), rfl⟩,
            rfl⟩

theorem token_slash : token 47 = false := by decide

theorem zipIdx_all {q : UInt8 → Bool} (slash : Nat) (chars : Bytes) (k : Nat)
    (h : slash < k ∨ k + chars.length ≤ slash) :
    ((chars.zipIdx k).all fun (ch, i) => decide (i = slash) || q ch) = chars.all q := by
  induction chars generalizing k with
  | nil => rfl
  | cons ch rest ih =>
    rw [List.length_cons] at h
    have hne : k ≠ slash := by omega
    rw [List.zipIdx_cons, List.all_cons, List.all_cons, ih (k + 1) (by omega)]
    dsimp only
    rw [decide_eq_false hne, Bool.false_or]

theorem validMime_iff {mime : Bytes} : validMime mime = true ↔ MediaType mime := by
  have hparts (type subtype : Bytes) (slash : Nat) (hslash : type.length = slash) :
      ((type ++ 47 :: subtype).zipIdx.all fun (ch, i) => decide (i = slash) || token ch) =
        (type.all token && subtype.all token) := by
    rw [List.zipIdx_append, List.all_append, List.zipIdx_cons, List.all_cons,
      zipIdx_all slash type 0 (by omega), zipIdx_all slash subtype _ (by omega), hslash, Nat.zero_add]
    dsimp only
    rw [decide_eq_true rfl, Bool.true_or, Bool.true_and]
  have hassoc (slash : Nat) : (mime.zipIdx.all fun (ch, i) =>
      decide (i = slash) || isAlphanumeric ch || (text "!#$&^_.+-").contains ch) =
      mime.zipIdx.all fun (ch, i) => decide (i = slash) || token ch := by
    refine congrArg mime.zipIdx.all (funext fun at_ => ?_)
    exact Bool.or_assoc _ _ _
  unfold validMime
  constructor
  · intro h
    rw [Bool.and_eq_true, Bool.and_eq_true, decide_eq_true_eq, decide_eq_true_eq] at h
    obtain ⟨⟨hlong, hshort⟩, h⟩ := h
    cases hslash : mime.findIdx? fun ch => decide (ch = 47) with
    | none =>
      rw [hslash] at h
      exact absurd h Bool.false_ne_true
    | some slash =>
      rw [hslash] at h
      dsimp only at h
      rw [hassoc] at h
      obtain ⟨type, subtype, rfl, -, hlength⟩ := slash_iff.mp hslash
      rw [hparts type subtype slash hlength] at h
      simp only [Bool.and_eq_true, bne_iff_ne, ne_eq, List.all_eq_true, List.length_append,
        List.length_cons] at h
      obtain ⟨⟨hfirst, hlast⟩, htype, hsubtype⟩ := h
      refine ⟨hshort, type, subtype, rfl, ?_, ?_, htype, hsubtype⟩
      · rintro rfl
        exact hfirst hlength.symm
      · rintro rfl
        exact hlast (by rw [← hlength]; rfl)
  · rintro ⟨hshort, type, subtype, rfl, hfirst, hlast, htype, hsubtype⟩
    have hnone : 47 ∉ type := fun hmem => absurd (htype 47 hmem) (by rw [token_slash]; decide)
    have hslash := slash_iff.mpr ⟨type, subtype, rfl, hnone, rfl⟩
    have htypes := List.length_pos_of_ne_nil hfirst
    have hsubtypes := List.length_pos_of_ne_nil hlast
    have hlong : 3 ≤ (type ++ 47 :: subtype).length := by
      rw [List.length_append, List.length_cons]
      omega
    rw [hslash, decide_eq_true hlong, decide_eq_true hshort, Bool.true_and, Bool.true_and]
    dsimp only
    rw [hassoc, hparts type subtype _ rfl]
    simp only [Bool.and_eq_true, bne_iff_ne, ne_eq, List.all_eq_true, List.length_append,
      List.length_cons]
    exact ⟨⟨by omega, by omega⟩, htype, hsubtype⟩

/-! ## One file -/

theorem hex_iff (ch : UInt8) :
    (isDigit ch || (97 ≤ ch && ch ≤ 102)) = true ↔ ch ∈ text "0123456789abcdef" := by
  have hall : ∀ n < 256, (isDigit (UInt8.ofNat n) ||
      (97 ≤ UInt8.ofNat n && UInt8.ofNat n ≤ 102)) =
        (text "0123456789abcdef").contains (UInt8.ofNat n) := by decide +kernel
  have hch := hall ch.toNat ch.toNat_lt
  rw [UInt8.ofNat_toNat] at hch
  rw [hch, List.contains_iff_mem]

theorem canonical_checks {digits : Bytes} : Canonical digits ↔
    ¬(decide (digits.length = 0) || decide (digits.length > 1) && decide (digits.head? = some 48)) =
      true ∧ digits.all isDigit = true := by
  simp only [Canonical, Bool.or_eq_true, Bool.and_eq_true, decide_eq_true_eq, not_or, not_and,
    List.all_eq_true, List.length_eq_zero_iff, ne_eq]
  exact ⟨fun h => ⟨⟨h.1, h.2.2⟩, h.2.1⟩, fun h => ⟨h.1.1, h.2, h.1.2⟩⟩

/-- A file is validated exactly when it is well formed, with the number of bytes it names. -/
theorem validate_iff {file : Upload} {n : Nat} :
    validate file = .ok n ↔ WellFormed file ∧ n = spelled file.bytes := by
  have hsize : (∃ m ≤ maxFileBytes, file.bytes = decimal m) ↔
      Canonical file.bytes ∧ spelled file.bytes ≤ maxFileBytes := by
    constructor
    · rintro ⟨m, hm, hbytes⟩
      rw [hbytes, spelled_decimal]
      exact ⟨canonical_decimal m, hm⟩
    · rintro ⟨hcanonical, hsmall⟩
      exact ⟨_, hsmall, canonical_iff.mp hcanonical⟩
  have hwell : WellFormed file ↔ validId file.id = true ∧ validName file.name = true ∧
      (validMime file.mimeType = true ∧ file.sha256.length = 64) ∧
      file.sha256.all (fun ch => isDigit ch || (97 ≤ ch && ch ≤ 102)) = true ∧
      Canonical file.bytes ∧ spelled file.bytes ≤ maxFileBytes := by
    rw [validName_iff, validMime_iff, List.all_eq_true, ← hsize]
    simp only [hex_iff]
    exact ⟨fun h => ⟨h.id, h.name, ⟨h.mime, h.hash.1⟩, h.hash.2, h.size⟩,
      fun h => ⟨h.1, h.2.1, h.2.2.1.1, ⟨h.2.2.1.2, h.2.2.2.1⟩, h.2.2.2.2⟩⟩
  rw [hwell, canonical_checks]
  unfold validate
  split_ifs with hid hname hmime hhash hlead hdigits hlarge
  · exact iff_of_false nofun fun h => by simp [h.1.1] at hid
  · exact iff_of_false nofun fun h => by simp [h.1.2.1] at hname
  · exact iff_of_false nofun fun h => by simp [h.1.2.2.1] at hmime
  · exact iff_of_false nofun fun h => by
      rw [h.1.2.2.2.1] at hhash
      exact absurd hhash (by decide)
  · exact iff_of_false nofun fun h => h.1.2.2.2.2.1.1 hlead
  · exact iff_of_false nofun fun h => by simp [h.1.2.2.2.2.1.2] at hdigits
  · exact iff_of_false nofun fun h => absurd h.1.2.2.2.2.2 (Nat.not_le.mpr hlarge)
  · simp only [Bool.not_eq_true', Bool.not_eq_false, Bool.or_eq_true, bne_iff_ne, ne_eq, not_or,
      not_not] at hid hname hmime hhash hdigits
    rw [Except.ok.injEq]
    exact ⟨fun h => ⟨⟨hid, hname, hmime, hhash, ⟨hlead, hdigits⟩, Nat.le_of_not_lt hlarge⟩, h.symm⟩,
      fun h => h.2.symm⟩

/-- `validate` with the conversion of the size to 64 bits. -/
def validate64 (file : Upload) : Checked ValidateError Nat Nat := do
  Checked.require (validId file.id) .invalidRequest
  Checked.require (validName file.name) .invalidRequest
  Checked.require (!(!validMime file.mimeType || file.sha256.length != 64)) .invalidRequest
  Checked.require (file.sha256.all fun ch => isDigit ch || (97 ≤ ch && ch ≤ 102)) .invalidRequest
  Checked.require
    (!(file.bytes.length = 0 || (file.bytes.length > 1 && file.bytes.head? = some 48)))
    .invalidRequest
  Checked.require (file.bytes.all isDigit) .invalidRequest
  let bytes ← Checked.orFail .attachmentTooLarge (parseU64 file.bytes)
  Checked.require (bytes ≤ maxFileBytes) .attachmentTooLarge
  pure bytes

section Guards

variable {ε σ α : Type} {k : Checked ε σ α} {x : Except ε α} (e : ε)

theorem guard_eq (ok : Bool) (h : k = Checked.ofExcept x) :
    (if ok = true then k else Checked.fail e) =
      Checked.ofExcept (if (!ok) = true then .error e else x) := by
  cases ok with
  | false => rfl
  | true => exact h

theorem refuse_eq (bad : Bool) (h : k = Checked.ofExcept x) :
    (if (!bad) = true then k else Checked.fail e) =
      Checked.ofExcept (if bad = true then .error e else x) := by
  cases bad with
  | true => rfl
  | false => exact h

end Guards

theorem validate64_eq (file : Upload) : validate64 file = Checked.ofExcept (validate file) := by
  have hmax : maxFileBytes < 2 ^ 64 := by decide
  unfold validate64 validate
  simp only [Checked.require_bind]
  refine guard_eq _ _ (guard_eq _ _ (refuse_eq _ _ (guard_eq _ _ (refuse_eq _ _ ?_))))
  by_cases hdigits : file.bytes.all isDigit = true
  · rw [hdigits, if_pos rfl, if_neg (by decide), parseU64_eq (List.all_eq_true.mp hdigits)]
    by_cases hlarge : spelled file.bytes > maxFileBytes
    · rw [if_pos hlarge]
      by_cases hfits : spelled file.bytes < 2 ^ 64
      · rw [if_pos hfits]
        exact if_neg (by simpa using hlarge)
      · rw [if_neg hfits]
        rfl
    · have hfits : spelled file.bytes < 2 ^ 64 := (Nat.le_of_not_lt hlarge).trans_lt hmax
      rw [if_neg hlarge, if_pos hfits]
      exact if_pos (by simpa using hlarge)
  · rw [Bool.not_eq_true] at hdigits
    rw [hdigits]
    rfl

/-! ## The set -/

def turn64 (files : List Upload) (at_ : Upload × Nat) : Checked ValidateError Nat Unit := do
  let bytes ← validate64 at_.1
  let total ← Checked.get id
  let total ← Checked.add total bytes
  Checked.modify fun _ => total
  Checked.require (total ≤ maxSendBytes) .attachmentTooLarge
  let earlier ← Checked.slice files 0 at_.2
  Checked.require (!earlier.any fun previous => at_.1.id = previous.id) .invalidRequest

def validateSet64 (files : List Upload) : Checked ValidateError Nat Unit := do
  Checked.require (files.length ≤ maxFiles) .tooManyAttachments
  Checked.modify fun _ => 0
  let _ ← Checked.each (turn64 files) files.zipIdx
  pure ()

/-- A file that is within bounds keeps the total there: 100 MiB more than 200 MiB is far
from 64 bits. -/
theorem turn64_eq (previous rest : List Upload) (file : Upload) {total : Nat}
    (htotal : total ≤ maxSendBytes) :
    turn64 (previous ++ file :: rest) (file, previous.length) total =
      match validate file with
      | .error e => (.error (.error e), total)
      | .ok bytes =>
        (if total + bytes > maxSendBytes then .error (.error .attachmentTooLarge)
        else if previous.any fun p => file.id = p.id then .error (.error .invalidRequest)
        else .ok (), total + bytes) := by
  unfold turn64
  rw [validate64_eq]
  cases hfile : validate file with
  | error e => rfl
  | ok bytes =>
    obtain ⟨hwell, rfl⟩ := validate_iff.mp hfile
    have hsmall : spelled file.bytes ≤ maxFileBytes := by
      obtain ⟨n, hn, hbytes⟩ := hwell.size
      rwa [hbytes, spelled_decimal]
    have hfits : total + spelled file.bytes < 2 ^ 64 := by
      unfold maxSendBytes at htotal
      unfold maxFileBytes at hsmall
      omega
    have hslice : (previous ++ file :: rest).take previous.length = previous := List.take_left
    rw [Checked.bind_eq (Checked.ofExcept_ok.mpr ⟨rfl, rfl⟩),
      Checked.bind_get, id_eq,
      Checked.bind_eq (Checked.add_ok.mpr ⟨hfits, rfl, rfl⟩),
      Checked.bind_eq (a := ()) (Checked.modify_ok.mpr rfl), Checked.require_bind]
    by_cases hlarge : total + spelled file.bytes > maxSendBytes
    · rw [if_neg (by simpa using hlarge)]
      dsimp only
      rw [if_pos hlarge]
      rfl
    · rw [if_pos (by simpa using hlarge),
        Checked.bind_eq (Checked.slice_ok.mpr ⟨by simp, rfl, rfl⟩), List.drop_zero, hslice]
      dsimp only
      rw [if_neg hlarge]
      cases previous.any fun p => decide (file.id = p.id) with
      | true => rfl
      | false => rfl

/-- The loop gives the verdict of the sum in unbounded numbers. -/
theorem each64_eq (rest : List Upload) (previous : List Upload) (total : Nat)
    (htotal : total ≤ maxSendBytes) : ∃ total',
      Checked.each (turn64 (previous ++ rest)) (rest.zipIdx previous.length) total =
        (match validateFrom previous total rest with
          | .ok () => .ok (rest.map fun _ => ())
          | .error e => .error (.error e), total') := by
  induction rest generalizing previous total with
  | nil => exact ⟨total, rfl⟩
  | cons file rest ih =>
    have hturn := turn64_eq previous rest file htotal
    have hsplit : previous ++ file :: rest = previous ++ [file] ++ rest := by simp
    have heach : Checked.each (turn64 (previous ++ file :: rest))
        ((file :: rest).zipIdx previous.length) =
        (turn64 (previous ++ file :: rest) (file, previous.length) >>= fun _ =>
          Checked.each (turn64 (previous ++ [file] ++ rest))
            (rest.zipIdx (previous ++ [file]).length) >>= fun bs => pure (() :: bs)) := by
      rw [← hsplit, List.length_append]
      rfl
    rw [heach, validateFrom]
    cases hfile : validate file with
    | error e =>
      rw [hfile] at hturn
      exact ⟨total, Checked.bind_error hturn⟩
    | ok bytes =>
      rw [hfile] at hturn
      dsimp only at hturn ⊢
      by_cases hlarge : total + bytes > maxSendBytes
      · rw [if_pos hlarge] at hturn ⊢
        exact ⟨total + bytes, Checked.bind_error hturn⟩
      · rw [if_neg hlarge] at hturn ⊢
        cases htaken : previous.any fun p => decide (file.id = p.id) with
        | true =>
          rw [htaken, if_pos rfl] at hturn
          exact ⟨total + bytes, Checked.bind_error hturn⟩
        | false =>
          rw [htaken, if_neg Bool.false_ne_true] at hturn
          obtain ⟨total', hrest⟩ := ih (previous ++ [file]) (total + bytes) (Nat.le_of_not_lt hlarge)
          refine ⟨total', (Checked.bind_eq hturn).trans ?_⟩
          rw [if_neg Bool.false_ne_true]
          cases hverdict : validateFrom (previous ++ [file]) (total + bytes) rest with
          | ok =>
            rw [hverdict] at hrest
            exact Checked.bind_eq hrest
          | error e =>
            rw [hverdict] at hrest
            exact Checked.bind_error hrest

theorem validateSet64_eq (files : List Upload) (total : Nat) :
    (validateSet64 files total).1 =
      match validateSet files with
      | .ok () => .ok ()
      | .error e => .error (.error e) := by
  unfold validateSet64 validateSet
  rw [Checked.require_bind]
  by_cases hcount : files.length > maxFiles
  · rw [if_neg (by simpa using hcount), if_pos hcount]
    rfl
  · rw [if_pos (by simpa using hcount), if_neg hcount, Checked.bind_eq (a := ()) (Checked.modify_ok.mpr rfl)]
    obtain ⟨total', heach⟩ := each64_eq files [] 0 (Nat.zero_le _)
    rw [List.nil_append, List.length_nil] at heach
    cases hverdict : validateFrom [] 0 files with
    | ok =>
      rw [hverdict] at heach
      rw [Checked.bind_eq heach]
      rfl
    | error e =>
      rw [hverdict] at heach
      rw [Checked.bind_error heach]

theorem validateFrom_iff (previous : List Upload) {files : List Upload} {total : Nat}
    (hprevious : (previous.map Upload.id).Nodup) (htotal : total ≤ maxSendBytes) :
    validateFrom previous total files = .ok () ↔
      (∀ file ∈ files, WellFormed file) ∧ ((previous ++ files).map Upload.id).Nodup ∧
        total + (files.map fun file => spelled file.bytes).sum ≤ maxSendBytes := by
  induction files generalizing previous total with
  | nil =>
    rw [List.append_nil]
    exact iff_of_true rfl ⟨fun _ hfile => absurd hfile List.not_mem_nil, hprevious, htotal⟩
  | cons file rest ih =>
    rw [validateFrom]
    cases hfile : validate file with
    | error e =>
      refine iff_of_false (fun habsurd => by cases habsurd) fun h => ?_
      have hok := validate_iff.mpr ⟨h.1 file List.mem_cons_self, rfl⟩
      cases hfile.symm.trans hok
    | ok bytes =>
      obtain ⟨hwell, rfl⟩ := validate_iff.mp hfile
      have hsplit : previous ++ file :: rest = previous ++ [file] ++ rest := by simp
      dsimp only
      rw [List.map_cons, List.sum_cons, hsplit]
      by_cases hlarge : total + spelled file.bytes > maxSendBytes
      · rw [if_pos hlarge]
        exact iff_of_false (fun habsurd => by cases habsurd) fun h => by omega
      · rw [if_neg hlarge]
        have hfresh : ((previous ++ [file]).map Upload.id).Nodup ↔
            ¬(previous.any fun p => decide (file.id = p.id)) = true := by
          rw [List.map_append, List.map_singleton, List.nodup_middle, List.append_nil,
            List.nodup_cons, List.any_eq_true, List.mem_map]
          simp only [decide_eq_true_eq, hprevious, and_true, eq_comm (a := file.id)]
        by_cases htaken : (previous.any fun p => decide (file.id = p.id)) = true
        · rw [if_pos htaken]
          refine iff_of_false (fun habsurd => by cases habsurd) fun h => ?_
          have hfront := (List.map_append ▸ h.2.1).of_append_left
          exact hfresh.mp hfront htaken
        · rw [if_neg htaken, ih (previous ++ [file]) (hfresh.mpr htaken) (Nat.le_of_not_lt hlarge), List.forall_mem_cons,
            Nat.add_assoc]
          exact ⟨fun h => ⟨⟨hwell, h.1⟩, h.2⟩, fun h => ⟨h.1.2, h.2⟩⟩

theorem validateSet_iff {files : List Upload} : validateSet files = .ok () ↔ Accepted files := by
  unfold validateSet
  by_cases hcount : files.length > maxFiles
  · rw [if_pos hcount]
    exact iff_of_false nofun fun h => absurd h.count (Nat.not_le.mpr hcount)
  · rw [if_neg hcount, validateFrom_iff [] .nil (Nat.zero_le _), List.nil_append, Nat.zero_add]
    exact ⟨fun h => ⟨Nat.le_of_not_lt hcount, h.2.1, h.1, h.2.2⟩,
      fun h => ⟨h.wellFormed, h.distinct, h.total⟩⟩

/-- No addition and no conversion overflows, and what is accepted are the sets within the
limits of well-formed files. -/
theorem validateSet64_accepts (files : List Upload) (total : Nat) :
    (validateSet64 files total).1 ≠ .error .trap ∧
      ((validateSet64 files total).1 = .ok () ↔ Accepted files) := by
  rw [validateSet64_eq, ← validateSet_iff]
  cases validateSet files with
  | ok => exact ⟨nofun, iff_of_true rfl rfl⟩
  | error e => exact ⟨nofun, iff_of_false nofun nofun⟩

end Zimbr.Attachments
