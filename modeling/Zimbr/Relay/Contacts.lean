import Mathlib.Data.List.FinRange
import Zimbr.Library.Agreement
import Zimbr.Library.Checked
import Zimbr.Protocol.Types
import Zimbr.Relay.PlistXml

set_option autoImplicit false

/-!
# Contact matching

The addresses of the contacts are filed under their keys, and an address of a
conversation is looked up by its own.
-/
namespace Zimbr.Relay.Contacts
open Library Agreement

structure Contact where
  id : Bytes
  name : Option Bytes := none
  emails : List Bytes := []
  phones : List Bytes := []
  deriving DecidableEq, Repr

/-- The key functions of the native bridge. Lowering the local part of an email
that has a key leaves one that has. -/
structure Native where
  emailKey : Bytes → Bool → Option Bytes
  phoneKey : Bytes → Bytes → Option Bytes
  folds : ∀ value, value.length ≤ 254 → (emailKey value false).isSome →
    (emailKey value true).isSome

inductive Build where
  | fake
  | native (bridge : Native)

inductive InitError where
  | invalidContacts
  deriving DecidableEq, Repr

/-- `std.ascii.toLower`. -/
def toLower (ch : UInt8) : UInt8 := if 65 ≤ ch && ch ≤ 90 then ch + 32 else ch

def trim (address : Bytes) : Bytes := Plist.trim (fun ch => (text " \t\r\n").contains ch) address

def emailKey (build : Build) (address : Bytes) (foldLocal : Bool) : Option Bytes :=
  if address.length > 254 || address.contains 0 then none
  else match build with
  | .native bridge => bridge.emailKey address foldLocal
  | .fake =>
    let trimmed := trim address
    match trimmed.findIdx? (fun ch => decide (ch = 64)) with
    | none => none
    | some at_ =>
      let part := trimmed.take at_
      let domain := trimmed.drop (at_ + 1)
      if trimmed.length > 254 || at_ = 0 || at_ + 1 = trimmed.length || domain.contains 64 then none
      else some ((if foldLocal then part.map toLower else part) ++ 64 :: domain.map toLower)

def phoneKey (build : Build) (address region : Bytes) : Except InitError Bytes :=
  match build with
  | .native bridge =>
    if address.contains 0 then .error .invalidContacts
    else match bridge.phoneKey address region with
    | none => .error .invalidContacts
    | some key => .ok key
  | .fake =>
    let trimmed := trim address
    .ok ((if (text "+").isPrefixOf trimmed && validAddress trimmed then text "phone" else text "exact")
      ++ text ":" ++ trimmed)

/-- A candidate is the position of a contact, so that it is never out of bounds. -/
structure Index (contacts : List Contact) where
  exactEmails : Table Bytes (Candidate (Fin contacts.length)) := .empty
  foldedEmails : Table Bytes (Candidate (Fin contacts.length)) := .empty
  phones : Table Bytes (Candidate (Fin contacts.length)) := .empty

variable {contacts : List Contact} (build : Build)

def contactId (contacts : List Contact) (i : Fin contacts.length) : Bytes := contacts[i].id

def insert (map : Table Bytes (Candidate (Fin contacts.length))) (key : Bytes)
    (i : Fin contacts.length) : Table Bytes (Candidate (Fin contacts.length)) :=
  note (contactId contacts) map key i

namespace Index

def addEmail (i : Fin contacts.length) (index : Index contacts) (email : Bytes) :
    Except (Stop InitError) (Index contacts) :=
  match emailKey build email false with
  | none => .ok index
  | some key =>
    let index := { index with exactEmails := insert index.exactEmails key i }
    match emailKey build email true with
    | none => .error .trap
    | some folded => .ok { index with foldedEmails := insert index.foldedEmails folded i }

def addPhone (i : Fin contacts.length) (index : Index contacts) (phone : Bytes) :
    Except (Stop InitError) (Index contacts) :=
  if phone.length > 300 ||
      (!(text "phone:").isPrefixOf phone && !(text "exact:").isPrefixOf phone) then
    .error (.error .invalidContacts)
  else .ok { index with phones := insert index.phones phone i }

def addContact (index : Index contacts) (i : Fin contacts.length) :
    Except (Stop InitError) (Index contacts) :=
  let contact := contacts[i]
  if contact.id.length = 0 || contact.id.length > 1024 then .error (.error .invalidContacts)
  else if contact.name.any fun name => name.length > 1024 || !utf8ValidateSlice name then
    .error (.error .invalidContacts)
  else do
    let index ← contact.emails.foldlM (addEmail build i) index
    contact.phones.foldlM (addPhone i) index

def init (contacts : List Contact) : Except (Stop InitError) (Index contacts) :=
  (List.finRange contacts.length).foldlM (addContact build) {}

def match_ (index : Index contacts) (address region : Bytes) :
    Except (Stop InitError) (Option (Candidate (Fin contacts.length))) :=
  match emailKey build address false with
  | some key =>
    match index.exactEmails.get? key with
    | some candidate => .ok (some candidate)
    | none =>
      match emailKey build address true with
      | none => .error .trap
      | some folded => .ok (index.foldedEmails.get? folded)
  | none =>
    match phoneKey build address region with
    | .error e => .error (.error e)
    | .ok key => .ok (index.phones.get? key)

/-- What the refresh makes of an address: the contact of an unambiguous candidate. An
address that cannot be matched is unmatched, and nothing is left of a trap. -/
def lookup (index : Index contacts) (address region : Bytes) : Option (Verdict Bytes) :=
  match index.match_ build address region with
  | .error .trap => none
  | .error (.error _) => some .unmatched
  | .ok candidate => some (verdict (contactId contacts) candidate)

end Index

/-! The keys of a contact, and the contacts of a key. -/

def exactKey (email : Bytes) : Option Bytes := emailKey build email false

/-- Only an email that has an exact key is filed under its folded one. -/
def foldedKey (email : Bytes) : Option Bytes :=
  (exactKey build email).bind fun _ => emailKey build email true

def exactKeys (c : Contact) : List Bytes := c.emails.filterMap (exactKey build)

def foldedKeys (c : Contact) : List Bytes := c.emails.filterMap (foldedKey build)

def sharingKey (keys : Contact → List Bytes) (contacts : List Contact) (key : Bytes) : List Contact :=
  contacts.filter fun c => decide (key ∈ keys c)

/-- The contacts that share the key an address is matched by: of an email, the exact
one if any contact has it, and else the folded one. -/
def sharing (contacts : List Contact) (address region : Bytes) : List Contact :=
  match emailKey build address false, emailKey build address true with
  | some key, folded =>
    if sharingKey (exactKeys build) contacts key ≠ [] then sharingKey (exactKeys build) contacts key
    else folded.elim [] (sharingKey (foldedKeys build) contacts)
  | none, _ => ((phoneKey build address region).toOption).elim [] (sharingKey Contact.phones contacts)

def acceptedPhone (phone : Bytes) : Bool :=
  phone.length ≤ 300 && ((text "phone:").isPrefixOf phone || (text "exact:").isPrefixOf phone)

def accepted (c : Contact) : Bool :=
  c.id.length != 0 && c.id.length ≤ 1024 &&
    c.name.all (fun name => name.length ≤ 1024 && utf8ValidateSlice name) &&
    c.phones.all acceptedPhone

variable {build}

/-! ## Building the index -/

theorem emailKey_folds {email key : Bytes} (h : emailKey build email false = some key) :
    ∃ folded, emailKey build email true = some folded := by
  unfold emailKey at h ⊢
  by_cases hlong : (decide (email.length > 254) || email.contains 0) = true
  · rw [if_pos hlong] at h
    exact absurd h nofun
  · rw [if_neg hlong] at h ⊢
    cases build with
    | native bridge =>
      dsimp only at h ⊢
      rw [Bool.or_eq_true, decide_eq_true_eq, not_or, Nat.not_lt] at hlong
      exact Option.isSome_iff_exists.mp (bridge.folds email hlong.1 (by rw [h]; rfl))
    | fake =>
      dsimp only at h ⊢
      cases hat : (trim email).findIdx? fun ch => decide (ch = 64) with
      | none => simp [hat] at h
      | some at_ =>
        simp only [hat] at h ⊢
        split_ifs at h ⊢ with hform
        all_goals simp at h ⊢

theorem addEmails_eq (i : Fin contacts.length) (emails : List Bytes) (index : Index contacts) :
    emails.foldlM (Index.addEmail build i) index = .ok { index with
      exactEmails := file (contactId contacts) index.exactEmails i
        (emails.filterMap (exactKey build))
      foldedEmails := file (contactId contacts) index.foldedEmails i
        (emails.filterMap (foldedKey build)) } := by
  induction emails generalizing index with
  | nil => rfl
  | cons email rest ih =>
    rw [List.foldlM_cons]
    cases hkey : exactKey build email with
    | none =>
      have hfolded : foldedKey build email = none := by rw [foldedKey, hkey, Option.bind_none]
      have hstep : index.addEmail build i email = .ok index := by
        unfold exactKey at hkey
        simp only [Index.addEmail, hkey]
      rw [hstep, List.filterMap_cons_none hkey, List.filterMap_cons_none hfolded]
      exact ih index
    | some key =>
      obtain ⟨folded, hraw⟩ := emailKey_folds hkey
      have hfolded : foldedKey build email = some folded := by
        rw [foldedKey, hkey, Option.bind_some, hraw]
      have hstep : index.addEmail build i email = .ok { index with
          exactEmails := insert index.exactEmails key i
          foldedEmails := insert index.foldedEmails folded i } := by
        unfold exactKey at hkey
        simp only [Index.addEmail, hkey, hraw]
      rw [hstep, List.filterMap_cons_some hkey, List.filterMap_cons_some hfolded]
      exact ih _

theorem foldlM_guarded {α σ ε : Type} {step : σ → α → Except ε σ} (ok : α → Bool)
    {next : σ → α → σ} {e : ε} {items : List α} (h : ∀ a ∈ items, ∀ s,
      step s a = if ok a then .ok (next s a) else .error e) (s : σ) :
    items.foldlM step s = if items.all ok then .ok (items.foldl next s) else .error e := by
  induction items generalizing s with
  | nil => rfl
  | cons a rest ih =>
    have hrest := ih fun b hb => h b (List.mem_cons_of_mem a hb)
    rw [List.foldlM_cons, h a List.mem_cons_self, List.all_cons]
    cases ok a with
    | false => rfl
    | true => exact hrest (next s a)

theorem addPhone_eq (i : Fin contacts.length) (index : Index contacts) (phone : Bytes) :
    index.addPhone i phone =
      if acceptedPhone phone then .ok { index with phones := insert index.phones phone i }
      else .error (.error .invalidContacts) := by
  unfold Index.addPhone acceptedPhone
  by_cases hlong : phone.length ≤ 300
  · cases (text "phone:").isPrefixOf phone <;> cases (text "exact:").isPrefixOf phone <;>
      simp [hlong]
  · simp [hlong]

theorem addPhones_eq (i : Fin contacts.length) (phones : List Bytes) (index : Index contacts) :
    phones.foldlM (Index.addPhone i) index =
      if phones.all acceptedPhone then
        .ok { index with phones := file (contactId contacts) index.phones i phones }
      else .error (.error .invalidContacts) := by
  rw [foldlM_guarded acceptedPhone fun phone _ index => addPhone_eq i index phone]
  congr 2
  exact List.foldl_hom (fun map => ({ index with phones := map } : Index contacts))
    fun _ _ => rfl

theorem addContact_eq (index : Index contacts) (i : Fin contacts.length) :
    index.addContact build i =
      if accepted contacts[i] then .ok {
        exactEmails := file (contactId contacts) index.exactEmails i (exactKeys build contacts[i])
        foldedEmails := file (contactId contacts) index.foldedEmails i (foldedKeys build contacts[i])
        phones := file (contactId contacts) index.phones i contacts[i].phones }
      else .error (.error .invalidContacts) := by
  unfold Index.addContact accepted
  dsimp only
  rw [addEmails_eq]
  change (if _ then _ else if _ then _ else
    (contacts[i].phones.foldlM (Index.addPhone i) _ : Except (Stop InitError) _)) = _
  rw [addPhones_eq]
  have hid : (contacts[i].id.length != 0 && decide (contacts[i].id.length ≤ 1024)) =
      !(decide (contacts[i].id.length = 0) || decide (contacts[i].id.length > 1024)) := by
    generalize contacts[i].id.length = n
    by_cases hlong : n ≤ 1024
    · rw [decide_eq_true hlong, decide_eq_false (Nat.not_lt.mpr hlong), Bool.and_true, Bool.or_false]
      rfl
    · rw [decide_eq_false hlong, decide_eq_true (Nat.lt_of_not_le hlong), Bool.and_false,
        Bool.or_true, Bool.not_true]
  have hname : (contacts[i].name.all fun name => name.length ≤ 1024 && utf8ValidateSlice name) =
      !contacts[i].name.any fun name => name.length > 1024 || !utf8ValidateSlice name := by
    cases contacts[i].name with
    | none => rfl
    | some name => by_cases hlong : name.length ≤ 1024 <;> simp [hlong]
  rw [hid, hname]
  cases decide (contacts[i].id.length = 0) || decide (contacts[i].id.length > 1024) with
  | true => rfl
  | false =>
    cases contacts[i].name.any fun name => name.length > 1024 || !utf8ValidateSlice name with
    | true => rfl
    | false => rfl

def indexed (build : Build) (contacts : List Contact) : Index contacts where
  exactEmails := (List.finRange contacts.length).foldl
    (fun map i => file (contactId contacts) map i (exactKeys build contacts[i])) .empty
  foldedEmails := (List.finRange contacts.length).foldl
    (fun map i => file (contactId contacts) map i (foldedKeys build contacts[i])) .empty
  phones := (List.finRange contacts.length).foldl
    (fun map i => file (contactId contacts) map i contacts[i].phones) .empty

theorem all_positions (p : Contact → Bool) :
    ((List.finRange contacts.length).all fun i => p contacts[i]) = contacts.all p := by
  conv_rhs => rw [← List.map_get_finRange contacts, List.all_map]
  rfl

theorem init_eq (build : Build) (contacts : List Contact) :
    Index.init build contacts =
      if contacts.all accepted then .ok (indexed build contacts)
      else .error (.error .invalidContacts) := by
  unfold Index.init
  rw [foldlM_guarded (fun i => accepted contacts[i]) fun i _ index => addContact_eq index i,
    all_positions]
  congr 2
  have hfold (items : List (Fin contacts.length)) (e f p : Table Bytes (Candidate (Fin contacts.length))) :
      items.foldl (fun (index : Index contacts) i => {
        exactEmails := file (contactId contacts) index.exactEmails i (exactKeys build contacts[i])
        foldedEmails := file (contactId contacts) index.foldedEmails i (foldedKeys build contacts[i])
        phones := file (contactId contacts) index.phones i contacts[i].phones })
        { exactEmails := e, foldedEmails := f, phones := p } = {
        exactEmails := items.foldl
          (fun map i => file (contactId contacts) map i (exactKeys build contacts[i])) e
        foldedEmails := items.foldl
          (fun map i => file (contactId contacts) map i (foldedKeys build contacts[i])) f
        phones := items.foldl (fun map i => file (contactId contacts) map i contacts[i].phones) p } := by
    induction items generalizing e f p with
    | nil => rfl
    | cons i rest ih => exact ih _ _ _
  exact hfold _ _ _ _

/-! ## Looking up -/

/-- What a table says of a key is what the contacts that share it say. -/
theorem verdict_filed (keys : Contact → List Bytes) (contacts : List Contact) (key : Bytes) :
    verdict (contactId contacts) (((List.finRange contacts.length).foldl
      (fun map i => file (contactId contacts) map i (keys contacts[i])) .empty).get? key) =
    verdict Contact.id (candidate Contact.id (sharingKey keys contacts key)) := by
  rw [get?_filed fun i => keys contacts[i]]
  have hshared : sharingKey keys contacts key =
      ((List.finRange contacts.length).filter fun i => decide (key ∈ keys contacts[i])).map
        contacts.get := by
    unfold sharingKey
    conv_lhs => rw [← List.map_get_finRange contacts, List.filter_map]
    rfl
  rw [hshared]
  refine verdict_congr fun id => ?_
  rw [List.map_map]
  rfl

theorem init_ok {index : Index contacts} (h : Index.init build contacts = .ok index) :
    contacts.all accepted = true ∧ index = indexed build contacts := by
  rw [init_eq] at h
  by_cases hall : contacts.all accepted = true
  · rw [if_pos hall] at h
    exact ⟨hall, (Except.ok.inj h).symm⟩
  · rw [if_neg hall] at h
    exact absurd h nofun

/-- A lookup says of an address what the contacts that share its key say. -/
theorem lookup_eq {index : Index contacts} (h : Index.init build contacts = .ok index)
    (address region : Bytes) : index.lookup build address region =
      some (verdict Contact.id (candidate Contact.id (sharing build contacts address region))) := by
  obtain ⟨-, rfl⟩ := init_ok h
  unfold Index.lookup Index.match_ sharing
  cases hkey : emailKey build address false with
  | some key =>
    obtain ⟨folded, hfolded⟩ := emailKey_folds hkey
    have hexact : verdict (contactId contacts) ((indexed build contacts).exactEmails.get? key) = _ :=
      verdict_filed (exactKeys build) contacts key
    rw [hfolded]
    dsimp only
    cases hfound : (indexed build contacts).exactEmails.get? key with
    | some found =>
      rw [hfound] at hexact
      have hsome : sharingKey (exactKeys build) contacts key ≠ [] := by
        intro hnone
        rw [verdict_unmatched.mpr hnone, unmatched_iff] at hexact
        exact absurd hexact nofun
      rw [if_pos hsome]
      exact congrArg some hexact
    | none =>
      rw [hfound] at hexact
      have hnone : sharingKey (exactKeys build) contacts key = [] :=
        verdict_unmatched.mp (hexact.symm.trans (unmatched_iff.mpr rfl))
      rw [if_neg (not_not.mpr hnone)]
      exact congrArg some (verdict_filed (foldedKeys build) contacts folded)
  | none =>
    dsimp only
    cases phoneKey build address region with
    | error e => rfl
    | ok key => exact congrArg some (verdict_filed Contact.phones contacts key)

theorem sharingKey_perm (keys : Contact → List Bytes) {contacts' : List Contact}
    (h : contacts'.Perm contacts) (key : Bytes) :
    (sharingKey keys contacts' key).Perm (sharingKey keys contacts key) := h.filter _

theorem sharing_perm {contacts' : List Contact} (h : contacts'.Perm contacts)
    (address region : Bytes) :
    (sharing build contacts' address region).Perm (sharing build contacts address region) := by
  unfold sharing
  cases emailKey build address false with
  | some key =>
    have hexact := sharingKey_perm (exactKeys build) h key
    have hempty : sharingKey (exactKeys build) contacts' key ≠ [] ↔
        sharingKey (exactKeys build) contacts key ≠ [] := by
      rw [← List.length_pos_iff, ← List.length_pos_iff, hexact.length_eq]
    dsimp only
    by_cases hsome : sharingKey (exactKeys build) contacts key ≠ []
    · rw [if_pos hsome, if_pos (hempty.mpr hsome)]
      exact hexact
    · rw [if_neg hsome, if_neg (mt hempty.mp hsome)]
      cases emailKey build address true with
      | none => exact .nil
      | some folded => exact sharingKey_perm _ h folded
  | none =>
    dsimp only
    cases (phoneKey build address region).toOption with
    | none => exact .nil
    | some key => exact sharingKey_perm _ h key

/-- An address is given a contact exactly when every contact that shares its key has one
id, and is ambiguous when two of them differ, whatever the order of the contacts. -/
theorem lookup_names {index : Index contacts} (h : Index.init build contacts = .ok index)
    (address region : Bytes) :
    (∀ id, index.lookup build address region = some (.named id) ↔
      sharing build contacts address region ≠ [] ∧
        ∀ c ∈ sharing build contacts address region, c.id = id) ∧
    (index.lookup build address region = some .ambiguous ↔
      ∃ c ∈ sharing build contacts address region,
        ∃ d ∈ sharing build contacts address region, c.id ≠ d.id) ∧
    (index.lookup build address region = some .unmatched ↔
      sharing build contacts address region = []) ∧
    ∀ contacts', contacts'.Perm contacts → ∃ index',
      Index.init build contacts' = .ok index' ∧
        index'.lookup build address region = index.lookup build address region := by
  rw [lookup_eq h]
  refine ⟨fun id => ?_, ?_, ?_, fun contacts' hperm => ?_⟩
  · rw [Option.some.injEq]
    exact verdict_named
  · rw [Option.some.injEq]
    exact verdict_ambiguous
  · rw [Option.some.injEq]
    exact verdict_unmatched
  · have hall : contacts'.all accepted = true := by
      rw [List.all_eq_true]
      exact fun c hc => List.all_eq_true.mp (init_ok h).1 c (hperm.mem_iff.mp hc)
    have hinit : Index.init build contacts' = .ok (indexed build contacts') := by
      rw [init_eq, if_pos hall]
    refine ⟨_, hinit, ?_⟩
    rw [lookup_eq hinit]
    exact congrArg some (verdict_congr fun id =>
      ((sharing_perm hperm address region).map Contact.id).mem_iff)

def alices : List Contact :=
  [{ id := text "a", emails := [text "Al@x.io"] }, { id := text "b", emails := [text "al@x.io"] }]

theorem lookup_names_alices : ∃ index, Index.init .fake alices = .ok index ∧
    index.lookup .fake (text " Al@X.io ") [] = some (.named (text "a")) ∧
    index.lookup .fake (text "AL@x.io") [] = some .ambiguous := by
  have hinit := init_eq .fake alices
  rw [if_pos (by decide)] at hinit
  have hexact := lookup_names hinit (text " Al@X.io ") []
  have hfolded := lookup_names hinit (text "AL@x.io") []
  exact ⟨_, hinit, (hexact.1 (text "a")).mpr (by decide), hfolded.2.1.mpr (by decide)⟩

end Zimbr.Relay.Contacts
