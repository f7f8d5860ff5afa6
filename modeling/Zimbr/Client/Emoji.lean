import Mathlib.Data.List.TakeWhile
import Zimbr.Client.Editor

set_option autoImplicit false

/-!
# Emoji shortcodes

Completed shortcodes that an insertion touches are replaced at once. It does not matter in
what pieces the text was inserted.
-/
namespace Zimbr.Emoji
open Library Editor

structure Entry where
  name : Bytes
  text : Bytes
  deriving DecidableEq, Repr

def colon : UInt8 := 58

/-- The loop of `lowerBound`: the first entry whose name is not before the given one. -/
def lowerBound (entries : List Entry) (name : Bytes) (low high : Nat) : Nat :=
  if _h : low < high then
    let mid := low + (high - low) / 2
    match entries[mid]? with
    | none => low
    | some entry =>
      if entry.name < name then lowerBound entries name (mid + 1) high
      else lowerBound entries name low mid
  else low
termination_by high - low
decreasing_by all_goals omega

def lookup (entries : List Entry) (name : Bytes) : Option Bytes :=
  match entries[lowerBound entries name 0 entries.length]? with
  | none => none
  | some entry => if entry.name = name then some entry.text else none

def nameByte (b : UInt8) : Bool := isAlphanumeric b || b = 95 || b = 45 || b = 43

/-- `std.ascii.isWhitespace`. -/
def isWhitespace (b : UInt8) : Bool := b = 32 || (9 ≤ b && b ≤ 13)

/-- What may stand before the opening colon of a shortcode: the last bytes are opening
brackets and quotes. -/
def opens (previous : UInt8) : Bool :=
  isWhitespace previous || 0x80 ≤ previous || [40, 91, 123, 39, 34].contains previous

def opening (text : Bytes) : Nat → Bool
  | 0 => true
  | i + 1 => (text[i]?).any opens

def nameStart (text : Bytes) (i : Nat) : Nat :=
  i - ((text.take i).reverse.takeWhile nameByte).length

def nameEnd (text : Bytes) (stop i : Nat) : Nat :=
  i + (((text.take stop).drop i).takeWhile nameByte).length

def append (buffer text : Bytes) : Except EditError Bytes :=
  if maxText - buffer.length < text.length then .error .textTooLarge else .ok (buffer ++ text)

/-- What has been copied, up to where, and where the last replacement ended. -/
structure Expanded where
  copied : Nat
  buffer : Bytes
  converted : Option Nat
  deriving DecidableEq, Repr

/-- The loop of `expand`, from a position on. -/
def scan (entries : List Entry) (text : Bytes) (inserted stop i : Nat) (s : Expanded) :
    Except EditError Expanded :=
  if i < stop then
    if text[i]? = some colon && (opening text i || s.converted = some i) then
      let close := nameEnd text stop (i + 1)
      if close = stop || text[close]? ≠ some colon || close < inserted then
        scan entries text inserted stop (i + 1) s
      else match lookup entries ((text.drop (i + 1)).take (close - (i + 1))) with
      | none => scan entries text inserted stop (close + 1) s
      | some replacement => do
        let buffer ← append s.buffer ((text.drop s.copied).take (i - s.copied))
        let buffer ← append buffer replacement
        scan entries text inserted stop (close + 1) ⟨close + 1, buffer, some (close + 1)⟩
    else scan entries text inserted stop (i + 1) s
  else .ok s
termination_by stop - i
decreasing_by
  all_goals
    try simp only [nameEnd]
    omega

def expand (entries : List Entry) (inserted : Nat) : Edits Unit := do
  let e ← current
  let length ← Checked.sub e.caret inserted
  let added ← Checked.slice e.text inserted length
  if !added.contains colon then pure ()
  else do
    let named := nameStart e.text inserted
    let start := if 0 < named && e.text[named - 1]? = some colon then named - 1 else named
    let s ← Checked.ofExcept (scan entries e.text inserted e.caret start ⟨start, [], none⟩)
    if s.converted = none then pure ()
    else do
      let buffer ← Checked.ofExcept (append s.buffer ((e.text.drop s.copied).take (e.caret - s.copied)))
      replace ⟨start, e.caret⟩ buffer

def enter (entries : List Entry) (value : Bytes) : Edits Unit := do
  let e ← current
  insert value
  expand entries e.low

def enterAll (entries : List Entry) : List Bytes → Edits Unit
  | [] => pure ()
  | value :: rest => do
    enter entries value
    enterAll entries rest

section Lookup

variable {entries : List Entry} {name text : Bytes}

theorem lookup_mem (h : lookup entries name = some text) : ⟨name, text⟩ ∈ entries := by
  unfold lookup at h
  split at h
  · exact nomatch h
  next entry hentry =>
    split_ifs at h with hname
    obtain rfl := Option.some.inj h
    rw [← hname]
    exact List.mem_of_getElem? hentry

end Lookup

/-! Typing one byte after the other. -/

section Typing

def openAfter (before : Bytes) : Bool := before.getLast?.all opens

/-- A text that a closing colon completes a shortcode of. -/
structure Pending (out before name : Bytes) : Prop where
  split : out = before ++ colon :: name
  named : ∀ b ∈ name, nameByte b = true

def closed (entries : List Entry) (out : Bytes) : Bytes :=
  match out.reverse.dropWhile nameByte with
  | [] => out ++ [colon]
  | b :: before =>
    if b = colon && openAfter before.reverse then
      match lookup entries (out.reverse.takeWhile nameByte).reverse with
      | none => out ++ [colon]
      | some replacement => before.reverse ++ replacement
    else out ++ [colon]

def typed (entries : List Entry) (out : Bytes) (b : UInt8) : Bytes :=
  if b = colon then closed entries out else out ++ [b]

variable {entries : List Entry} {out before name : Bytes}

theorem colon_unnamed : nameByte colon = false := by decide

theorem closed_pending (h : Pending out before name) : closed entries out =
    if openAfter before then
      match lookup entries name with
      | none => out ++ [colon]
      | some replacement => before ++ replacement
    else out ++ [colon] := by
  have hreverse : out.reverse = name.reverse ++ colon :: before.reverse := by
    rw [h.split, List.reverse_append, List.reverse_cons, List.append_assoc, List.singleton_append]
  have hnamed : ∀ b ∈ name.reverse, nameByte b = true :=
    fun b hb => h.named b (List.mem_reverse.mp hb)
  unfold closed
  rw [hreverse, List.takeWhile_append_of_pos hnamed, List.dropWhile_append_of_pos hnamed]
  simp [colon_unnamed]

theorem closed_idle (h : ∀ before name, ¬Pending out before name) :
    closed entries out = out ++ [colon] := by
  unfold closed
  split
  · rfl
  next b before hdrop =>
    split_ifs with hb
    · rw [Bool.and_eq_true, decide_eq_true_eq] at hb
      refine absurd ⟨?_, ?_⟩ (h before.reverse (out.reverse.takeWhile nameByte).reverse)
      · rw [← List.reverse_inj, List.reverse_append, List.reverse_cons, List.reverse_reverse,
          List.reverse_reverse, List.append_assoc, List.singleton_append, ← hb.1, ← hdrop,
          List.takeWhile_append_dropWhile]
      · intro c hc
        exact List.mem_takeWhile_imp (List.mem_reverse.mp hc)
    · rfl

/-- No byte may follow an opening colon or a name and open a shortcode. -/
theorem named_unopened {b : UInt8} (h : nameByte b = true) : opens b = false := by
  have hall : ∀ n < 256, nameByte (UInt8.ofNat n) = true → opens (UInt8.ofNat n) = false := by
    decide +kernel
  rw [← UInt8.ofNat_toNat (x := b)] at h ⊢
  exact hall b.toNat b.toNat_lt h

theorem named_ascii {b : UInt8} (h : nameByte b = true) : b < 0x80 := by
  by_contra hhigh
  have hopens : opens b = true := by
    rw [opens, decide_eq_true (not_lt.mp hhigh), Bool.or_true, Bool.true_or]
  exact absurd ((named_unopened h).symm.trans hopens) Bool.false_ne_true

theorem pending_snoc {b : UInt8} (h : Pending (out ++ [b]) before name) :
    b = colon ∧ name = [] ∧ before = out ∨
      ∃ rest, name = rest ++ [b] ∧ nameByte b = true ∧ Pending out before rest := by
  obtain ⟨hsplit, hnamed⟩ := h
  rcases List.eq_nil_or_concat name with rfl | ⟨rest, last, rfl⟩
  · obtain ⟨rfl, hb⟩ := List.append_inj' hsplit rfl
    exact Or.inl ⟨(List.singleton_inj.mp hb), rfl, rfl⟩
  · rw [List.concat_eq_append, ← List.cons_append, ← List.append_assoc] at hsplit
    obtain ⟨hout, hb⟩ := List.append_inj' hsplit rfl
    obtain rfl := List.singleton_inj.mp hb
    refine Or.inr ⟨rest, List.concat_eq_append, hnamed b (by simp), hout, fun c hc => ?_⟩
    exact hnamed c (by simp [hc])

/-- No shortcode that may have been opened is closed by what comes next. -/
def Idle (out rest : Bytes) : Prop :=
  ∀ before name, Pending out before name → openAfter before = true →
    (rest.dropWhile nameByte).head? ≠ some colon

theorem typed_idle {b : UInt8} {rest : Bytes} (h : Idle out (b :: rest)) :
    typed entries out b = out ++ [b] := by
  unfold typed
  split_ifs with hb
  · subst hb
    by_cases hpending : ∃ before name, Pending out before name
    · obtain ⟨before, name, hpending⟩ := hpending
      rw [closed_pending hpending]
      split_ifs with hopen
      · refine absurd ?_ (h before name hpending hopen)
        rw [List.dropWhile_cons_of_neg (by simp [colon_unnamed])]
        rfl
      · rfl
    · exact closed_idle fun before name hp => hpending ⟨before, name, hp⟩
  · rfl

theorem idle_named {b : UInt8} {rest : Bytes} (hb : nameByte b = true) (h : Idle out (b :: rest)) :
    Idle (out ++ [b]) rest := by
  intro before name hpending hopen
  rcases pending_snoc hpending with ⟨rfl, -, -⟩ | ⟨shorter, -, -, hshorter⟩
  · exact absurd (colon_unnamed.symm.trans hb) (by decide)
  · have hlater := h before shorter hshorter hopen
    rwa [List.dropWhile_cons_of_pos hb] at hlater

theorem idle_other {b : UInt8} (rest : Bytes) (hname : nameByte b = false) (hb : b ≠ colon) :
    Idle (out ++ [b]) rest := by
  intro before name hpending
  rcases pending_snoc hpending with ⟨rfl, -, -⟩ | ⟨-, -, hnamed, -⟩
  · exact absurd rfl hb
  · exact absurd (hname.symm.trans hnamed) (by decide)

theorem idle_colon {rest : Bytes}
    (h : openAfter out = true → (rest.dropWhile nameByte).head? ≠ some colon) :
    Idle (out ++ [colon]) rest := by
  intro before name hpending hopen
  rcases pending_snoc hpending with ⟨-, -, rfl⟩ | ⟨-, -, hnamed, -⟩
  · exact h hopen
  · exact absurd (colon_unnamed.symm.trans hnamed) (by decide)

theorem typed_names (h : ∀ b ∈ name, nameByte b = true) :
    name.foldl (typed entries) out = out ++ name := by
  induction name generalizing out with
  | nil => simp
  | cons b rest ih =>
    have hb : b ≠ colon := fun hcolon =>
      absurd (colon_unnamed.symm.trans (hcolon ▸ h b List.mem_cons_self)) (by decide)
    rw [List.foldl_cons, typed, if_neg hb, ih fun c hc => h c (List.mem_cons_of_mem b hc)]
    simp

def resumed (entries : List Entry) (out : Bytes) : Bytes → Bytes
  | [] => out
  | b :: rest => rest.foldl (typed entries) (out ++ [b])

theorem resumed_idle {rest : Bytes} (h : Idle out rest) :
    resumed entries out rest = rest.foldl (typed entries) out := by
  cases rest with
  | nil => rfl
  | cons b rest => rw [resumed, List.foldl_cons, typed_idle h]

end Typing

/-- Some shortcodes of a text are replaced by their sequences. -/
inductive Replaces (entries : List Entry) : Bytes → Bytes → Prop where
  | nil : Replaces entries [] []
  | byte (b : UInt8) {before after : Bytes} (h : Replaces entries before after) :
      Replaces entries (b :: before) (b :: after)
  | shortcode {name replacement before after : Bytes} (hmem : ⟨name, replacement⟩ ∈ entries)
      (hname : ∀ b ∈ name, nameByte b = true) (h : Replaces entries before after) :
      Replaces entries (colon :: name ++ colon :: before) (replacement ++ after)

theorem Replaces.refl (entries : List Entry) (out : Bytes) : Replaces entries out out := by
  induction out with
  | nil => exact .nil
  | cons b rest ih => exact .byte b ih

theorem Replaces.append {entries : List Entry} {before after more most : Bytes}
    (h : Replaces entries before after) (hmore : Replaces entries more most) :
    Replaces entries (before ++ more) (after ++ most) := by
  induction h with
  | nil => exact hmore
  | byte b _ ih => exact .byte b ih
  | shortcode hmem hname _ ih =>
    rw [List.append_assoc, List.append_assoc]
    exact .shortcode hmem hname ih

theorem replaces_plain {entries : List Entry} {plain rest after : Bytes}
    (h : Replaces entries (plain ++ rest) after) (hplain : colon ∉ plain) :
    ∃ tail, after = plain ++ tail ∧ Replaces entries rest tail := by
  induction plain generalizing after with
  | nil => exact ⟨after, rfl, h⟩
  | cons b plain ih =>
    rw [List.mem_cons, not_or] at hplain
    generalize hwhole : b :: plain ++ rest = whole at h
    cases h with
    | nil => exact nomatch hwhole
    | byte c h =>
      obtain ⟨rfl, rfl⟩ := List.cons.inj hwhole
      obtain ⟨tail, rfl, htail⟩ := ih h hplain.2
      exact ⟨tail, rfl, htail⟩
    | shortcode => exact absurd (List.cons.inj hwhole).1.symm hplain.1

theorem Replaces.valid {entries : List Entry} {before after : Bytes}
    (hentries : ∀ entry ∈ entries, utf8ValidateSlice entry.text = true)
    (h : Replaces entries before after) (hvalid : utf8ValidateSlice before = true) :
    utf8ValidateSlice after = true := by
  induction hn : before.length using Nat.strongRecOn generalizing before after with
  | _ n ih =>
    cases h with
    | nil => rfl
    | @byte b before after h =>
      by_cases hb : b < 0x80
      · rw [utf8_ascii hb] at hvalid ⊢
        exact ih before.length (by simp [← hn]) h hvalid rfl
      · obtain ⟨unit, rest, hunit, hwide⟩ := exists_wide hb hvalid
        have hplain : colon ∉ unit := fun hmem => absurd (hwide.high colon hmem) (by decide)
        have hbyte := Replaces.byte b h
        rw [hunit] at hbyte hvalid hn
        obtain ⟨tail, htail, hrest⟩ := replaces_plain hbyte hplain
        rw [hwide.valid] at hvalid
        have hpos := List.length_pos_of_ne_nil hwide.nonempty
        rw [List.length_append] at hn
        rw [htail, hwide.valid]
        exact ih rest.length (by omega) hrest hvalid rfl
    | @shortcode name replacement before after hmem hname h =>
      have hprefix : utf8ValidateSlice (colon :: name ++ [colon]) = true := by
        refine utf8_of_ascii fun b hb => ?_
        rcases List.mem_append.mp hb with hfirst | hlast
        · rcases List.mem_cons.mp hfirst with rfl | hnamed
          · decide
          · exact named_ascii (hname b hnamed)
        · obtain rfl := List.mem_singleton.mp hlast
          decide
      have hsplit : colon :: name ++ colon :: before = colon :: name ++ [colon] ++ before := by simp
      rw [hsplit] at hvalid hn
      rw [utf8_rest hprefix] at hvalid
      rw [List.length_append, List.length_append] at hn
      exact utf8_append (hentries _ hmem) (ih before.length (by simp at hn; omega) h hvalid rfl)

theorem Replaces.clean {entries : List Entry} {before after : Bytes}
    (hentries : ∀ entry ∈ entries, 0 ∉ entry.text) (h : Replaces entries before after)
    (hclean : 0 ∉ before) : 0 ∉ after := by
  induction h with
  | nil => exact hclean
  | byte b _ ih =>
    rw [List.mem_cons, not_or] at hclean ⊢
    exact ⟨hclean.1, ih hclean.2⟩
  | shortcode hmem _ _ ih =>
    rw [List.mem_append, not_or]
    refine ⟨hentries _ hmem, ih fun hzero => hclean ?_⟩
    simp [hzero]

section Scan

variable {entries : List Entry} {text : Bytes} {inserted start stop i : Nat} {s s' : Expanded}
  {out : Bytes}

def Expanded.upTo (s : Expanded) (text : Bytes) (i : Nat) : Bytes :=
  s.buffer ++ (text.drop s.copied).take (i - s.copied)

/-- What the loop has made of the text up to a position. -/
structure Scan (entries : List Entry) (text : Bytes) (start stop i : Nat) (s : Expanded)
    (out : Bytes) : Prop where
  within : start ≤ s.copied ∧ s.copied ≤ i ∧ i ≤ stop
  made : out = text.take start ++ s.upTo text i
  opened : openAfter out = (opening text i || decide (s.converted = some i))
  state : s = ⟨start, [], none⟩ ∨ s.converted = some s.copied
  replaces : Replaces entries ((text.take i).drop start) (s.upTo text i)

theorem getElem?_of_drop {b : UInt8} {rest : Bytes} (h : (text.take stop).drop i = b :: rest) :
    i < stop ∧ text[i]? = some b ∧ rest = (text.take stop).drop (i + 1) := by
  have hhead := congrArg List.head? h
  rw [List.head?_drop, List.head?_cons, List.getElem?_take] at hhead
  split_ifs at hhead with hlt
  refine ⟨hlt, hhead, ?_⟩
  rw [← List.drop_drop, h]
  rfl

theorem take_snoc {b : UInt8} {copied : Nat} (hle : copied ≤ i) (h : text[i]? = some b) :
    (text.drop copied).take (i + 1 - copied) = (text.drop copied).take (i - copied) ++ [b] := by
  have hindex : (text.drop copied)[i - copied]? = some b := by
    rw [List.getElem?_drop, Nat.add_sub_cancel' hle, h]
  rw [Nat.succ_sub hle, List.take_add_one, hindex]
  rfl

theorem taken_of_drop {bytes after : Bytes} (h : (text.take stop).drop i = bytes ++ after) :
    (text.drop i).take bytes.length = bytes := by
  have hbound := congrArg List.length h
  rw [List.length_append, List.length_drop, List.length_take] at hbound
  have hmin : min bytes.length (stop - i) = bytes.length := by omega
  have hfirst := congrArg (List.take bytes.length) h
  rwa [List.take_left, List.drop_take, List.take_take, hmin] at hfirst

theorem region_append (bytes : Bytes) {after : Bytes} (h : (text.take stop).drop i = bytes ++ after)
    (hstart : start ≤ i) (hi : i ≤ text.length) :
    (text.take (i + bytes.length)).drop start = (text.take i).drop start ++ bytes := by
  rw [List.take_add, taken_of_drop h,
    List.drop_append_of_le_length (by rwa [List.length_take_of_le hi])]

theorem Scan.advance {b : UInt8} {rest : Bytes} (h : Scan entries text start stop i s out)
    (hdrop : (text.take stop).drop i = b :: rest) :
    Scan entries text start stop (i + 1) s (out ++ [b]) := by
  obtain ⟨hlt, hb, -⟩ := getElem?_of_drop hdrop
  obtain ⟨hstart, hcopied, -⟩ := h.within
  have hnext : s.upTo text (i + 1) = s.upTo text i ++ [b] := by
    rw [Expanded.upTo, Expanded.upTo, take_snoc hcopied hb, List.append_assoc]
  refine ⟨⟨hstart, by omega, hlt⟩, ?_, ?_, h.state, ?_⟩
  · rw [hnext, h.made, List.append_assoc]
  · have hlater : decide (s.converted = some (i + 1)) = false := by
      rw [decide_eq_false_iff_not]
      rcases h.state with rfl | hconverted
      · exact nofun
      · rw [hconverted, Option.some_inj]
        omega
    rw [hlater, Bool.or_false, openAfter, List.getLast?_concat, opening, hb]
    rfl
  · have hlength := (List.getElem?_eq_some_iff.mp hb).1
    have hregion := region_append [b] hdrop (hstart.trans hcopied) hlength.le
    rw [hnext, ← List.length_singleton (a := b), hregion]
    exact h.replaces.append (.byte b .nil)

theorem Scan.advances {bytes rest : Bytes} (h : Scan entries text start stop i s out)
    (hdrop : (text.take stop).drop i = bytes ++ rest) :
    Scan entries text start stop (i + bytes.length) s (out ++ bytes) := by
  induction bytes generalizing i out with
  | nil => simpa using h
  | cons b bytes ih =>
    have hnext := (getElem?_of_drop hdrop).2.2
    have hrest := ih (h.advance hdrop) hnext.symm
    rwa [List.append_assoc, List.singleton_append, Nat.add_assoc, Nat.add_comm 1] at hrest

theorem nameEnd_spec (text : Bytes) (stop i : Nat) : ∃ name, (∀ b ∈ name, nameByte b = true) ∧
    (text.take stop).drop i = name ++ (text.take stop).drop (nameEnd text stop i) ∧
    nameEnd text stop i = i + name.length ∧
    (text.take stop).drop (nameEnd text stop i) = ((text.take stop).drop i).dropWhile nameByte := by
  have hsplit := List.takeWhile_append_dropWhile (p := nameByte) (l := (text.take stop).drop i)
  have hrest : (text.take stop).drop (nameEnd text stop i) =
      ((text.take stop).drop i).dropWhile nameByte := by
    rw [nameEnd, ← List.drop_drop]
    nth_rewrite 2 [← hsplit]
    rw [List.drop_left]
  refine ⟨((text.take stop).drop i).takeWhile nameByte, fun b hb => List.mem_takeWhile_imp hb, ?_,
    rfl, hrest⟩
  rw [hrest, hsplit]

theorem opens_last {b : UInt8} (h : 0x80 ≤ b) : opens b = true ∧ nameByte b = false ∧ b ≠ colon := by
  have hall : ∀ n < 256, 0x80 ≤ n → opens (UInt8.ofNat n) = true ∧ nameByte (UInt8.ofNat n) = false ∧
      UInt8.ofNat n ≠ colon := by decide +kernel
  rw [← UInt8.ofNat_toNat (x := b)]
  exact hall b.toNat b.toNat_lt (UInt8.le_iff_toNat_le.mp h)

/-- What the texts of the catalog are like. -/
def Catalog (entries : List Entry) : Prop :=
  ∀ entry ∈ entries, ∃ b, entry.text.getLast? = some b ∧ 0x80 ≤ b

theorem append_ok {buffer added buffer' : Bytes} (h : append buffer added = .ok buffer') :
    buffer' = buffer ++ added := by
  unfold append at h
  split_ifs at h
  exact (Except.ok.inj h).symm

theorem shortcode_spec {rest : Bytes} (hdrop : (text.take stop).drop i = colon :: rest)
    (hend : nameEnd text stop (i + 1) ≠ stop)
    (hcolon : text[nameEnd text stop (i + 1)]? = some colon) (hlength : stop ≤ text.length) :
    ∃ name, (∀ b ∈ name, nameByte b = true) ∧ nameEnd text stop (i + 1) = i + 1 + name.length ∧
      (text.drop (i + 1)).take (nameEnd text stop (i + 1) - (i + 1)) = name ∧
      rest = name ++ colon :: (text.take stop).drop (nameEnd text stop (i + 1) + 1) := by
  obtain ⟨hlt, -, hrest⟩ := getElem?_of_drop hdrop
  obtain ⟨name, hname, hsplit, hclose, -⟩ := nameEnd_spec text stop (i + 1)
  have hbound := congrArg List.length hsplit
  rw [List.length_append, List.length_drop, List.length_take] at hbound
  have hinside : nameEnd text stop (i + 1) < stop := by omega
  have hafter : (text.take stop).drop (nameEnd text stop (i + 1)) =
      colon :: (text.take stop).drop (nameEnd text stop (i + 1) + 1) := by
    refine (List.drop_eq_getElem_cons (by rw [List.length_take]; omega)).trans ?_
    rw [List.getElem_take, (List.getElem?_eq_some_iff.mp hcolon).2]
  refine ⟨name, hname, hclose, ?_, ?_⟩
  · have hlen : nameEnd text stop (i + 1) - (i + 1) = name.length := by omega
    rw [hlen]
    exact taken_of_drop hsplit
  · rw [hrest, ← hafter, ← hsplit]

theorem except_bind {α β : Type} {x : Except EditError α} {f : α → Except EditError β} {b : β} :
    (x >>= f) = .ok b ↔ ∃ a, x = .ok a ∧ f a = .ok b := by
  cases x with
  | error e => exact ⟨nofun, fun ⟨_, h, _⟩ => nomatch h⟩
  | ok a => exact ⟨fun h => ⟨a, rfl, h⟩, fun ⟨_, h, hf⟩ => by cases h; exact hf⟩

theorem catalog_last (hcatalog : Catalog entries) {name replacement : Bytes}
    (hmem : ⟨name, replacement⟩ ∈ entries) :
    ∃ rest last, replacement = rest ++ [last] ∧ 0x80 ≤ last := by
  obtain ⟨last, hlast, hhigh⟩ := hcatalog _ hmem
  obtain ⟨rest, hrest⟩ := List.getLast?_eq_some_iff.mp hlast
  exact ⟨rest, last, hrest, hhigh⟩

theorem Scan.shortcode (hcatalog : Catalog entries) (h : Scan entries text start stop i s out)
    {next : Nat} {name replacement after : Bytes} (hmem : ⟨name, replacement⟩ ∈ entries)
    (hname : ∀ b ∈ name, nameByte b = true)
    (hbytes : (text.take stop).drop i = (colon :: name ++ [colon]) ++ after)
    (hsum : i + (colon :: name ++ [colon]).length = next) (hstop : next ≤ stop) :
    Scan entries text start stop next ⟨next, s.upTo text i ++ replacement, some next⟩
      (out ++ replacement) := by
  obtain ⟨hstart, hcopied, -⟩ := h.within
  have hnext : Expanded.upTo ⟨next, s.upTo text i ++ replacement, some next⟩ text next =
      s.upTo text i ++ replacement := by
    rw [Expanded.upTo, Nat.sub_self, List.take_zero, List.append_nil]
  refine ⟨⟨by dsimp only; omega, le_rfl, hstop⟩, ?_, ?_, Or.inr rfl, ?_⟩
  · rw [hnext, h.made, List.append_assoc]
  · obtain ⟨rest, last, rfl, hhigh⟩ := catalog_last hcatalog hmem
    rw [← List.append_assoc, openAfter, List.getLast?_concat]
    simp [(opens_last hhigh).1]
  · have hlength := (List.getElem?_eq_some_iff.mp (getElem?_of_drop hbytes).2.1).1
    have hone := Replaces.shortcode hmem hname .nil
    rw [List.append_nil] at hone
    rw [hnext, ← hsum, region_append _ hbytes (hstart.trans hcopied) hlength.le]
    exact h.replaces.append hone

theorem unopened {name : Bytes} (hname : ∀ b ∈ name, nameByte b = true) :
    openAfter (out ++ colon :: name) = false := by
  rcases List.eq_nil_or_concat name with rfl | ⟨rest, last, rfl⟩
  · rw [openAfter, List.getLast?_concat]
    rfl
  · rw [List.concat_eq_append, ← List.cons_append, ← List.append_assoc, openAfter,
      List.getLast?_concat]
    exact named_unopened (hname last (by simp))

theorem resumed_shortcode {name rest : Bytes} (hname : ∀ b ∈ name, nameByte b = true)
    (hopen : openAfter out = true) :
    resumed entries out (colon :: (name ++ colon :: rest)) = rest.foldl (typed entries)
      (match lookup entries name with
        | none => out ++ (colon :: name ++ [colon])
        | some replacement => out ++ replacement) := by
  have hpending : Pending (out ++ [colon] ++ name) out name :=
    ⟨by rw [List.append_assoc, List.singleton_append], hname⟩
  rw [resumed, List.foldl_append, typed_names hname, List.foldl_cons, typed, if_pos rfl,
    closed_pending hpending, if_pos hopen]
  cases lookup entries name <;> simp

/-- The loop of `expand` types the rest of the text before the caret. -/
theorem scan_typed (hcatalog : Catalog entries) (h : Scan entries text start stop i s out)
    (hnamed : ∀ j b, i < j → j < inserted → text[j]? = some b → nameByte b = true)
    (hidle : ((text.take stop).drop i).head? = some colon ∨ Idle out ((text.take stop).drop i))
    (hlength : stop ≤ text.length)
    (hrun : scan entries text inserted stop i s = .ok s') :
    Scan entries text start stop stop s' (resumed entries out ((text.take stop).drop i)) := by
  induction hn : stop - i using Nat.strongRecOn generalizing i s out with
  | _ n ih =>
    have hwithin := h.within
    by_cases hmore : i < stop
    · obtain ⟨b, rest, hdrop⟩ := List.exists_cons_of_ne_nil (l := (text.take stop).drop i)
        (by rw [ne_eq, List.drop_eq_nil_iff, List.length_take]; omega)
      obtain ⟨-, hb, hrest⟩ := getElem?_of_drop hdrop
      have keep (hnext : Idle (out ++ [b]) rest)
          (hrun : scan entries text inserted stop (i + 1) s = .ok s') :
          Scan entries text start stop stop s' (resumed entries out ((text.take stop).drop i)) := by
        have hdone := ih _ (by omega) (h.advance hdrop) (fun j c hj => hnamed j c (by omega))
          (Or.inr (hrest ▸ hnext)) hrun rfl
        rw [← hrest, resumed_idle hnext] at hdone
        rwa [hdrop, resumed]
      rw [scan, if_pos hmore] at hrun
      split_ifs at hrun with hopening
      · rw [Bool.and_eq_true, decide_eq_true_eq, hb, Option.some_inj] at hopening
        obtain ⟨rfl, hopening⟩ := hopening
        have hopen : openAfter out = true := h.opened.trans hopening
        dsimp only at hrun
        split_ifs at hrun with hclose
        · -- nothing closes what the colon opens
          refine keep (idle_colon fun _ hhead => ?_) hrun
          obtain ⟨name, -, -, -, hafter⟩ := nameEnd_spec text stop (i + 1)
          rw [hrest, ← hafter] at hhead
          obtain ⟨tail, htail⟩ := List.head?_eq_some_iff.mp hhead
          obtain ⟨hinside, hcolon, -⟩ := getElem?_of_drop htail
          simp only [Bool.or_eq_true, decide_eq_true_eq] at hclose
          rcases hclose with (hend | hother) | hbefore
          · omega
          · exact hother hcolon
          · have hle : i + 1 ≤ nameEnd text stop (i + 1) := Nat.le_add_right _ _
            have hname := hnamed _ colon hle hbefore hcolon
            exact absurd (colon_unnamed.symm.trans hname) (by decide)
        · simp only [Bool.or_eq_true, decide_eq_true_eq, not_or, not_not] at hclose
          obtain ⟨⟨hend, hcolon⟩, -⟩ := hclose
          obtain ⟨name, hname, hlast, hlooked, hsplit⟩ := shortcode_spec hdrop hend hcolon hlength
          obtain ⟨after, hafter⟩ : ∃ after,
              after = (text.take stop).drop (nameEnd text stop (i + 1) + 1) := ⟨_, rfl⟩
          have hwhole : resumed entries out (colon :: (name ++ colon :: after)) = _ :=
            resumed_shortcode hname hopen
          rw [← hafter] at hsplit
          rw [← hsplit, ← hdrop] at hwhole
          have hbytes : (text.take stop).drop i = (colon :: name ++ [colon]) ++ after := by
            rw [hdrop, hsplit]
            simp
          have hsum : i + (colon :: name ++ [colon]).length = nameEnd text stop (i + 1) + 1 := by
            rw [hlast, List.length_append, List.length_cons, List.length_singleton]
            omega
          have hskip := h.advances hbytes
          rw [hsum] at hskip
          have hlater (j : Nat) (c : UInt8) (hj : nameEnd text stop (i + 1) + 1 < j) :=
            hnamed j c (by omega)
          rw [hlooked] at hrun
          split at hrun
          next hnone =>
            rw [hnone] at hwhole
            have hidle : Idle (out ++ (colon :: name ++ [colon])) after := by
              rw [← List.append_assoc]
              exact idle_colon fun hopened =>
                absurd ((unopened hname).symm.trans hopened) Bool.false_ne_true
            have hdone := ih _ (by omega) hskip hlater (Or.inr (hafter ▸ hidle)) hrun rfl
            rw [← hafter, resumed_idle hidle] at hdone
            rwa [hwhole]
          next replacement hsome =>
            rw [hsome] at hwhole
            obtain ⟨copied, hcopied, hrun⟩ := except_bind.mp hrun
            obtain ⟨buffer, hbuffer, hrun⟩ := except_bind.mp hrun
            obtain rfl := append_ok hcopied
            obtain rfl := append_ok hbuffer
            have hmem := lookup_mem hsome
            have hnext := h.shortcode hcatalog hmem hname hbytes hsum hskip.within.2.2
            have hidle : Idle (out ++ replacement) after := by
              obtain ⟨rest, last, rfl, hhigh⟩ := catalog_last hcatalog hmem
              rw [← List.append_assoc]
              exact idle_other after (opens_last hhigh).2.1 (opens_last hhigh).2.2
            have hdone := ih _ (by omega) hnext hlater (Or.inr (hafter ▸ hidle)) hrun rfl
            rw [← hafter, resumed_idle hidle] at hdone
            rwa [hwhole]
      · rw [Bool.and_eq_true, decide_eq_true_eq, hb, Option.some_inj, not_and,
          Bool.not_eq_true] at hopening
        refine keep ?_ hrun
        by_cases hcolon : b = colon
        · subst hcolon
          exact idle_colon fun hopened =>
            absurd ((h.opened.trans (hopening rfl)).symm.trans hopened) Bool.false_ne_true
        · rw [hdrop, List.head?_cons, Option.some_inj] at hidle
          have hbefore := hidle.resolve_left hcolon
          cases hname : nameByte b with
          | true => exact idle_named hname hbefore
          | false => exact idle_other rest hname hcolon
    · rw [scan, if_neg hmore] at hrun
      cases hrun
      have hi : i = stop := le_antisymm hwithin.2.2 (not_lt.mp hmore)
      subst hi
      rw [List.drop_eq_nil_of_le (by rw [List.length_take]; omega)]
      exact h

theorem openAfter_take {start : Nat} (h : start ≤ text.length) :
    openAfter (text.take start) = opening text start := by
  cases start with
  | zero => rfl
  | succ k =>
    have hlast := (List.getElem?_eq_some_iff (l := text) (i := k)).mpr ⟨h, rfl⟩
    rw [List.take_add_one, hlast, Option.toList_some, openAfter, List.getLast?_concat, opening, hlast]
    rfl

theorem nameStart_spec (h : i ≤ text.length) : ∃ name, (∀ b ∈ name, nameByte b = true) ∧
    text.take i = text.take (nameStart text i) ++ name ∧
    (∀ b, (text.take (nameStart text i)).getLast? = some b → nameByte b = false) ∧
    nameStart text i + name.length = i := by
  obtain ⟨front, hfront⟩ : ∃ front, front = ((text.take i).reverse.dropWhile nameByte).reverse :=
    ⟨_, rfl⟩
  have hsplit : text.take i = front ++ ((text.take i).reverse.takeWhile nameByte).reverse := by
    rw [hfront, ← List.reverse_append, List.takeWhile_append_dropWhile, List.reverse_reverse]
  have hlength := congrArg List.length hsplit
  rw [List.length_take_of_le h, List.length_append, List.length_reverse] at hlength
  have hstart : nameStart text i = front.length := by
    unfold nameStart
    omega
  have htake : text.take (nameStart text i) = front := by
    have hprefix := congrArg (List.take front.length) hsplit
    rwa [List.take_left, List.take_take, Nat.min_eq_left (by omega), ← hstart] at hprefix
  refine ⟨((text.take i).reverse.takeWhile nameByte).reverse, fun b hb => ?_, ?_, fun b hb => ?_, ?_⟩
  · exact List.mem_takeWhile_imp (List.mem_reverse.mp hb)
  · rw [htake]
    exact hsplit
  · rw [htake, hfront, List.getLast?_reverse] at hb
    have hnot := List.head?_dropWhile_not nameByte (text.take i).reverse
    rw [hb] at hnot
    simpa using hnot
  · rw [hstart, List.length_reverse]
    omega

def expanded (entries : List Entry) (e : Editor) (inserted : Nat) : Bytes :=
  ((e.text.take e.caret).drop inserted).foldl (typed entries) (e.text.take inserted)

structure Entered (entries : List Entry) (e e' : Editor) (out : Bytes) : Prop where
  before : e'.text.take e'.caret = out
  after : e'.text.drop e'.caret = e.text.drop e.caret
  caret : e'.caret ≤ e'.text.length
  anchor : e.anchor = e.caret → e'.anchor = e'.caret
  replaces : Replaces entries (e.text.take e.caret) out

theorem entered_same (e : Editor) (h : e.caret ≤ e.text.length) :
    Entered entries e e (e.text.take e.caret) := ⟨rfl, rfl, h, id, .refl _ _⟩

variable (entries) in
/-- Scanning from the start of the shortcode that an insertion may complete. -/
theorem resumed_start {start : Nat} (hinserted : inserted ≤ stop) (hlength : stop ≤ text.length)
    (hstart : start = if 0 < nameStart text inserted &&
      text[nameStart text inserted - 1]? = some colon then nameStart text inserted - 1
      else nameStart text inserted) :
    start ≤ inserted ∧
      (∀ j b, start < j → j < inserted → text[j]? = some b → nameByte b = true) ∧
      (((text.take stop).drop start).head? = some colon ∨
        Idle (text.take start) ((text.take stop).drop start)) ∧
      resumed entries (text.take start) ((text.take stop).drop start) =
        ((text.take stop).drop inserted).foldl (typed entries) (text.take inserted) ∧
      ∃ front, text.take inserted = text.take start ++ front ∧
        ∀ b ∈ front, b = colon ∨ nameByte b = true := by
  obtain ⟨name, hname, hsplit, hlast, hsum⟩ := nameStart_spec (hinserted.trans hlength)
  generalize nameStart text inserted = named at hsplit hlast hsum hstart
  have hnamed : named ≤ text.length := by omega
  have hdrop : (text.take stop).drop named = name ++ (text.take stop).drop inserted := by
    have hregion : text.take stop = text.take named ++ (name ++ (text.take stop).drop inserted) := by
      have hmin : (text.take stop).take inserted = text.take inserted := by
        rw [List.take_take, Nat.min_eq_left hinserted]
      rw [← List.append_assoc, ← hsplit, ← hmin, List.take_append_drop]
    nth_rewrite 1 [hregion]
    rw [List.drop_left' (List.length_take_of_le hnamed)]
  have hbytes : ∀ j b, named ≤ j → j < inserted → text[j]? = some b → nameByte b = true := by
    intro j b hj hlt hb
    have hin : (text.take inserted)[j]? = some b := by rw [List.getElem?_take_of_lt hlt, hb]
    rw [hsplit, List.getElem?_append_right (by rw [List.length_take_of_le hnamed]; exact hj)] at hin
    exact hname b (List.mem_of_getElem? hin)
  have hfold : ((text.take stop).drop named).foldl (typed entries) (text.take named) =
      ((text.take stop).drop inserted).foldl (typed entries) (text.take inserted) := by
    rw [hdrop, List.foldl_append, typed_names hname, ← hsplit]
  split_ifs at hstart with hcolon
  · -- the insertion may complete the shortcode that this colon opens
    simp only [Bool.and_eq_true, decide_eq_true_eq] at hcolon
    obtain ⟨hpos, hcolon⟩ := hcolon
    obtain ⟨k, rfl⟩ := Nat.exists_eq_succ_of_ne_zero hpos.ne'
    obtain rfl : start = k := hstart
    have hfirst : (text.take stop).drop start = colon :: (text.take stop).drop (start + 1) := by
      have hindex : (text.take stop)[start]? = some colon := by
        rw [List.getElem?_take_of_lt (by omega)]
        exact hcolon
      obtain ⟨hlt, heq⟩ := List.getElem?_eq_some_iff.mp hindex
      rw [← heq]
      exact List.drop_eq_getElem_cons hlt
    have htake : text.take start ++ [colon] = text.take (start + 1) := by
      have hindex : text[start]? = some colon := hcolon
      rw [List.take_add_one, hindex]
      rfl
    refine ⟨by omega, fun j b hj => hbytes j b hj, Or.inl (by rw [hfirst]; rfl), ?_, colon :: name, ?_,
      fun b hb => (List.mem_cons.mp hb).imp_right (hname b)⟩
    · rw [hfirst, resumed, htake]
      exact hfold
    · rw [hsplit, ← htake, List.append_assoc, List.singleton_append]
  · subst hstart
    have hidle (rest : Bytes) : Idle (text.take start) rest := by
      intro before pending hpending _
      rcases List.eq_nil_or_concat pending with rfl | ⟨front, last, rfl⟩
      · have hend := congrArg List.getLast? hpending.split
        rw [List.getLast?_concat] at hend
        refine absurd ?_ hcolon
        cases start with
        | zero => cases hend
        | succ k =>
          have hindex : text[k]? = some text[k] := List.getElem?_eq_getElem (by omega)
          rw [List.take_add_one, hindex, Option.toList_some, List.getLast?_concat] at hend
          simp [hindex, hend]
      · have hend := congrArg List.getLast? hpending.split
        rw [List.concat_eq_append, ← List.cons_append, ← List.append_assoc,
          List.getLast?_concat] at hend
        have hyes := hpending.named last (by simp)
        exact absurd ((hlast last hend).symm.trans hyes) Bool.false_ne_true
    refine ⟨by omega, fun j b hj => hbytes j b hj.le, Or.inr (hidle _), ?_, name, hsplit,
      fun b hb => Or.inr (hname b hb)⟩
    rw [resumed_idle (hidle _)]
    exact hfold

end Scan

section Expand

variable {entries : List Entry} {e e' : Editor} {inserted : Nat}

theorem typed_plain {out bytes : Bytes} (h : colon ∉ bytes) :
    bytes.foldl (typed entries) out = out ++ bytes := by
  induction bytes generalizing out with
  | nil => simp
  | cons b rest ih =>
    rw [List.mem_cons, not_or] at h
    rw [List.foldl_cons, typed, if_neg (Ne.symm h.1), ih h.2]
    simp

theorem replaced_here (e : Editor) (range : Range) (value : Bytes) :
    (replaced e range value).here = ⟨e.text.take range.start ++ value ++ e.text.drop range.stop,
      range.start + value.length, range.start + value.length⟩ := edited_here _

theorem entered_replaced {start : Nat} {buffer out : Bytes} (hstart : start ≤ e.text.length)
    (hle : start ≤ e.caret) (hout : out = e.text.take start ++ buffer)
    (hreplaces : Replaces entries ((e.text.take e.caret).drop start) buffer) :
    Entered entries e (replaced (recorded e) ⟨start, e.caret⟩ buffer) out := by
  have hwhole : Replaces entries (e.text.take e.caret) out := by
    have hsplit : e.text.take e.caret = e.text.take start ++ (e.text.take e.caret).drop start := by
      have hmin : (e.text.take e.caret).take start = e.text.take start := by
        rw [List.take_take, Nat.min_eq_left hle]
      rw [← hmin, List.take_append_drop]
    rw [hsplit, hout]
    exact (Replaces.refl entries _).append hreplaces
  have hhere := replaced_here (recorded e) ⟨start, e.caret⟩ buffer
  have htext := congrArg Checkpoint.text hhere
  have hcaret := congrArg Checkpoint.caret hhere
  have hanchor := congrArg Checkpoint.anchor hhere
  change (replaced (recorded e) ⟨start, e.caret⟩ buffer).text = e.text.take start ++ buffer ++ _ at htext
  change (replaced (recorded e) ⟨start, e.caret⟩ buffer).caret = start + buffer.length at hcaret
  have hlength : out.length = start + buffer.length := by
    rw [hout, List.length_append, List.length_take_of_le hstart]
  rw [← hout] at htext
  rw [← hlength] at hcaret
  refine ⟨?_, ?_, ?_, fun _ => hanchor.trans (hlength.symm.trans hcaret.symm), hwhole⟩
  · rw [htext, hcaret, List.take_left]
  · rw [htext, hcaret, List.drop_left]
    rfl
  · rw [htext, hcaret, List.length_append]
    exact Nat.le_add_right _ _

end Expand

section Returns

variable {entries : List Entry} {e e' : Editor} {inserted : Nat} {text : Bytes} {err : EditError}

theorem append_error {buffer added : Bytes} (h : append buffer added = .error err) :
    err = .textTooLarge := by
  unfold append at h
  split_ifs at h
  exact (Except.error.inj h).symm

theorem scan_error {stop i : Nat} {s : Expanded}
    (h : scan entries text inserted stop i s = .error err) : err = .textTooLarge := by
  fun_induction scan entries text inserted stop i s with
  | case1 i s hmore hopening close hclose ih => exact ih h
  | case2 i s hmore hopening close hclose hnone ih => exact ih h
  | case3 i s hmore hopening close hclose replacement hsome ih =>
    cases hcopied : append s.buffer ((text.drop s.copied).take (i - s.copied)) with
    | error err' =>
      rw [hcopied] at h
      cases h
      exact append_error hcopied
    | ok copied =>
      rw [hcopied] at h
      cases hbuffer : append copied replacement with
      | error err' =>
        change (append copied replacement >>= _) = _ at h
        rw [hbuffer] at h
        cases h
        exact append_error hbuffer
      | ok buffer =>
        change (append copied replacement >>= _) = _ at h
        rw [hbuffer] at h
        exact ih buffer h
  | case4 i s hmore hopening ih => exact ih h
  | case5 i s hmore => exact nomatch h

abbrev Accepts (e : Editor) (m : Edits Unit) : Prop :=
  Checked.Meets (fun s => s.editor = e) (fun err _ => err ≠ .invalidText) m fun _ _ => True

theorem alloc_accepts {α : Type} {Q : α → Session → Prop} {k : Edits α}
    (h : Checked.Meets (fun s => s.editor = e) (fun err _ => err ≠ .invalidText) k Q) :
    Checked.Meets (fun s => s.editor = e) (fun err _ => err ≠ .invalidText) (alloc >>= fun _ => k) Q := by
  refine Checked.Meets.bind (Q := fun _ s => s.editor = e) (fun s hs => ?_) fun _ => h
  obtain ⟨editor, allocations⟩ := s
  match allocations with
  | [] => exact hs
  | true :: rest => exact hs
  | false :: rest => exact nofun

structure Insertable (value : Bytes) : Prop where
  valid : utf8ValidateSlice value = true
  clean : 0 ∉ value

theorem replace_accepts {range : Range} {value : Bytes} (hrange : range.start ≤ range.stop)
    (hstop : range.stop ≤ e.text.length) (hvalue : Insertable value) :
    Accepts e (replace range value) := by
  refine Checked.Keeps.andThen (Checked.Keeps.get (Q := fun now => now = e) fun _ hs => hs) fun now hnow => ?_
  subst hnow
  refine Checked.Meets.bind (Q := fun _ s => s.editor = now)
    (Checked.Meets.assert (by simp [hrange, hstop]) fun _ h => h) fun _ => ?_
  have hok : (utf8ValidateSlice value && !value.contains 0) = true := by
    rw [hvalue.valid, Bool.true_and]
    simpa using hvalue.clean
  refine Checked.Meets.bind (Checked.Meets.passed hok) fun _ => ?_
  refine Checked.Keeps.andThen (Checked.Keeps.sub (by omega)) fun kept _ => ?_
  refine Checked.Keeps.andThen (Checked.Meets.require fun _ _ => nofun) fun _ _ => ?_
  refine alloc_accepts (Checked.Meets.bind (Q := fun _ _ => True) ?_ fun _ => ?_)
  · exact alloc_accepts (alloc_accepts (Checked.Meets.modify fun _ _ => trivial))
  · exact Checked.Meets.modify fun _ _ => trivial

/-- What an expansion relies on to be accepted. -/
structure Clean (entries : List Entry) (e : Editor) (inserted : Nat) : Prop where
  texts : ∀ entry ∈ entries, Insertable entry.text
  caret : Boundary e.text e.caret
  start : Boundary e.text inserted
  added : 0 ∉ (e.text.take e.caret).drop inserted

/-- The start of a shortcode is a boundary: only ASCII bytes lie between it and the insertion. -/
theorem boundary_start {start : Nat} {front : Bytes} (hle : start ≤ e.text.length)
    (hstart : Boundary e.text inserted)
    (hfront : e.text.take inserted = e.text.take start ++ front)
    (hnamed : ∀ b ∈ front, b = colon ∨ nameByte b = true) : Boundary e.text start := by
  have hvalid := hstart.2
  rw [hfront] at hvalid
  refine ⟨hle, utf8_front hvalid fun b hb => ?_⟩
  rcases hnamed b hb with rfl | hname
  · decide
  · exact named_ascii hname

theorem upTo_insertable {start : Nat} {s : Expanded} {out front : Bytes}
    (hclean : Clean entries e inserted) (hle : inserted ≤ e.caret)
    (h : Scan entries e.text start e.caret e.caret s out)
    (hfront : e.text.take inserted = e.text.take start ++ front)
    (hnamed : ∀ b ∈ front, b = colon ∨ nameByte b = true) :
    Insertable (s.upTo e.text e.caret) := by
  have hstart : start ≤ e.caret := h.within.1.trans h.within.2.1
  have hbound := hclean.caret.1
  have hcut := boundary_start (hstart.trans hbound) hclean.start hfront hnamed
  have hzero : 0 ∉ front := fun hmem => by
    rcases hnamed 0 hmem with hcolon | hname
    · exact absurd hcolon (by decide)
    · exact absurd hname (by decide)
  have hregion : (e.text.take e.caret).drop start = front ++ (e.text.take e.caret).drop inserted := by
    have hsplit : e.text.take e.caret =
        e.text.take start ++ (front ++ (e.text.take e.caret).drop inserted) := by
      have hmin : (e.text.take e.caret).take inserted = e.text.take inserted := by
        rw [List.take_take, Nat.min_eq_left hle]
      rw [← List.append_assoc, ← hfront, ← hmin, List.take_append_drop]
    nth_rewrite 1 [hsplit]
    rw [List.drop_left' (List.length_take_of_le (hstart.trans hbound))]
  refine ⟨h.replaces.valid (fun entry hmem => (hclean.texts entry hmem).valid) ?_,
    h.replaces.clean (fun entry hmem => (hclean.texts entry hmem).clean) ?_⟩
  · rw [List.drop_take]
    exact hcut.between hclean.caret hstart
  · rw [hregion, List.mem_append, not_or]
    exact ⟨hzero, hclean.added⟩

theorem expand_meets (hcatalog : Catalog entries) (hinserted : inserted ≤ e.caret)
    (hcaret : e.caret ≤ e.text.length) : Checked.Meets (fun s => s.editor = e)
      (fun err s => s.editor = e ∧ (Clean entries e inserted → err ≠ .invalidText))
      (expand entries inserted) fun _ s => Entered entries e s.editor (expanded entries e inserted) ∧
        (Valid e → Boundary e.text inserted → Valid s.editor) := by
  refine Checked.Keeps.andThen (Checked.Keeps.get (Q := fun now => now = e) fun _ hs => hs) fun now hnow => ?_
  subst hnow
  refine Checked.Keeps.andThen (.sub hinserted) fun length hlength => ?_
  refine Checked.Keeps.andThen (.slice (by omega)) fun added hadded => ?_
  have hregion : (now.text.take now.caret).drop inserted = added := by
    rw [List.drop_take, hadded.1, hlength]
  have hsame : now.text.take inserted ++ added = now.text.take now.caret := by
    have hmin : (now.text.take now.caret).take inserted = now.text.take inserted := by
      rw [List.take_take, Nat.min_eq_left hinserted]
    rw [← hregion, ← hmin, List.take_append_drop]
  split_ifs with hcolon
  · have hplain : expanded entries now inserted = now.text.take now.caret := by
      rw [expanded, hregion, typed_plain (by simpa using hcolon), hsame]
    refine Checked.Meets.pure fun s hs => ?_
    rw [hs, hplain]
    exact ⟨entered_same now hcaret, fun hv _ => hv⟩
  · dsimp only
    obtain ⟨start, hstart⟩ : ∃ start, start = if 0 < nameStart now.text inserted &&
        now.text[nameStart now.text inserted - 1]? = some colon then nameStart now.text inserted - 1
      else nameStart now.text inserted := ⟨_, rfl⟩
    rw [← hstart]
    obtain ⟨hle, hnamed, hidle, hresumed, front, hfront, hnames⟩ :=
      resumed_start entries hinserted hcaret hstart
    have hfirst : Scan entries now.text start now.caret start ⟨start, [], none⟩ (now.text.take start) := by
      refine ⟨⟨le_rfl, le_rfl, hle.trans hinserted⟩, by simp [Expanded.upTo], ?_, Or.inl rfl, ?_⟩
      · rw [openAfter_take (by omega)]
        simp
      · rw [List.drop_eq_nil_of_le (by rw [List.length_take]; omega), Expanded.upTo, Nat.sub_self]
        exact .nil
    refine Checked.Keeps.andThen (Checked.Meets.ofExcept fun err herr s hs => ⟨hs, fun _ => ?_⟩) fun s hs => ?_
    · rw [scan_error herr]
      exact nofun
    have hdone := scan_typed hcatalog hfirst hnamed hidle hcaret hs
    rw [hresumed] at hdone
    change Scan entries now.text start now.caret now.caret s (expanded entries now inserted) at hdone
    split_ifs with hnone
    · have hkept : expanded entries now inserted = now.text.take now.caret := by
        rcases hdone.state with rfl | hconverted
        · rw [hdone.made, ← List.take_append_drop start (now.text.take now.caret), List.take_take,
            Nat.min_eq_left (hle.trans hinserted), List.drop_take]
          rfl
        · exact nomatch hnone.symm.trans hconverted
      refine Checked.Meets.pure fun s hs => ?_
      rw [hs, hkept]
      exact ⟨entered_same now hcaret, fun hv _ => hv⟩
    · refine Checked.Keeps.andThen (Checked.Meets.ofExcept fun err herr s hs => ⟨hs, fun _ => ?_⟩)
        fun buffer hbuffer => ?_
      · rw [append_error herr]
        exact nofun
      obtain rfl := append_ok hbuffer
      have hedit : Spec now (replace ⟨start, now.caret⟩ (s.upTo now.text now.caret)) fun _ e' =>
          Entered entries now e' (expanded entries now inserted) ∧
            (Valid now → Boundary now.text inserted → Valid e') := by
        refine (replace_spec (hle.trans hinserted) hcaret).weaken fun _ s' hs' => ?_
        rw [hs'.2]
        refine ⟨entered_replaced (by omega) (by omega) hdone.made hdone.replaces, fun hv hstart => ?_⟩
        have hcut := boundary_start (by omega) hstart hfront hnames
        exact replace_valid hv (hle.trans hinserted) hcut hv.here.caret hs'.1
      by_cases hclean : Clean entries now inserted
      · have hgood := upTo_insertable hclean hinserted hdone hfront hnames
        exact ((hedit.and (replace_accepts (hle.trans hinserted) hcaret hgood)).weaken
          fun _ _ h => h.1).fails fun _ _ h => ⟨h.1, fun _ => h.2⟩
      · exact hedit.fails fun _ _ h => ⟨h, fun h' => absurd h' hclean⟩

/-- The bytes that were typed at the selection, and nothing else. -/
structure Typed (entries : List Entry) (e : Editor) (value : Bytes) (e' : Editor) : Prop where
  before : e'.text.take e'.caret = value.foldl (typed entries) (e.text.take e.low)
  after : e'.text.drop e'.caret = e.text.drop e.high
  anchor : e'.anchor = e'.caret

theorem Typed.append {e₁ : Editor} {value rest : Bytes} (h : Typed entries e value e₁)
    (hrest : Typed entries e₁ rest e') : Typed entries e (value ++ rest) e' := by
  have hlow : e₁.low = e₁.caret := by rw [low, h.anchor, min_self]
  have hhigh : e₁.high = e₁.caret := by rw [high, h.anchor, max_self]
  refine ⟨?_, ?_, hrest.anchor⟩
  · rw [hrest.before, hlow, h.before, List.foldl_append]
  · rw [hrest.after, hhigh, h.after]

structure Inserted (e : Editor) (value : Bytes) (e' : Editor) : Prop where
  valid : Valid e'
  caret : e'.caret = e.low + value.length
  anchor : e'.anchor = e'.caret
  start : e'.text.take e.low = e.text.take e.low
  added : (e'.text.take e'.caret).drop e.low = value
  after : e'.text.drop e'.caret = e.text.drop e.high

theorem inserted_replaced (hv : Valid e) {value : Bytes} (hfits : Fits e e.selection value) :
    Inserted e value (replaced (recorded e) e.selection value) := by
  have hhere := replaced_here (recorded e) e.selection value
  have htext : (replaced (recorded e) e.selection value).text =
      e.text.take e.low ++ value ++ e.text.drop e.high := congrArg Checkpoint.text hhere
  have hcaret : (replaced (recorded e) e.selection value).caret = e.low + value.length :=
    congrArg Checkpoint.caret hhere
  have hlow : (e.text.take e.low).length = e.low := List.length_take_of_le hv.boundary_low.1
  have hsum : e.low + value.length = (e.text.take e.low ++ value).length := by
    rw [List.length_append, hlow]
  refine ⟨insert_valid hv hfits, hcaret, (congrArg Checkpoint.anchor hhere).trans hcaret.symm, ?_, ?_, ?_⟩
  · rw [htext, List.append_assoc, List.take_left' hlow]
  · rw [htext, hcaret, hsum, List.take_left, List.drop_left' hlow]
  · rw [htext, hcaret, hsum, List.drop_left]

theorem insert_accepts (hv : Valid e) {value : Bytes} (hvalue : Insertable value) :
    Accepts e (insert value) := by
  refine Checked.Keeps.andThen (Checked.Keeps.get (Q := fun now => now = e) fun _ hs => hs) fun now hnow => ?_
  subst hnow
  exact replace_accepts (low_le_high now) hv.high_le hvalue

/-- What is entered is typed, and nothing is refused as invalid. -/
theorem enter_meets (hcatalog : Catalog entries) (hv : Valid e) (value : Bytes) :
    Checked.Meets (fun s => s.editor = e)
      (fun err _ => (∀ entry ∈ entries, Insertable entry.text) → Insertable value →
        err ≠ .invalidText)
      (enter entries value) fun _ s => Valid s.editor ∧ Typed entries e value s.editor := by
  refine Checked.Keeps.andThen (Checked.Keeps.get (Q := fun now => now = e) fun _ hs => hs) fun now hnow => ?_
  subst hnow
  have hinsert : Checked.Meets (fun s => s.editor = now)
      (fun err _ => (∀ entry ∈ entries, Insertable entry.text) → Insertable value →
        err ≠ .invalidText) (insert value) fun _ s => Inserted now value s.editor := by
    have hedit : Spec now (insert value) fun _ e' => Inserted now value e' :=
      (insert_spec hv.high_le).weaken fun _ s hs => by
        rw [hs.2]
        exact inserted_replaced hv hs.1
    by_cases hvalue : Insertable value
    · exact ((hedit.and (insert_accepts hv hvalue)).weaken fun _ _ h => h.1).fails
        fun _ _ h _ _ => h.2
    · exact hedit.fails fun _ _ _ _ h => absurd h hvalue
  refine hinsert.bind fun _ s hs => ?_
  have hle : now.low ≤ s.editor.caret := hs.caret ▸ Nat.le_add_right _ _
  have hstart : Boundary s.editor.text now.low := by
    have hbound := hs.valid.here.caret.1
    refine ⟨hle.trans hbound, ?_⟩
    rw [hs.start]
    exact hv.boundary_low.2
  refine ((expand_meets hcatalog hle hs.valid.here.caret.1).weaken fun _ s' hs' => ?_).fails
    (fun err _ h htexts hvalue => h.2 ⟨htexts, hs.valid.here.caret, hstart, ?_⟩) s rfl
  · obtain ⟨hentered, hvalid⟩ := hs'
    refine ⟨hvalid hs.valid hstart, ?_, hentered.after.trans hs.after, hentered.anchor hs.anchor⟩
    rw [hentered.before, expanded, hs.added, hs.start]
  · rw [hs.added]
    exact hvalue.clean

theorem enterAll_meets (hcatalog : Catalog entries) (hv : Valid e) (values : List Bytes) :
    Checked.Meets (fun s => s.editor = e)
      (fun err _ => (∀ entry ∈ entries, Insertable entry.text) →
        (∀ value ∈ values, Insertable value) → err ≠ .invalidText)
      (enterAll entries values) fun _ s => Valid s.editor ∧
        (values = [] ∧ s.editor = e ∨ Typed entries e values.flatten s.editor) := by
  induction values generalizing e with
  | nil =>
    intro s hs
    exact ⟨hs ▸ hv, Or.inl ⟨rfl, hs⟩⟩
  | cons value rest ih =>
    have hfirst := (enter_meets hcatalog hv value).fails
      (F := fun err _ => (∀ entry ∈ entries, Insertable entry.text) →
        (∀ other ∈ value :: rest, Insertable other) → err ≠ .invalidText)
      fun _ _ h htexts hvalues => h htexts (hvalues value List.mem_cons_self)
    refine hfirst.bind fun _ s hs => ?_
    refine ((ih hs.1).weaken fun _ s' hs' => ⟨hs'.1, Or.inr ?_⟩).fails
      (fun _ _ h htexts hvalues => h htexts fun other hmem =>
        hvalues other (List.mem_cons_of_mem value hmem)) s rfl
    rcases hs'.2 with ⟨rfl, hsame⟩ | hrest
    · rw [hsame, List.flatten_cons, List.flatten_nil, List.append_nil]
      exact hs.2
    · rw [List.flatten_cons]
      exact hs.2.append hrest

theorem Typed.same {value : Bytes} {e'' : Editor} (h : Typed entries e value e')
    (h' : Typed entries e value e'') (hcaret : e'.caret ≤ e'.text.length)
    (hcaret' : e''.caret ≤ e''.text.length) : e'.text = e''.text ∧ e'.caret = e''.caret := by
  have hbefore := h.before.trans h'.before.symm
  have hafter := h.after.trans h'.after.symm
  refine ⟨?_, ?_⟩
  · rw [← List.take_append_drop e'.caret e'.text, hbefore, hafter, List.take_append_drop]
  · have hlength := congrArg List.length hbefore
    rwa [List.length_take_of_le hcaret, List.length_take_of_le hcaret'] at hlength

/-- However a text is cut into pieces, entering them gives what entering it whole gives,
which is what typing its bytes gives; nothing is refused but for its size or for memory; and
an expansion replaces the shortcodes of the catalog that are completed before the caret, or
changes nothing if it fails. -/
theorem entered_alike (hcatalog : Catalog entries) (hv : Valid e) :
    (∀ first rest allocations allocations',
      (enterAll entries (first :: rest) ⟨e, allocations⟩).1 = .ok () →
      (enter entries (first :: rest).flatten ⟨e, allocations'⟩).1 = .ok () →
        Typed entries e (first :: rest).flatten
            (enterAll entries (first :: rest) ⟨e, allocations⟩).2.editor ∧
          Typed entries e (first :: rest).flatten
            (enter entries (first :: rest).flatten ⟨e, allocations'⟩).2.editor ∧
          (enterAll entries (first :: rest) ⟨e, allocations⟩).2.editor.text =
            (enter entries (first :: rest).flatten ⟨e, allocations'⟩).2.editor.text ∧
          (enterAll entries (first :: rest) ⟨e, allocations⟩).2.editor.caret =
            (enter entries (first :: rest).flatten ⟨e, allocations'⟩).2.editor.caret) ∧
    (∀ values allocations, (∀ entry ∈ entries, Insertable entry.text) →
      (∀ value ∈ values, Insertable value) →
        (enterAll entries values ⟨e, allocations⟩).1 ≠ .error .trap ∧
        (enterAll entries values ⟨e, allocations⟩).1 ≠ .error (.error .invalidText)) ∧
    ∀ inserted allocations, inserted ≤ e.caret →
      (expand entries inserted ⟨e, allocations⟩).1 ≠ .error .trap ∧
      (∀ err, (expand entries inserted ⟨e, allocations⟩).1 = .error (.error err) →
        (expand entries inserted ⟨e, allocations⟩).2.editor = e) ∧
      ((expand entries inserted ⟨e, allocations⟩).1 = .ok () →
        Entered entries e (expand entries inserted ⟨e, allocations⟩).2.editor
          (expanded entries e inserted)) := by
  refine ⟨fun first rest allocations allocations' hpieces hwhole => ?_,
    fun values allocations htexts hvalues => ?_, fun inserted allocations hinserted => ?_⟩
  · obtain ⟨hvalid, htyped⟩ := (enterAll_meets hcatalog hv (first :: rest)).returned
      (s := ⟨e, allocations⟩) rfl (Prod.ext hpieces rfl)
    obtain ⟨hvalid', htyped'⟩ := (enter_meets hcatalog hv (first :: rest).flatten).returned
      (s := ⟨e, allocations'⟩) rfl (Prod.ext hwhole rfl)
    have htyped := htyped.resolve_left fun h => List.cons_ne_nil first rest h.1
    exact ⟨htyped, htyped', htyped.same htyped' hvalid.here.caret.1 hvalid'.here.caret.1⟩
  · have hrun := enterAll_meets hcatalog hv values ⟨e, allocations⟩ rfl
    rcases hdone : enterAll entries values ⟨e, allocations⟩ with ⟨(err | _) | a, s⟩
    · rw [hdone] at hrun
      refine ⟨nofun, fun herr => hrun htexts hvalues ?_⟩
      cases herr
      rfl
    · rw [hdone] at hrun
      exact hrun.elim
    · exact ⟨nofun, nofun⟩
  · have hrun := expand_meets hcatalog hinserted hv.here.caret.1 ⟨e, allocations⟩ rfl
    rcases hdone : expand entries inserted ⟨e, allocations⟩ with ⟨(err | _) | a, s⟩
    · rw [hdone] at hrun
      exact ⟨nofun, fun _ _ => hrun.1, nofun⟩
    · rw [hdone] at hrun
      exact hrun.elim
    · rw [hdone] at hrun
      exact ⟨nofun, nofun, fun _ => hrun.1⟩

end Returns

def smile : List Entry := [⟨[0x73], [0xF0, 0x9F, 0x98, 0x84]⟩]

/-- A shortcode typed in two pieces into an empty editor. -/
theorem entered_alike_smile :
    (enterAll smile [[0x3A, 0x73], [0x3A]] ⟨Editor.empty, []⟩).2.editor.text =
      (enter smile [0x3A, 0x73, 0x3A] ⟨Editor.empty, []⟩).2.editor.text ∧
    (enter smile [0x3A, 0x73, 0x3A] ⟨Editor.empty, []⟩).2.editor.text =
      [0xF0, 0x9F, 0x98, 0x84] := by
  have hcatalog : Catalog smile := by
    intro entry hmem
    obtain rfl := List.mem_singleton.mp hmem
    exact ⟨0x84, rfl, by decide⟩
  exact ⟨((entered_alike hcatalog Valid.empty).1 [0x3A, 0x73] [[0x3A]] [] [] (by decide +kernel)
    (by decide +kernel)).2.2.1, by decide +kernel⟩

end Zimbr.Emoji
