import Zimbr.Protocol.JsonInput
import Mathlib.Data.List.Basic
import Mathlib.Tactic.SplitIfs

set_option autoImplicit false

/-!
# The language of the bounds

A text within the bounds is a sequence of strings and of bytes outside them. Its
brackets are nested and its tokens are counted; nothing else is checked. The
vector path of the scanner takes ordinary string bytes in blocks and decides the
same.
-/
namespace Zimbr.JsonInput

namespace Scanner

def lanes : Nat := 16

def special (byte : UInt8) : Bool := byte = 34 || byte = 92

def skip (rest : Bytes) : Bytes :=
  if lanes ≤ rest.length then
    match (rest.take lanes).findIdx? special with
    | some ordinary => rest.drop ordinary
    | none => skip (rest.drop lanes)
  else rest
termination_by rest.length
decreasing_by
  rw [List.length_drop]
  unfold lanes at *
  omega

theorem skip_suffix (rest : Bytes) :
    ∃ ordinary, rest = ordinary ++ skip rest ∧ ∀ b ∈ ordinary, special b = false := by
  induction rest using skip.induct with
  | case1 rest hfull ordinary hfound =>
    rw [skip, if_pos hfull, hfound]
    obtain ⟨hlt, -, hbefore⟩ := List.findIdx?_eq_some_iff_getElem.mp hfound
    refine ⟨rest.take ordinary, (List.take_append_drop _ _).symm, fun b hb => ?_⟩
    obtain ⟨i, hi, rfl⟩ := List.mem_iff_getElem.mp hb
    rw [List.length_take] at hi
    have hspecial := hbefore i (by omega)
    simpa using hspecial
  | case2 rest hfull hnone ih =>
    rw [skip, if_pos hfull, hnone]
    obtain ⟨ordinary, hrest, hordinary⟩ := ih
    refine ⟨rest.take lanes ++ ordinary, ?_, fun b hb => ?_⟩
    · rw [List.append_assoc, ← hrest, List.take_append_drop]
    · rcases List.mem_append.mp hb with hb | hb
      · exact List.findIdx?_eq_none_iff.mp hnone b hb
      · exact hordinary b hb
  | case3 rest hshort =>
    rw [skip, if_neg hshort]
    exact ⟨[], rfl, fun b hb => absurd hb List.not_mem_nil⟩

def ahead (s : Scanner) (rest : Bytes) : Bytes :=
  if s.quoted && !s.escaped then skip rest else rest

theorem ahead_le (s : Scanner) (rest : Bytes) : (s.ahead rest).length ≤ rest.length := by
  unfold ahead
  split_ifs
  · obtain ⟨ordinary, hrest, -⟩ := skip_suffix rest
    have hlength := congrArg List.length hrest
    rw [List.length_append] at hlength
    omega
  · exact Nat.le_refl _

/-- The scanner that takes ordinary string bytes in blocks. -/
def vectorScan (maxTokens : Nat) (s : Scanner) (rest : Bytes) : Except CheckError Unit :=
  match _hahead : s.ahead rest with
  | [] => if s.quoted || s.stack ≠ [] then .error .invalidJson else .ok ()
  | byte :: after =>
    if s.quoted then vectorScan maxTokens (s.inString byte) after
    else match s.outside byte with
    | .error e => .error e
    | .ok next =>
      if maxTokens < next.tokens then .error .jsonTooComplex else vectorScan maxTokens next after
termination_by rest.length
decreasing_by
  all_goals
    have hle := ahead_le s rest
    rw [‹s.ahead rest = byte :: after›, List.length_cons] at hle
    omega

theorem inString_ordinary {s : Scanner} {byte : UInt8} (hescaped : s.escaped = false)
    (h : special byte = false) : s.inString byte = s := by
  simp only [special, Bool.or_eq_false_iff, decide_eq_false_iff_not] at h
  simp [inString, hescaped, h.1, h.2]

theorem scan_ordinary {maxTokens : Nat} {s : Scanner} (hquoted : s.quoted = true)
    (hescaped : s.escaped = false) (ordinary rest : Bytes)
    (h : ∀ b ∈ ordinary, special b = false) :
    scan maxTokens s (ordinary ++ rest) = scan maxTokens s rest := by
  induction ordinary with
  | nil => rfl
  | cons b ordinary ih =>
    rw [List.cons_append, scan, if_pos hquoted,
      inString_ordinary hescaped (h b List.mem_cons_self)]
    exact ih fun b hb => h b (List.mem_cons_of_mem _ hb)

theorem scan_ahead (maxTokens : Nat) (s : Scanner) (rest : Bytes) :
    scan maxTokens s rest = scan maxTokens s (s.ahead rest) := by
  unfold ahead
  split_ifs with hstring
  · simp only [Bool.and_eq_true, Bool.not_eq_true'] at hstring
    obtain ⟨ordinary, hrest, hordinary⟩ := skip_suffix rest
    have hscan : scan maxTokens s (ordinary ++ skip rest) = scan maxTokens s (skip rest) :=
      scan_ordinary hstring.1 hstring.2 ordinary (skip rest) hordinary
    rw [← hrest] at hscan
    exact hscan
  · rfl

/-- From every state and at every position the two paths decide the same. -/
theorem vectorScan_eq (maxTokens : Nat) (s : Scanner) (rest : Bytes) :
    vectorScan maxTokens s rest = scan maxTokens s rest := by
  induction hlength : rest.length using Nat.strong_induction_on generalizing s rest with
  | _ n ih =>
    have hle := ahead_le s rest
    rw [scan_ahead, vectorScan]
    split
    · next hahead =>
      rw [hahead, scan]
    · next byte after hahead =>
      rw [hahead, List.length_cons] at hle
      rw [hahead, scan]
      split_ifs
      · exact ih after.length (by omega) _ after rfl
      · cases s.outside byte with
        | error e => rfl
        | ok next =>
          dsimp only
          split_ifs
          · rfl
          · exact ih after.length (by omega) next after rfl

end Scanner

def checkImpl (vectorize : Bool) (bytes : Bytes) (maxBytes maxTokens : Nat) :
    Except CheckError Unit :=
  if maxBytes < bytes.length then .error .jsonTooLarge
  else if !utf8ValidateSlice bytes then .error .invalidJson
  else if vectorize then Scanner.vectorScan maxTokens {} bytes
  else Scanner.scan maxTokens {} bytes

theorem checkImpl_eq (vectorize : Bool) (bytes : Bytes) (maxBytes maxTokens : Nat) :
    checkImpl vectorize bytes maxBytes maxTokens = check bytes maxBytes maxTokens := by
  unfold checkImpl check
  rw [Scanner.vectorScan_eq, ite_self]

/-- A byte of a string's body, or an escaped one. -/
inductive Character where
  | plain (byte : UInt8) (ordinary : Scanner.special byte = false)
  | escape (byte : UInt8)

/-- A byte outside the strings, or a whole string. -/
inductive Piece where
  | bare (byte : UInt8) (outside : byte ≠ 34)
  | string (body : List Character)

def Character.spell : Character → Bytes
  | plain byte _ => [byte]
  | escape byte => [92, byte]

def Piece.spell : Piece → Bytes
  | bare byte _ => [byte]
  | string body => 34 :: (body.flatMap Character.spell ++ [34])

def spell (pieces : List Piece) : Bytes := pieces.flatMap Piece.spell

def opening (byte : UInt8) : Bool := byte = 123 || byte = 91
def closing (byte : UInt8) : Bool := byte = 125 || byte = 93

def separator (byte : UInt8) : Bool :=
  byte = 44 || byte = 58 || byte = 32 || byte = 9 || byte = 13 || byte = 10

def closer (byte : UInt8) : UInt8 := if byte = 123 then 125 else 93

namespace Piece

def bracket? : Piece → Option UInt8
  | bare byte _ => if opening byte || closing byte then some byte else none
  | string _ => none

def opens : Piece → Bool
  | bare byte _ => opening byte
  | string _ => true

/-- Neither a string nor a bracket nor a separator. -/
def primitive : Piece → Bool
  | bare byte _ => !opening byte && !closing byte && !separator byte
  | string _ => false

end Piece

/-- Brackets of matching kinds, nested at most so deep. -/
inductive Nested : Nat → Bytes → Prop where
  | empty (depth : Nat) : Nested depth []
  | group {depth : Nat} {inside after : Bytes} (byte : UInt8) (opens : opening byte = true)
    (inner : Nested depth inside) (others : Nested (depth + 1) after) :
    Nested (depth + 1) (byte :: (inside ++ closer byte :: after))

/-- How many maximal runs of primitive pieces start, where `run` says whether one
goes on. -/
def runs (run : Bool) : List Piece → Nat
  | [] => 0
  | piece :: rest => (if piece.primitive && !run then 1 else 0) + runs piece.primitive rest

def tokens (pieces : List Piece) : Nat := pieces.countP Piece.opens + runs false pieces

section Brackets

/-- The brackets close the stack of closing brackets to come, as the scanner
checks it. -/
def Closes : Bytes → Bytes → Prop
  | stack, [] => stack = []
  | stack, byte :: rest =>
    if opening byte then stack.length ≠ maxDepth ∧ Closes (closer byte :: stack) rest
    else stack.head? = some byte ∧ Closes stack.tail rest

theorem closer_closes (byte : UInt8) : opening (closer byte) = false := by
  unfold closer
  split_ifs <;> rfl

theorem Nested.closes {depth : Nat} {brackets : Bytes} (h : Nested depth brackets) :
    ∀ stack rest : Bytes, stack.length + depth ≤ maxDepth → Closes stack rest →
      Closes stack (brackets ++ rest) := by
  induction h with
  | empty depth => exact fun _ _ _ hrest => hrest
  | @group depth inside after byte opens _ _ ihinner ihothers =>
    intro stack rest hroom hrest
    have hothers := ihothers stack rest hroom hrest
    have hclosed : Closes (closer byte :: stack) (closer byte :: (after ++ rest)) := by
      rw [Closes, if_neg (by simp [closer_closes])]
      exact ⟨rfl, hothers⟩
    have hinner := ihinner (closer byte :: stack) _ (by rw [List.length_cons]; omega) hclosed
    rw [List.cons_append, List.append_assoc, Closes, if_pos opens]
    exact ⟨by omega, hinner⟩

theorem Closes.nested (brackets : Bytes) : ∀ stack : Bytes, stack.length ≤ maxDepth →
    Closes stack brackets →
    (stack = [] ∧ Nested maxDepth brackets) ∨
      ∃ next below inside after, stack = next :: below ∧ brackets = inside ++ next :: after ∧
        Nested (maxDepth - stack.length) inside ∧ Closes below after := by
  induction hlength : brackets.length using Nat.strong_induction_on generalizing brackets with
  | _ n ih =>
    intro stack hroom h
    cases brackets with
    | nil => exact Or.inl ⟨h, .empty maxDepth⟩
    | cons byte rest =>
      rw [List.length_cons] at hlength
      rw [Closes] at h
      split_ifs at h with hopens
      · obtain ⟨hdepth, h⟩ := h
        have hlt : stack.length + 1 ≤ maxDepth := by omega
        rcases ih rest.length (by omega) rest rfl (closer byte :: stack) hlt h with
          ⟨hnil, -⟩ | ⟨next, below, inside, after, hstack, rfl, hinside, hafter⟩
        · exact nomatch hnil
        · obtain ⟨rfl, rfl⟩ := List.cons.inj hstack
          rw [List.length_append, List.length_cons] at hlength
          rw [List.length_cons] at hinside
          have hdeep : maxDepth - stack.length = maxDepth - (stack.length + 1) + 1 := by omega
          rcases ih after.length (by omega) after rfl stack hroom hafter with
            ⟨rfl, hothers⟩ | ⟨next, below, inside', after', rfl, rfl, hinside', hafter'⟩
          · exact Or.inl ⟨rfl, .group byte hopens hinside hothers⟩
          · rw [hdeep] at hinside'
            refine Or.inr ⟨next, below, byte :: (inside ++ closer byte :: inside'), after', rfl,
              by simp, ?_, hafter'⟩
            rw [hdeep]
            exact .group byte hopens hinside hinside'
      · obtain ⟨hhead, h⟩ := h
        cases stack with
        | nil => exact nomatch hhead
        | cons next below =>
          rw [List.head?_cons, Option.some.injEq] at hhead
          exact Or.inr ⟨next, below, [], rest, rfl, by rw [hhead]; rfl, .empty _, h⟩

theorem closes_iff (brackets : Bytes) : Closes [] brackets ↔ Nested maxDepth brackets := by
  constructor
  · intro h
    rcases Closes.nested brackets [] (Nat.zero_le _) h with ⟨-, hnested⟩ | ⟨_, _, _, _, hnil, -⟩
    · exact hnested
    · exact nomatch hnil
  · intro h
    have hcloses := h.closes [] [] (by rw [List.length_nil]; omega) rfl
    rwa [List.append_nil] at hcloses

end Brackets

section Outside

variable {s : Scanner} {byte : UInt8}

theorem outside_opening (h : byte ≠ 34) (hopens : opening byte = true) :
    s.outside byte = if s.stack.length = maxDepth then .error .jsonTooDeep else .ok { s with
      stack := closer byte :: s.stack
      tokens := s.tokens + 1
      primitive := false } := by
  unfold Scanner.outside
  rw [if_neg h]
  exact if_pos hopens

theorem outside_closing (h : byte ≠ 34) (hopens : opening byte = false)
    (hcloses : closing byte = true) :
    s.outside byte = if s.stack.head? = some byte then
      .ok { s with stack := s.stack.tail, primitive := false } else .error .invalidJson := by
  unfold opening at hopens
  unfold Scanner.outside
  rw [if_neg h, hopens, if_neg (by simp)]
  exact if_pos hcloses

theorem outside_separator (h : byte ≠ 34) (hopens : opening byte = false)
    (hcloses : closing byte = false) (hseparates : separator byte = true) :
    s.outside byte = .ok { s with primitive := false } := by
  unfold opening at hopens
  unfold closing at hcloses
  unfold Scanner.outside
  rw [if_neg h, hopens, if_neg (by simp), hcloses, if_neg (by simp)]
  exact if_pos hseparates

theorem outside_primitive (h : byte ≠ 34) (hopens : opening byte = false)
    (hcloses : closing byte = false) (hseparates : separator byte = false) :
    s.outside byte = if s.primitive then .ok s else
      .ok { s with tokens := s.tokens + 1, primitive := true } := by
  unfold opening at hopens
  unfold closing at hcloses
  unfold separator at hseparates
  unfold Scanner.outside
  rw [if_neg h, hopens, if_neg (by simp), hcloses, if_neg (by simp), hseparates, if_neg (by simp)]

end Outside

section Pieces

variable {maxTokens : Nat} {s : Scanner}

def Scanner.Outside (s : Scanner) : Prop := s.quoted = false ∧ s.escaped = false

def Scanner.after (s : Scanner) : Piece → Except CheckError Scanner
  | .bare byte _ => s.outside byte
  | .string _ => .ok { s with tokens := s.tokens + 1, primitive := false }

theorem scan_body (hquoted : s.quoted = true) (hescaped : s.escaped = false)
    (body : List Character) (rest : Bytes) :
    Scanner.scan maxTokens s (body.flatMap Character.spell ++ 34 :: rest) =
      Scanner.scan maxTokens { s with quoted := false } rest := by
  induction body with
  | nil =>
    rw [List.flatMap_nil, List.nil_append, Scanner.scan, if_pos hquoted]
    simp [Scanner.inString, hescaped]
  | cons character body ih =>
    rw [List.flatMap_cons, List.append_assoc]
    cases character with
    | plain byte hordinary =>
      rw [Character.spell, List.singleton_append, Scanner.scan, if_pos hquoted,
        Scanner.inString_ordinary hescaped hordinary]
      exact ih
    | escape byte =>
      have hback : s.inString 92 = { s with escaped := true } := by
        simp [Scanner.inString, hescaped]
      have hback' : Scanner.inString { s with escaped := true } byte = s := by
        simp [Scanner.inString, ← hescaped]
      rw [Character.spell, List.cons_append, List.singleton_append, Scanner.scan, if_pos hquoted,
        hback, Scanner.scan, if_pos hquoted, hback']
      exact ih

theorem scan_piece (h : s.Outside) (piece : Piece) (rest : Bytes) :
    Scanner.scan maxTokens s (piece.spell ++ rest) =
      match s.after piece with
      | .error e => .error e
      | .ok next =>
        if maxTokens < next.tokens then .error .jsonTooComplex
        else Scanner.scan maxTokens next rest := by
  cases piece with
  | bare byte outside =>
    rw [Piece.spell, List.singleton_append, Scanner.scan, if_neg (by simp [h.1])]
    rfl
  | string body =>
    have hopens : s.outside 34 =
        .ok { s with tokens := s.tokens + 1, primitive := false, quoted := true } := rfl
    rw [Piece.spell, List.cons_append, List.append_assoc, Scanner.scan, if_neg (by simp [h.1]),
      hopens]
    dsimp only [Scanner.after]
    let opened : Scanner := { s with tokens := s.tokens + 1, primitive := false, quoted := true }
    have hescaped : opened.escaped = false := h.2
    have hbody : Scanner.scan maxTokens opened (body.flatMap Character.spell ++ 34 :: rest) =
        Scanner.scan maxTokens { opened with quoted := false } rest :=
      scan_body rfl hescaped body rest
    rw [List.singleton_append, hbody]
    simp only [opened, h.1]

theorem scan_closed (rest : Bytes) : ∀ s : Scanner, Scanner.scan maxTokens s rest = .ok () →
    (s.Outside → ∃ pieces, rest = spell pieces) ∧
    (s.quoted = true → s.escaped = false → ∃ (body : List Character) (pieces : List Piece),
      rest = body.flatMap Character.spell ++ 34 :: spell pieces) ∧
    (s.quoted = true → s.escaped = true → ∃ (byte : UInt8) (body : List Character)
      (pieces : List Piece), rest = byte :: (body.flatMap Character.spell ++ 34 :: spell pieces)) := by
  induction rest with
  | nil =>
    intro s h
    rw [Scanner.scan] at h
    split_ifs at h with hends
    simp only [Bool.or_eq_true, decide_eq_true_eq, not_or] at hends
    exact ⟨fun _ => ⟨[], rfl⟩, fun hquoted => absurd hquoted hends.1,
      fun hquoted => absurd hquoted hends.1⟩
  | cons byte rest ih =>
    intro s h
    rw [Scanner.scan] at h
    refine ⟨fun houtside => ?_, fun hquoted hescaped => ?_, fun hquoted hescaped => ?_⟩
    · rw [if_neg (by simp [houtside.1])] at h
      cases hnext : s.outside byte with
      | error e =>
        rw [hnext] at h
        exact nomatch h
      | ok next =>
        rw [hnext] at h
        dsimp only at h
        split_ifs at h with hfits
        by_cases hquote : byte = 34
        · subst hquote
          obtain rfl : { s with tokens := s.tokens + 1, primitive := false, quoted := true } = next :=
            Except.ok.inj hnext
          obtain ⟨body, pieces, hrest⟩ := (ih _ h).2.1 rfl houtside.2
          exact ⟨.string body :: pieces, by simp [spell, Piece.spell, hrest]⟩
        · have hstays : next.Outside := by
            unfold Scanner.outside at hnext
            split_ifs at hnext <;> rw [Except.ok.injEq] at hnext <;> subst hnext <;> exact houtside
          obtain ⟨pieces, hrest⟩ := (ih next h).1 hstays
          exact ⟨.bare byte hquote :: pieces, by simp [spell, Piece.spell, hrest]⟩
    · rw [if_pos hquoted] at h
      by_cases hback : byte = 92
      · subst hback
        have hstep : s.inString 92 = { s with escaped := true } := by
          simp [Scanner.inString, hescaped]
        rw [hstep] at h
        obtain ⟨next, body, pieces, hrest⟩ := (ih _ h).2.2 hquoted rfl
        exact ⟨.escape next :: body, pieces, by simp [Character.spell, hrest]⟩
      · by_cases hquote : byte = 34
        · subst hquote
          have hstep : s.inString 34 = { s with quoted := false } := by
            simp [Scanner.inString, hescaped]
          rw [hstep] at h
          obtain ⟨pieces, hrest⟩ := (ih _ h).1 ⟨rfl, hescaped⟩
          exact ⟨[], pieces, by rw [hrest]; rfl⟩
        · have hordinary : Scanner.special byte = false := by simp [Scanner.special, hback, hquote]
          rw [Scanner.inString_ordinary hescaped hordinary] at h
          obtain ⟨body, pieces, hrest⟩ := (ih s h).2.1 hquoted hescaped
          exact ⟨.plain byte hordinary :: body, pieces, by simp [Character.spell, hrest]⟩
    · rw [if_pos hquoted] at h
      have hstep : s.inString byte = { s with escaped := false } := by
        simp [Scanner.inString, hescaped]
      rw [hstep] at h
      obtain ⟨body, pieces, hrest⟩ := (ih _ h).2.1 hquoted rfl
      exact ⟨byte, body, pieces, by rw [hrest]⟩

/-- Over whole pieces the scanner closes the brackets and counts the tokens. -/
theorem scan_spell (pieces : List Piece) : ∀ s : Scanner, s.Outside → s.tokens ≤ maxTokens →
    (Scanner.scan maxTokens s (spell pieces) = .ok () ↔
      Closes s.stack (pieces.filterMap Piece.bracket?) ∧
        s.tokens + pieces.countP Piece.opens + runs s.primitive pieces ≤ maxTokens) := by
  induction pieces with
  | nil =>
    intro s h hle
    have hscan : Scanner.scan maxTokens s [] =
        if s.quoted || s.stack ≠ [] then .error .invalidJson else .ok () := rfl
    rw [show spell [] = [] from rfl, hscan, h.1]
    by_cases hstack : s.stack = [] <;> simp [Closes, runs, hstack, hle]
  | cons piece pieces ih =>
    intro s h hle
    rw [show spell (piece :: pieces) = piece.spell ++ spell pieces from rfl, scan_piece h]
    -- A piece that counts a token, and one that counts none.
    have hcounts (next : Scanner) (hnext : next.Outside) (hmore : next.tokens = s.tokens + 1) :
        ((if maxTokens < next.tokens then Except.error .jsonTooComplex
          else Scanner.scan maxTokens next (spell pieces)) = .ok () ↔
          Closes next.stack (pieces.filterMap Piece.bracket?) ∧
            s.tokens + (pieces.countP Piece.opens + 1) + runs next.primitive pieces ≤ maxTokens) := by
      split_ifs with hfull
      · refine ⟨fun herror => (nomatch herror), fun ⟨_, hfits⟩ => ?_⟩
        omega
      · rw [ih next hnext (Nat.not_lt.mp hfull), hmore]
        refine and_congr_right fun _ => ?_
        omega
    have hkeeps (next : Scanner) (hnext : next.Outside) (hsame : next.tokens = s.tokens) :
        ((if maxTokens < next.tokens then Except.error .jsonTooComplex
          else Scanner.scan maxTokens next (spell pieces)) = .ok () ↔
          Closes next.stack (pieces.filterMap Piece.bracket?) ∧
            s.tokens + pieces.countP Piece.opens + runs next.primitive pieces ≤ maxTokens) := by
      rw [hsame, if_neg (Nat.not_lt.mpr hle), ih next hnext (hsame ▸ hle), hsame]
    cases piece with
    | string body =>
      have hstring := hcounts { s with tokens := s.tokens + 1, primitive := false } h rfl
      simpa [List.countP_cons, List.filterMap_cons, Scanner.after, Piece.bracket?, Piece.opens,
        Piece.primitive, runs] using hstring
    | bare byte outside =>
      simp only [Scanner.after]
      by_cases hopens : opening byte = true
      · rw [outside_opening outside hopens]
        by_cases hdeep : s.stack.length = maxDepth
        · simp [Piece.bracket?, hopens, hdeep, Closes]
        · have hbracket := hcounts
            { s with stack := closer byte :: s.stack, tokens := s.tokens + 1, primitive := false } h rfl
          simpa [List.countP_cons, List.filterMap_cons, Piece.bracket?, Piece.opens,
            Piece.primitive, runs, hopens, hdeep, Closes] using hbracket
      · rw [Bool.not_eq_true] at hopens
        by_cases hcloses : closing byte = true
        · rw [outside_closing outside hopens hcloses]
          by_cases hmatch : s.stack.head? = some byte
          · have hbracket := hkeeps { s with stack := s.stack.tail, primitive := false } h rfl
            simpa [List.countP_cons, List.filterMap_cons, Piece.bracket?, Piece.opens,
              Piece.primitive, runs, hopens, hcloses, hmatch, Closes] using hbracket
          · simp [Piece.bracket?, hopens, hcloses, hmatch, Closes]
        · rw [Bool.not_eq_true] at hcloses
          by_cases hseparates : separator byte = true
          · rw [outside_separator outside hopens hcloses hseparates]
            have hbare := hkeeps { s with primitive := false } h rfl
            simpa [List.countP_cons, List.filterMap_cons, Piece.bracket?, Piece.opens,
              Piece.primitive, runs, hopens, hcloses, hseparates] using hbare
          · rw [Bool.not_eq_true] at hseparates
            rw [outside_primitive outside hopens hcloses hseparates]
            cases hrun : s.primitive with
            | true =>
              have hbare := hkeeps s h rfl
              simpa [List.countP_cons, List.filterMap_cons, Piece.bracket?, Piece.opens,
                Piece.primitive, runs, hopens, hcloses, hseparates, hrun] using hbare
            | false =>
              have hbare := hcounts { s with tokens := s.tokens + 1, primitive := true } h rfl
              simpa [List.countP_cons, List.filterMap_cons, Piece.bracket?, Piece.opens,
                Piece.primitive, runs, hopens, hcloses, hseparates, Nat.add_assoc,
                Nat.add_comm 1] using hbare

theorem scan_iff (bytes : Bytes) :
    Scanner.scan maxTokens {} bytes = .ok () ↔ ∃ pieces, bytes = spell pieces ∧
      Nested maxDepth (pieces.filterMap Piece.bracket?) ∧ tokens pieces ≤ maxTokens := by
  have houtside : ({} : Scanner).Outside := ⟨rfl, rfl⟩
  constructor
  · intro h
    obtain ⟨pieces, hpieces⟩ := (scan_closed bytes _ h).1 houtside
    rw [hpieces, scan_spell pieces _ houtside (Nat.zero_le _), closes_iff] at h
    obtain ⟨hnested, htokens⟩ := h
    refine ⟨pieces, hpieces, hnested, ?_⟩
    simpa [tokens] using htokens
  · rintro ⟨pieces, rfl, hnested, htokens⟩
    rw [scan_spell pieces _ houtside (Nat.zero_le _), closes_iff]
    refine ⟨hnested, ?_⟩
    simpa [tokens] using htokens

end Pieces

/-- Both paths decide the same, from every position on, and accept exactly the
valid texts of nested brackets and closed strings within the limits. -/
theorem checkImpl_language (vectorize : Bool) (bytes : Bytes) (maxBytes maxTokens : Nat) :
    checkImpl vectorize bytes maxBytes maxTokens = check bytes maxBytes maxTokens ∧
    (∀ s rest, Scanner.vectorScan maxTokens s rest = Scanner.scan maxTokens s rest) ∧
    (checkImpl vectorize bytes maxBytes maxTokens = .ok () ↔
      bytes.length ≤ maxBytes ∧ utf8ValidateSlice bytes = true ∧
      ∃ pieces, bytes = spell pieces ∧ Nested maxDepth (pieces.filterMap Piece.bracket?) ∧
        tokens pieces ≤ maxTokens) := by
  refine ⟨checkImpl_eq vectorize bytes maxBytes maxTokens, Scanner.vectorScan_eq maxTokens, ?_⟩
  rw [checkImpl_eq, check]
  split_ifs with hlarge hutf8
  · exact ⟨fun herror => (nomatch herror), fun h => absurd h.1 (Nat.not_le.mpr hlarge)⟩
  · refine ⟨fun herror => (nomatch herror), fun h => ?_⟩
    rw [h.2.1] at hutf8
    exact nomatch hutf8
  · rw [scan_iff]
    have hvalid : utf8ValidateSlice bytes = true := by simpa using hutf8
    exact ⟨fun h => ⟨Nat.not_lt.mp hlarge, hvalid, h⟩, fun h => h.2.2⟩

/-- An escaped quote does not close a string, and a bracket in it does not count. -/
example : checkImpl false (text "[\"\\\"]\",1]") 64 3 = .ok () := by decide

end Zimbr.JsonInput
