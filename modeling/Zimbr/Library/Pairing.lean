import Mathlib.Data.List.Nodup
import Mathlib.Data.List.ReduceOption
import Mathlib.Tactic.SplitIfs

set_option autoImplicit false

/-!
# Pairing in order

Each request in turn takes the first offer that fits it and is still free. The
pairing is as large as any where an earlier request and an earlier offer can be
exchanged into a pair.
-/
namespace Library

variable {α β : Type}

theorem reduceOption_filter (p : β → Bool) (taken : List (Option β)) :
    (taken.map (Option.filter p)).reduceOption = taken.reduceOption.filter p := by
  induction taken with
  | nil => rfl
  | cons o rest ih =>
    cases o with
    | none => exact ih
    | some b =>
      rw [List.map_cons, Option.filter_some, List.reduceOption_cons_of_some, List.filter_cons]
      split_ifs
      · rw [List.reduceOption_cons_of_some, ih]
      · exact ih

section Matchings

variable (fits : α → β → Bool)

/-- No offer is taken twice, and each fits the request that takes it. -/
structure Matching (requests : List α) (offers : List β) (taken : List (Option β)) : Prop where
  fits : List.Forall₂ (fun a o => ∀ b, o = some b → fits a b = true) requests taken
  once : taken.reduceOption.Nodup
  among : ∀ b ∈ taken.reduceOption, b ∈ offers

/-- Of two offers that an earlier request can take, a later one that can take the
earlier can take the later. -/
def Exchanges (requests : List α) (offers : List β) : Prop :=
  requests.Pairwise fun a a' => offers.Pairwise fun b b' =>
    fits a b = true → fits a b' = true → fits a' b = true → fits a' b' = true

namespace Matching

variable {fits} {a : α} {b b' : β} {requests : List α} {offers : List β} {o : Option β}
  {taken : List (Option β)}

theorem of_forall₂ (h : List.Forall₂ (fun a o => ∀ b, o = some b → b ∈ offers ∧ fits a b = true)
    requests taken) (honce : taken.reduceOption.Nodup) : Matching fits requests offers taken where
  fits := h.imp fun a o ho b hb => (ho b hb).2
  once := honce
  among := by
    clear honce
    induction h with
    | nil => exact nofun
    | @cons a o _ _ ho _ ih =>
      cases o with
      | none => exact ih
      | some b =>
        intro c hc
        rcases List.mem_cons.mp hc with rfl | hc
        · exact (ho c rfl).1
        · exact ih c hc

theorem head (h : Matching fits (a :: requests) offers (some b :: taken)) :
    fits a b = true ∧ b ∈ offers ∧ b ∉ taken.reduceOption := by
  have honce := h.once
  rw [List.reduceOption_cons_of_some, List.nodup_cons] at honce
  cases h.fits with
  | cons hhead _ => exact ⟨hhead b rfl, h.among b List.mem_cons_self, honce.1⟩

theorem tail (h : Matching fits (a :: requests) offers (o :: taken)) :
    Matching fits requests offers taken := by
  have hsub : taken.reduceOption.Sublist (o :: taken).reduceOption := by
    cases o with
    | none => exact List.Sublist.refl _
    | some b => exact List.sublist_cons_self b _
  cases h.fits with
  | cons _ hrest => exact ⟨hrest, h.once.sublist hsub, fun b hb => h.among b (hsub.subset hb)⟩

/-- What is taken may be exchanged for what fits as well. -/
theorem map (h : Matching fits requests offers taken) {f : β → β}
    (hfits : ∀ a ∈ requests, ∀ b ∈ taken.reduceOption, fits a b = true → fits a (f b) = true)
    (hinj : ∀ b ∈ taken.reduceOption, ∀ c ∈ taken.reduceOption, f b = f c → b = c)
    {others : List β} (hmem : ∀ b ∈ taken.reduceOption, f b ∈ others) :
    Matching fits requests others (taken.map (Option.map f)) where
  fits := by
    rw [List.forall₂_map_right_iff, List.forall₂_iff_zip]
    refine ⟨h.fits.length_eq, fun {a o} hzip c hc => ?_⟩
    obtain ⟨b, rfl, rfl⟩ := Option.map_eq_some_iff.mp hc
    obtain ⟨ha, hb⟩ := List.of_mem_zip hzip
    exact hfits a ha b (List.reduceOption_mem_iff.mpr hb)
      ((List.forall₂_iff_zip.mp h.fits).2 hzip b rfl)
  once := by
    rw [List.reduceOption_map]
    exact h.once.map_on hinj
  among c hc := by
    rw [List.reduceOption_map] at hc
    obtain ⟨b, hb, rfl⟩ := List.mem_map.mp hc
    exact hmem b hb

section Dropping

variable [DecidableEq β]

theorem drop (h : Matching fits requests offers taken) (b : β) :
    ∃ rest, Matching fits requests (offers.erase b) rest ∧
      taken.reduceOption.length ≤ rest.reduceOption.length + 1 := by
  let rest := taken.map (Option.filter fun c => c != b)
  have hrest : rest.reduceOption = taken.reduceOption.erase b := by
    rw [h.once.erase_eq_filter]
    exact reduceOption_filter _ taken
  refine ⟨rest, ⟨?_, ?_, fun c hc => ?_⟩, ?_⟩
  · refine List.forall₂_map_right_iff.mpr (h.fits.imp fun a o ho c hc => ho c ?_)
    exact (Option.filter_eq_some_iff.mp hc).1
  · rw [hrest]
    exact h.once.erase b
  · rw [hrest, h.once.mem_erase_iff] at hc
    exact (List.mem_erase_of_ne hc.1).mpr (h.among c hc.2)
  · rw [hrest, List.length_erase]
    split_ifs <;> omega

theorem spare (h : Matching fits requests offers taken) (hb : b ∉ taken.reduceOption) :
    Matching fits requests (offers.erase b) taken where
  fits := h.fits
  once := h.once
  among c hc := by
    refine (List.mem_erase_of_ne ?_).mpr (h.among c hc)
    rintro rfl
    exact hb hc

/-- An earlier request may take the first offer that fits it; who waits for that
takes the one it gives up. -/
theorem exchange (h : Matching fits (a :: requests) offers (o :: taken))
    (hfind : offers.find? (fits a) = some b)
    (hlater : ∀ a' ∈ requests, offers.Pairwise fun b b' =>
      fits a b = true → fits a b' = true → fits a' b = true → fits a' b' = true) :
    ∃ rest, Matching fits requests (offers.erase b) rest ∧
      (o :: taken).reduceOption.length ≤ rest.reduceOption.length + 1 := by
  cases o with
  | none => exact h.tail.drop b
  | some b' =>
    obtain ⟨hfits', hmem', hfree'⟩ := h.head
    by_cases hb : b ∈ taken.reduceOption
    · obtain ⟨hfits, before, after, rfl, hbefore⟩ := List.find?_eq_some_iff_append.mp hfind
      have hne : b' ≠ b := fun heq => hfree' (heq ▸ hb)
      have hafter : b' ∈ after := by
        rcases List.mem_append.mp hmem' with hmem | hmem
        · exact absurd hfits' (by simpa using hbefore b' hmem)
        · exact (List.mem_cons.mp hmem).resolve_left hne
      have hmoved (a' : α) (ha' : a' ∈ requests) (hb' : fits a' b = true) : fits a' b' = true :=
        List.rel_of_pairwise_cons (List.pairwise_append.mp (hlater a' ha')).2.1 hafter hfits hfits' hb'
      refine ⟨taken.map (Option.map fun c => if c = b then b' else c), h.tail.map ?_ ?_ ?_, ?_⟩
      · intro a' ha' c hc hfitsc
        split_ifs with heq
        · exact hmoved a' ha' (heq ▸ hfitsc)
        · exact hfitsc
      · intro c hc d hd heq
        split_ifs at heq with hcb hdb hdb
        · rw [hcb, hdb]
        · exact absurd (heq ▸ hd) hfree'
        · exact absurd (heq ▸ hc) hfree'
        · exact heq
      · intro c hc
        split_ifs with hcb
        · exact (List.mem_erase_of_ne hne).mpr hmem'
        · exact (List.mem_erase_of_ne hcb).mpr (h.tail.among c hc)
      · rw [List.reduceOption_map, List.length_map]
        exact Nat.le_refl _
    · exact ⟨taken, h.tail.spare hb, by simp⟩

end Dropping

end Matching

end Matchings

section Pairing

variable [DecidableEq β] (fits : α → β → Bool)

def pair : List α → List β → List (Option β)
  | [], _ => []
  | a :: rest, offers =>
    match offers.find? (fits a) with
    | some b => some b :: pair rest (offers.erase b)
    | none => none :: pair rest offers

variable {fits} {requests : List α} {offers : List β}

theorem pair_max (h : offers.Nodup) (hexchange : Exchanges fits requests offers)
    {taken : List (Option β)} (hm : Matching fits requests offers taken) :
    taken.reduceOption.length ≤ (pair fits requests offers).reduceOption.length := by
  induction requests generalizing offers taken with
  | nil =>
    cases hm.fits
    exact Nat.le_refl _
  | cons a rest ih =>
    obtain ⟨o, taken, rfl⟩ : ∃ o taken', taken = o :: taken' := by
      cases hm.fits with
      | cons _ _ => exact ⟨_, _, rfl⟩
    have hlater := List.pairwise_cons.mp hexchange
    rw [pair]
    cases hfind : offers.find? (fits a) with
    | none =>
      have hnone : o = none := by
        cases o with
        | none => rfl
        | some b =>
          have hhead := hm.head
          exact absurd hhead.1 (List.find?_eq_none.mp hfind b hhead.2.1)
      rw [hnone, List.reduceOption_cons_of_none, List.reduceOption_cons_of_none]
      exact ih h hlater.2 hm.tail
    | some b =>
      obtain ⟨others, hothers, hlength⟩ := hm.exchange hfind hlater.1
      rw [List.reduceOption_cons_of_some, List.length_cons]
      have hle := ih (h.erase b) (hlater.2.imp fun hpair => hpair.sublist List.erase_sublist) hothers
      omega

end Pairing

end Library
