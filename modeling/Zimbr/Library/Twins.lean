import Zimbr.Library.Sql

set_option autoImplicit false

/-!
# Two runs of one computation

Contents can look alike to someone who sees a part of them. A computation that
uses nothing but that part answers alike over both, and leaves them alike.
-/
namespace Library

variable {ε σ ι α β : Type} [StorageError ε] {R : σ → σ → Prop}

/-- Connections with related contents, and the same failures and identifiers ahead. -/
structure Conn.Twins (R : σ → σ → Prop) (c c' : Conn σ ι) : Prop where
  db : R c.db c'.db
  faults : c'.faults = c.faults
  fresh : c'.fresh = c.fresh

namespace Sql

/-- Twins get the same answer and stay twins. -/
def Mirrors (R : σ → σ → Prop) (m : Sql ε σ ι α) : Prop :=
  ∀ c c', c.Twins R c' → (m.run c').1 = (m.run c).1 ∧ (m.run c).2.Twins R (m.run c').2

namespace Mirrors

variable {m : Sql ε σ ι α} {k : α → Sql ε σ ι β}

theorem pure {a : α} : Mirrors R (Pure.pure a : Sql ε σ ι α) := fun _ _ h => ⟨rfl, h⟩

theorem throw {e : ε} : Mirrors R (Sql.throw e : Sql ε σ ι α) := fun _ _ h => ⟨rfl, h⟩

theorem require {ok : Bool} {e : ε} : Mirrors R (Sql.require ok e : Sql ε σ ι Unit) := by
  cases ok
  · exact throw
  · exact pure

theorem lift {r : Except ε α} : Mirrors R (Sql.lift r : Sql ε σ ι α) := by
  cases r
  · exact throw
  · exact pure

theorem bind (hm : Mirrors R m) (hk : ∀ a, Mirrors R (k a)) : Mirrors R (m >>= k) := by
  intro c c' h
  obtain ⟨hanswer, htwins⟩ := hm c c' h
  change ((Sql.bind m k).run c').1 = ((Sql.bind m k).run c).1 ∧ _
  change _ ∧ ((Sql.bind m k).run c).2.Twins R ((Sql.bind m k).run c').2
  simp only [Sql.bind]
  rcases hrun : m.run c with ⟨r, d⟩
  rcases hrun' : m.run c' with ⟨r', d'⟩
  rw [hrun, hrun'] at hanswer htwins
  dsimp only at hanswer htwins
  rw [hanswer]
  cases r with
  | error e => exact ⟨rfl, htwins⟩
  | ok a => exact hk a d d' htwins

theorem draw {e : ε} : Mirrors R (Sql.draw e : Sql ε σ ι ι) := by
  intro c c' h
  simp only [Sql.draw]
  rw [h.fresh]
  cases hfresh : c.fresh with
  | nil => exact ⟨rfl, h⟩
  | cons i rest => exact ⟨rfl, h.db, h.faults, rfl⟩

/-- A statement that answers alike over related contents and leaves them related. -/
theorem statement {g : σ → Option (α × σ)}
    (hg : ∀ s s', R s s' → Option.Rel (fun p q => q.1 = p.1 ∧ R p.2 q.2) (g s) (g s')) :
    Mirrors R (Sql.statement g : Sql ε σ ι α) := by
  intro c c' h
  have hdb := hg _ _ h.db
  simp only [Sql.statement]
  rw [h.faults]
  split
  · exact ⟨rfl, h.db, rfl, h.fresh⟩
  · cases hs : g c.db with
    | none =>
      rw [hs] at hdb
      cases hs' : g c'.db with
      | none => exact ⟨rfl, h.db, rfl, h.fresh⟩
      | some q =>
        rw [hs'] at hdb
        cases hdb
    | some p =>
      rw [hs] at hdb
      cases hs' : g c'.db with
      | none =>
        rw [hs'] at hdb
        cases hdb
      | some q =>
        rw [hs'] at hdb
        cases hdb with
        | some hpair => exact ⟨congrArg Except.ok hpair.1, hpair.2, rfl, h.fresh⟩

theorem query {f : σ → α} (hf : ∀ s s', R s s' → f s' = f s) :
    Mirrors R (Sql.query f : Sql ε σ ι α) :=
  statement fun s s' h => .some ⟨hf s s' h, h⟩

theorem execute {f : σ → σ} (hf : ∀ s s', R s s' → R (f s) (f s')) :
    Mirrors R (Sql.execute f : Sql ε σ ι Unit) :=
  statement fun s s' h => .some ⟨rfl, hf s s' h⟩

theorem each {k : α → Sql ε σ ι Unit} (hk : ∀ a, Mirrors R (k a)) (items : List α) :
    Mirrors R (Sql.each k items) := by
  induction items with
  | nil => exact pure
  | cons a rest ih => exact bind (hk a) fun _ => ih

theorem restoring (hm : Mirrors R m) : Mirrors R (Sql.restoring m) := by
  intro c c' h
  obtain ⟨hanswer, htwins⟩ := hm c c' h
  simp only [Sql.restoring]
  rcases hrun : m.run c with ⟨r, d⟩
  rcases hrun' : m.run c' with ⟨r', d'⟩
  rw [hrun, hrun'] at hanswer htwins
  dsimp only at hanswer htwins
  rw [hanswer]
  cases r with
  | error e => exact ⟨rfl, h.db, htwins.faults, htwins.fresh⟩
  | ok a => exact ⟨rfl, htwins⟩

theorem transaction (hm : Mirrors R m) : Mirrors R (Sql.transaction m) :=
  restoring <| bind (execute fun _ _ h => h) fun _ => bind hm fun _ =>
    bind (execute fun _ _ h => h) fun _ => pure

end Mirrors

end Sql

end Library
