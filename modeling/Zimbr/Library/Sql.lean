import Mathlib.Data.List.Basic

set_option autoImplicit false

/-!
# Statements and transactions over one database connection

A statement can fail at any point, and a failed statement leaves whatever the
statements before it wrote. Only `transaction` restores the contents, so what
a failed operation leaves behind is a theorem about its transactions.
-/
namespace Library

class StorageError (ε : Type) where
  unavailable : ε

/-- A connection: the contents it sees, which of the next statements fail, and
the random identifiers it will draw. -/
structure Conn (σ ι : Type) where
  db : σ
  faults : List Bool := []
  fresh : List ι := []

namespace Conn

variable {σ ι : Type}

def calm (c : Conn σ ι) : Conn σ ι := { c with faults := [] }

@[simp] theorem calm_db (c : Conn σ ι) : c.calm.db = c.db := rfl
@[simp] theorem calm_faults (c : Conn σ ι) : c.calm.faults = [] := rfl
@[simp] theorem calm_fresh (c : Conn σ ι) : c.calm.fresh = c.fresh := rfl
@[simp] theorem calm_calm (c : Conn σ ι) : c.calm.calm = c.calm := rfl

end Conn

/-- A computation on a connection. The connection survives an error, and faults
can only turn a result into the storage error. -/
structure Sql (ε : Type) [StorageError ε] (σ ι α : Type) where
  run : Conn σ ι → Except ε α × Conn σ ι
  steady : ∀ c, (run c).1 = .error StorageError.unavailable ∨
    ((run c).1 = (run c.calm).1 ∧ (run c).2.calm = (run c.calm).2)

namespace Sql

variable {ε σ ι α β : Type} [StorageError ε]

protected def pure (a : α) : Sql ε σ ι α where
  run c := (.ok a, c)
  steady _ := Or.inr ⟨rfl, rfl⟩

protected def bind (m : Sql ε σ ι α) (f : α → Sql ε σ ι β) : Sql ε σ ι β where
  run c :=
    match m.run c with
    | (.ok a, c') => (f a).run c'
    | (.error e, c') => (.error e, c')
  steady c := by
    rcases m.steady c with hm | ⟨hm, hc⟩
    · rcases h : m.run c with ⟨_ | a, c'⟩
      · left
        simpa [h] using hm
      · simp [h] at hm
    · rcases h : m.run c with ⟨r, c'⟩
      rcases hcalm : m.run c.calm with ⟨r', c₁⟩
      obtain rfl : r = r' := by simpa [h, hcalm] using hm
      obtain rfl : c'.calm = c₁ := by simpa [h, hcalm] using hc
      rcases r with e | a
      · exact Or.inr ⟨rfl, rfl⟩
      · exact (f a).steady c'

instance : Monad (Sql ε σ ι) where
  pure := Sql.pure
  bind := Sql.bind

protected def throw (e : ε) : Sql ε σ ι α where
  run c := (.error e, c)
  steady _ := Or.inr ⟨rfl, rfl⟩

/-- `if (!ok) return error`. -/
def require (ok : Bool) (e : ε) : Sql ε σ ι Unit := if ok then Sql.pure () else Sql.throw e

def lift : Except ε α → Sql ε σ ι α
  | .ok a => Sql.pure a
  | .error e => Sql.throw e

def orThrow (e : ε) : Option α → Sql ε σ ι α
  | some a => Sql.pure a
  | none => Sql.throw e

/-- Draw a random identifier; the source may be unavailable. -/
def draw (e : ε) : Sql ε σ ι ι where
  run c :=
    match c.fresh with
    | i :: rest => (.ok i, { c with fresh := rest })
    | [] => (.error e, c)
  steady c := by
    right
    simp only [Conn.calm_fresh]
    cases h : c.fresh with
    | nil => exact ⟨rfl, rfl⟩
    | cons i rest => exact ⟨rfl, rfl⟩

/-- One statement: `none` violates a constraint, and neither a violation nor a
failure changes the contents. -/
def statement (f : σ → Option (α × σ)) : Sql ε σ ι α where
  run c :=
    match c.faults with
    | true :: rest => (.error StorageError.unavailable, { c with faults := rest })
    | faults =>
      match f c.db with
      | some (a, db) => (.ok a, { c with db := db, faults := faults.tail })
      | none => (.error StorageError.unavailable, { c with faults := faults.tail })
  steady c := by
    simp only [Conn.calm_faults, Conn.calm_db]
    rcases c.faults with _ | ⟨_ | _, rest⟩ <;> cases f c.db <;> simp [Conn.calm]

def query (f : σ → α) : Sql ε σ ι α := statement fun db => some (f db, db)

def execute (f : σ → σ) : Sql ε σ ι Unit := statement fun db => some ((), f db)

/-- A statement with a constraint. -/
def execute? (f : σ → Option σ) : Sql ε σ ι Unit := statement fun db => (f db).map ((), ·)

/-- `errdefer rollback`: an error restores the contents of before. -/
def restoring (body : Sql ε σ ι α) : Sql ε σ ι α where
  run c :=
    match body.run c with
    | (.ok a, c') => (.ok a, c')
    | (.error e, c') => (.error e, { c' with db := c.db })
  steady c := by
    rcases h : body.run c with ⟨r, c'⟩
    rcases hcalm : body.run c.calm with ⟨r', c₁⟩
    have hb := body.steady c
    rw [h, hcalm] at hb
    rcases hb with hb | ⟨hr, hc⟩
    · obtain rfl : r = .error StorageError.unavailable := hb
      exact Or.inl rfl
    · obtain rfl : r = r' := hr
      obtain rfl : c'.calm = c₁ := hc
      rcases r with e | a <;> exact Or.inr ⟨rfl, rfl⟩

/-- `BEGIN`, the body and `COMMIT`; an error of any of the three rolls back. -/
def transaction (body : Sql ε σ ι α) : Sql ε σ ι α := restoring do
  execute id
  let a ← body
  execute id
  return a

def each (f : α → Sql ε σ ι Unit) : List α → Sql ε σ ι Unit
  | [] => Sql.pure ()
  | a :: rest => Sql.bind (f a) fun _ => each f rest

section Inversion

variable {c c' : Conn σ ι} {a : α} {b : β} {e : ε}

@[simp] theorem pure_run : (Pure.pure a : Sql ε σ ι α).run c = (.ok a, c) := rfl

theorem pure_ok {a' : α} (h : (Pure.pure a : Sql ε σ ι α).run c = (.ok a', c')) :
    a' = a ∧ c' = c := by
  rw [pure_run, Prod.mk.injEq, Except.ok.injEq] at h
  exact ⟨h.1.symm, h.2.symm⟩

theorem throw_ok (h : (Sql.throw e : Sql ε σ ι α).run c = (.ok a, c')) : False := by
  simp [Sql.throw] at h

theorem bind_ok {m : Sql ε σ ι α} {f : α → Sql ε σ ι β}
    (h : (m >>= f).run c = (.ok b, c')) :
    ∃ a c₁, m.run c = (.ok a, c₁) ∧ (f a).run c₁ = (.ok b, c') := by
  change (Sql.bind m f).run c = _ at h
  simp only [Sql.bind] at h
  split at h
  · exact ⟨_, _, by assumption, h⟩
  · simp at h

theorem bind_run_ok {m : Sql ε σ ι α} {f : α → Sql ε σ ι β} {r : Except ε β × Conn σ ι}
    {c₁ : Conn σ ι} (hm : m.run c = (.ok a, c₁)) (hf : (f a).run c₁ = r) :
    (m >>= f).run c = r := by
  change (Sql.bind m f).run c = r
  simp only [Sql.bind, hm]
  exact hf

theorem bind_error {m : Sql ε σ ι α} {f : α → Sql ε σ ι β}
    (h : (m >>= f).run c = (.error e, c')) :
    m.run c = (.error e, c') ∨
      ∃ a c₁, m.run c = (.ok a, c₁) ∧ (f a).run c₁ = (.error e, c') := by
  change (Sql.bind m f).run c = _ at h
  simp only [Sql.bind] at h
  split at h
  · exact Or.inr ⟨_, _, by assumption, h⟩
  · next hm =>
    rw [Prod.mk.injEq, Except.error.injEq] at h
    rw [hm, h.1, h.2]
    exact Or.inl rfl

theorem require_ok {ok : Bool} {u : Unit}
    (h : (require ok e : Sql ε σ ι Unit).run c = (.ok u, c')) : ok = true ∧ c' = c := by
  cases ok with
  | false => exact (throw_ok h).elim
  | true => exact ⟨rfl, (pure_ok h).2⟩

theorem lift_ok {r : Except ε α} (h : (lift r : Sql ε σ ι α).run c = (.ok a, c')) :
    r = .ok a ∧ c' = c := by
  cases r with
  | error e => exact (throw_ok h).elim
  | ok a' =>
    obtain ⟨rfl, hc⟩ := pure_ok h
    exact ⟨rfl, hc⟩

/-- The errors of an inner computation are named as those of this one. -/
theorem lift_mapError_ok {ε' : Type} {r : Except ε' α} {f : ε' → ε}
    (h : (lift (r.mapError f) : Sql ε σ ι α).run c = (.ok a, c')) : r = .ok a ∧ c' = c := by
  cases r with
  | error e => exact (throw_ok h).elim
  | ok b =>
    obtain ⟨rfl, hc'⟩ := pure_ok h
    exact ⟨rfl, hc'⟩

theorem orThrow_ok {o : Option α} (h : (orThrow e o : Sql ε σ ι α).run c = (.ok a, c')) :
    o = some a ∧ c' = c := by
  cases o with
  | none => exact (throw_ok h).elim
  | some a' =>
    obtain ⟨rfl, hc⟩ := pure_ok h
    exact ⟨rfl, hc⟩

theorem draw_ok {i : ι} (h : (draw e : Sql ε σ ι ι).run c = (.ok i, c')) :
    i ∈ c.fresh ∧ c'.db = c.db := by
  simp only [draw] at h
  cases hf : c.fresh with
  | nil => simp [hf] at h
  | cons j rest =>
    simp only [hf, Prod.mk.injEq, Except.ok.injEq] at h
    obtain ⟨rfl, rfl⟩ := h
    exact ⟨List.mem_cons_self, rfl⟩

theorem statement_ok {f : σ → Option (α × σ)}
    (h : (statement f : Sql ε σ ι α).run c = (.ok a, c')) :
    f c.db = some (a, c'.db) ∧ c'.fresh = c.fresh := by
  simp only [statement] at h
  split at h
  · simp at h
  · split at h
    · next a' db hf =>
      simp only [Prod.mk.injEq, Except.ok.injEq] at h
      obtain ⟨rfl, rfl⟩ := h
      exact ⟨hf, rfl⟩
    · simp at h

theorem query_ok {f : σ → α} (h : (query f : Sql ε σ ι α).run c = (.ok a, c')) :
    a = f c.db ∧ c'.db = c.db := by
  have hf := (statement_ok h).1
  simp only [Option.some.injEq, Prod.mk.injEq] at hf
  exact ⟨hf.1.symm, hf.2.symm⟩

theorem execute_ok {f : σ → σ} {u : Unit}
    (h : (execute f : Sql ε σ ι Unit).run c = (.ok u, c')) : c'.db = f c.db := by
  have hf := (statement_ok h).1
  simp only [Option.some.injEq, Prod.mk.injEq] at hf
  exact hf.2.symm

theorem execute?_ok {f : σ → Option σ} {u : Unit}
    (h : (execute? f : Sql ε σ ι Unit).run c = (.ok u, c')) : f c.db = some c'.db := by
  have hf := (statement_ok h).1
  simp only [Option.map_eq_some_iff, Prod.mk.injEq] at hf
  obtain ⟨db, hdb, -, rfl⟩ := hf
  exact hdb

theorem restoring_ok {m : Sql ε σ ι α} (h : (restoring m).run c = (.ok a, c')) :
    m.run c = (.ok a, c') := by
  simp only [restoring] at h
  split at h
  · next hm =>
    rw [hm]
    exact h
  · simp at h

/-- A failed transaction leaves the contents exactly as they were. -/
theorem transaction_error {m : Sql ε σ ι α} (h : (transaction m).run c = (.error e, c')) :
    c'.db = c.db := by
  simp only [transaction, restoring] at h
  split at h
  · simp at h
  · simp only [Prod.mk.injEq] at h
    rw [← h.2]

/-- A committed transaction ran its body once, from the contents before it. -/
theorem transaction_ok {m : Sql ε σ ι α} (h : (transaction m).run c = (.ok a, c')) :
    ∃ c₁ c₂, c₁.db = c.db ∧ c₁.fresh = c.fresh ∧ m.run c₁ = (.ok a, c₂) ∧ c'.db = c₂.db := by
  obtain ⟨_, c₁, hbegin, h⟩ := bind_ok (restoring_ok h)
  obtain ⟨a', c₂, hm, h⟩ := bind_ok h
  obtain ⟨_, c₃, hcommit, h⟩ := bind_ok h
  obtain ⟨rfl, rfl⟩ := pure_ok h
  exact ⟨c₁, c₂, execute_ok hbegin, (statement_ok hbegin).2, hm, execute_ok hcommit⟩

/-- What every element's step preserves, the whole loop preserves. -/
theorem each_ok {f : α → Sql ε σ ι Unit} {I : Conn σ ι → Prop} {items : List α} {u : Unit}
    (step : ∀ a ∈ items, ∀ c c' u, I c → (f a).run c = (.ok u, c') → I c')
    (h : (each f items).run c = (.ok u, c')) (initial : I c) : I c' := by
  induction items generalizing c with
  | nil =>
    obtain ⟨-, rfl⟩ := pure_ok h
    exact initial
  | cons a rest ih =>
    obtain ⟨_, c₁, ha, hrest⟩ := bind_ok h
    exact ih (fun b hb => step b (List.mem_cons_of_mem a hb)) hrest
      (step a List.mem_cons_self c c₁ _ initial ha)

/-- A loop whose invariant knows which elements are still to come. -/
theorem eachLeft_ok {f : α → Sql ε σ ι Unit} {I : List α → Conn σ ι → Prop} {items : List α}
    {u : Unit} (step : ∀ a rest c c' u, I (a :: rest) c → (f a).run c = (.ok u, c') → I rest c')
    (h : (each f items).run c = (.ok u, c')) (initial : I items c) : I [] c' := by
  induction items generalizing c with
  | nil =>
    obtain ⟨-, rfl⟩ := pure_ok h
    exact initial
  | cons a rest ih =>
    obtain ⟨_, c₁, ha, hrest⟩ := bind_ok h
    exact ih hrest (step a rest c c₁ _ initial ha)

/-- Where a loop first makes a property of the contents true. -/
theorem each_first {f : α → Sql ε σ ι Unit} {P : σ → Prop} {items : List α} {u : Unit}
    (h : (each f items).run c = (.ok u, c')) (hbefore : ¬ P c.db) (hafter : P c'.db) :
    ∃ (n : Nat) (a : α) (d d' : Conn σ ι), items[n]? = some a ∧
      (each f (items.take n)).run c = (.ok (), d) ∧ (f a).run d = (.ok (), d') ∧
      ¬ P d.db ∧ P d'.db := by
  induction items generalizing c with
  | nil =>
    obtain ⟨-, rfl⟩ := pure_ok h
    exact absurd hafter hbefore
  | cons a rest ih =>
    obtain ⟨_, c₁, ha, hrest⟩ := bind_ok h
    by_cases hfirst : P c₁.db
    · exact ⟨0, a, c, c₁, rfl, rfl, ha, hbefore, hfirst⟩
    · obtain ⟨n, b, d, d', hget, htake, hb, hnot, hp⟩ := ih hrest hfirst
      refine ⟨n + 1, b, d, d', hget, ?_, hb, hnot, hp⟩
      exact bind_run_ok ha htake

/-- A result reached in spite of faults is the result without them. -/
theorem run_calm {m : Sql ε σ ι α} (h : m.run c = (.ok a, c')) :
    m.run c.calm = (.ok a, c'.calm) := by
  have hm := m.steady c
  rw [h] at hm
  rcases hm with hm | ⟨hr, hc⟩
  · simp at hm
  · exact Prod.ext hr.symm hc.symm

/-- An error is the storage error or the error without faults. -/
theorem error_calm {m : Sql ε σ ι α} (h : m.run c = (.error e, c')) :
    e = StorageError.unavailable ∨ (m.run c.calm).1 = .error e := by
  have hm := m.steady c
  rw [h] at hm
  rcases hm with hm | ⟨hr, -⟩
  · exact Or.inl (by simpa using hm)
  · exact Or.inr hr.symm

end Inversion

section Errors

variable {m : Sql ε σ ι α} {f : α → Sql ε σ ι β}

def Reads (m : Sql ε σ ι α) : Prop := ∀ c, (m.run c).2.db = c.db

def Aborts (m : Sql ε σ ι α) : Prop := ∀ c e c', m.run c = (.error e, c') → c'.db = c.db

theorem Reads.ok {c c' : Conn σ ι} {a : α} (hm : Reads m) (h : m.run c = (.ok a, c')) :
    c'.db = c.db := by
  have := hm c
  rwa [h] at this

theorem Reads.pure {a : α} : Reads (Pure.pure a : Sql ε σ ι α) := fun _ => rfl

theorem Reads.throw {e : ε} : Reads (Sql.throw e : Sql ε σ ι α) := fun _ => rfl

theorem Reads.bind (hm : Reads m) (hf : ∀ a, Reads (f a)) : Reads (m >>= f) := by
  intro c
  have hread := hm c
  change ((Sql.bind m f).run c).2.db = c.db
  simp only [Sql.bind]
  rcases hrun : m.run c with ⟨_ | a, c'⟩
  · simpa [hrun] using hread
  · exact (hf a c').trans (by simpa [hrun] using hread)

theorem Reads.query {g : σ → α} : Reads (query g : Sql ε σ ι α) := by
  intro c
  simp only [Sql.query, Sql.statement]
  split <;> rfl

theorem Reads.require {ok : Bool} {e : ε} : Reads (require ok e : Sql ε σ ι Unit) := by
  cases ok
  · exact Reads.throw
  · exact Reads.pure

theorem Reads.lift {r : Except ε α} : Reads (lift r : Sql ε σ ι α) := by
  cases r
  · exact Reads.throw
  · exact Reads.pure

theorem Reads.orThrow {o : Option α} {e : ε} : Reads (orThrow e o : Sql ε σ ι α) := by
  cases o
  · exact Reads.throw
  · exact Reads.pure

theorem Reads.aborts (hm : Reads m) : Aborts m := by
  intro c e c' h
  have := hm c
  rwa [h] at this

theorem Aborts.statement {g : σ → Option (α × σ)} : Aborts (statement g : Sql ε σ ι α) := by
  intro c e c' h
  simp only [Sql.statement] at h
  split at h
  · rw [Prod.mk.injEq] at h
    rw [← h.2]
  · split at h
    · simp at h
    · rw [Prod.mk.injEq] at h
      rw [← h.2]

theorem Aborts.execute {g : σ → σ} : Aborts (execute g : Sql ε σ ι Unit) := Aborts.statement

theorem Aborts.transaction : Aborts (transaction m) := fun _ _ _ h => transaction_error h

/-- Only the last step of a computation writes. -/
theorem Aborts.bind (hm : Reads m) (hf : ∀ a, Aborts (f a)) : Aborts (m >>= f) := by
  intro c e c' h
  rcases bind_error h with hrun | ⟨a, c₁, hrun, h⟩
  · exact hm.aborts c e c' hrun
  · exact (hf a c₁ e c' h).trans (hm.ok hrun)

/-- A computation that writes nothing when nothing fails gives its answer or the
storage error, and writes nothing. -/
theorem Aborts.answers {r : Except ε α} {c : Conn σ ι} (hm : Aborts m)
    (h : m.run c.calm = (r, c.calm)) :
    (m.run c).2.db = c.db ∧ ((m.run c).1 = r ∨ (m.run c).1 = .error StorageError.unavailable) := by
  rcases hrun : m.run c with ⟨e | a, c'⟩
  · refine ⟨hm _ _ _ hrun, ?_⟩
    rcases error_calm hrun with he | he
    · exact Or.inr (congrArg Except.error he)
    · rw [h] at he
      exact Or.inl he.symm
  · have hsame := run_calm hrun
    rw [h, Prod.mk.injEq] at hsame
    exact ⟨(congrArg Conn.db hsame.2).symm, Or.inl hsame.1.symm⟩

theorem Aborts.map {g : α → β} (hm : Aborts m) : Aborts (do let a ← m; return g a) := by
  intro c e c' h
  rcases bind_error h with hrun | ⟨a, c₁, -, h⟩
  · exact hm c e c' hrun
  · simp at h

end Errors

section Calm

variable {db : σ} {fresh : List ι}

theorem bind_run {m : Sql ε σ ι α} {f : α → Sql ε σ ι β} {c : Conn σ ι} :
    (m >>= f).run c = match m.run c with
      | (.ok a, c') => (f a).run c'
      | (.error e, c') => (.error e, c') := rfl

theorem statement_run_calm {f : σ → Option (α × σ)} :
    (statement f : Sql ε σ ι α).run ⟨db, [], fresh⟩ = match f db with
      | some (a, db') => (.ok a, ⟨db', [], fresh⟩)
      | none => (.error StorageError.unavailable, ⟨db, [], fresh⟩) := rfl

@[simp] theorem query_run_calm {f : σ → α} :
    (query f : Sql ε σ ι α).run ⟨db, [], fresh⟩ = (.ok (f db), ⟨db, [], fresh⟩) := rfl

@[simp] theorem execute_run_calm {f : σ → σ} :
    (execute f : Sql ε σ ι Unit).run ⟨db, [], fresh⟩ = (.ok (), ⟨f db, [], fresh⟩) := rfl

@[simp] theorem throw_run {e : ε} {c : Conn σ ι} :
    (Sql.throw e : Sql ε σ ι α).run c = (.error e, c) := rfl

@[simp] theorem require_run {ok : Bool} {e : ε} {c : Conn σ ι} :
    (require ok e : Sql ε σ ι Unit).run c = (if ok then .ok () else .error e, c) := by
  cases ok <;> rfl

@[simp] theorem lift_run {r : Except ε α} {c : Conn σ ι} :
    (lift r : Sql ε σ ι α).run c = (r, c) := by
  cases r <;> rfl

@[simp] theorem orThrow_run {o : Option α} {e : ε} {c : Conn σ ι} :
    (orThrow e o : Sql ε σ ι α).run c = (o.elim (.error e) .ok, c) := by
  cases o <;> rfl

theorem transaction_run_calm {m : Sql ε σ ι α} :
    (transaction m).run ⟨db, [], fresh⟩ =
      match m.run ⟨db, [], fresh⟩ with
      | (.ok a, c') => (.ok a, c')
      | (.error e, c') => (.error e, { c' with db := db }) := by
  simp only [transaction, restoring, bind_run, execute_run_calm, id_eq]
  rcases h : m.run ⟨db, [], fresh⟩ with ⟨_ | a, c'⟩
  · rfl
  · obtain ⟨db', faults, fresh'⟩ := c'
    have hfaults : faults = [] := by simpa [h, Conn.calm] using run_calm h
    subst hfaults
    rfl

end Calm

section Laws

variable {γ : Type}

theorem ext {m m' : Sql ε σ ι α} (h : ∀ c, m.run c = m'.run c) : m = m' := by
  obtain ⟨run, _⟩ := m
  obtain ⟨run', _⟩ := m'
  obtain rfl : run = run' := funext h
  rfl

theorem pure_bind {a : α} {f : α → Sql ε σ ι β} : (Pure.pure a >>= f) = f a := rfl

theorem bind_assoc {m : Sql ε σ ι α} {f : α → Sql ε σ ι β} {g : β → Sql ε σ ι γ} :
    (m >>= f >>= g) = m >>= fun a => f a >>= g := by
  refine ext fun c => ?_
  simp only [bind_run]
  rcases m.run c with ⟨_ | a, c'⟩ <;> rfl

end Laws

end Sql

end Library
