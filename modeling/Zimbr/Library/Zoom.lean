import Zimbr.Library.Sql

set_option autoImplicit false

/-!
# Part of a state

A computation on one part of a larger state, the variables beside the database,
and the views of the state that a computation leaves as they are.
-/
namespace Library.Sql

variable {ε σ τ ι α β ω : Type} [StorageError ε]

/-- Run on the part of the state that `get` reads and `set` writes back. -/
def zoom (get : τ → σ) (set : τ → σ → τ) (m : Sql ε σ ι α) : Sql ε τ ι α where
  run c :=
    match m.run { db := get c.db, faults := c.faults, fresh := c.fresh } with
    | (result, c') => (result, { db := set c.db c'.db, faults := c'.faults, fresh := c'.fresh })
  steady c := by
    rcases m.steady { db := get c.db, faults := c.faults, fresh := c.fresh } with h | ⟨hr, hc⟩
    · exact Or.inl h
    · refine Or.inr ⟨hr, ?_⟩
      have hdb := congrArg Conn.db hc
      have hfresh := congrArg Conn.fresh hc
      simp only [Conn.calm_db, Conn.calm_fresh] at hdb hfresh
      simp only [Conn.calm, hdb, hfresh] at hc ⊢
      exact congrArg (fun c₁ : Conn σ ι => (⟨set c.db c₁.db, c₁.faults, c₁.fresh⟩ : Conn τ ι)) hc

/-- Rename the errors; a storage failure stays one. -/
def mapError {ε' : Type} [StorageError ε'] (f : ε → ε')
    (hf : f StorageError.unavailable = StorageError.unavailable) (m : Sql ε σ ι α) :
    Sql ε' σ ι α where
  run c := ((m.run c).1.mapError f, (m.run c).2)
  steady c := by
    rcases m.steady c with h | ⟨hr, hc⟩
    · refine Or.inl ?_
      rw [h, ← hf]
      rfl
    · exact Or.inr ⟨by rw [hr], hc⟩

/-- Read a variable; unlike a query this cannot fail. -/
def peek (f : σ → α) : Sql ε σ ι α where
  run c := (.ok (f c.db), c)
  steady _ := Or.inr ⟨rfl, rfl⟩

def note (f : σ → σ) : Sql ε σ ι Unit where
  run c := (.ok (), { c with db := f c.db })
  steady _ := Or.inr ⟨rfl, rfl⟩

section Inversion

variable {c : Conn τ ι} {c' : Conn τ ι} {get : τ → σ} {set : τ → σ → τ}

theorem zoom_ok {m : Sql ε σ ι α} {a : α} (h : (zoom get set m).run c = (.ok a, c')) :
    ∃ c₁, m.run { db := get c.db, faults := c.faults, fresh := c.fresh } = (.ok a, c₁) ∧
      c'.db = set c.db c₁.db ∧ c'.fresh = c₁.fresh := by
  obtain ⟨hresult, hconn⟩ := Prod.mk.inj h
  exact ⟨_, Prod.ext hresult rfl, by rw [← hconn], by rw [← hconn]⟩

theorem mapError_ok {ε' : Type} [StorageError ε'] {f : ε → ε'}
    {hf : f StorageError.unavailable = StorageError.unavailable} {m : Sql ε τ ι α} {a : α}
    (h : (mapError f hf m).run c = (.ok a, c')) : m.run c = (.ok a, c') := by
  obtain ⟨hresult, hconn⟩ := Prod.mk.inj h
  refine Prod.ext ?_ hconn
  cases hrun : (m.run c).1 with
  | error e =>
    rw [hrun] at hresult
    cases hresult
  | ok b =>
    rw [hrun] at hresult
    exact congrArg Except.ok (Except.ok.inj hresult)

theorem peek_ok {f : τ → α} {a : α} (h : (peek f : Sql ε τ ι α).run c = (.ok a, c')) :
    a = f c.db ∧ c' = c := by
  rw [peek, Prod.mk.injEq, Except.ok.injEq] at h
  exact ⟨h.1.symm, h.2.symm⟩

theorem note_ok {f : τ → τ} {u : Unit} (h : (note f : Sql ε τ ι Unit).run c = (.ok u, c')) :
    c' = { c with db := f c.db } := by
  rw [note, Prod.mk.injEq] at h
  exact h.2.symm

end Inversion

/-- The view `f` of the contents stays, whatever the outcome. -/
def Keeps (f : σ → ω) (m : Sql ε σ ι α) : Prop := ∀ c, f (m.run c).2.db = f c.db

namespace Keeps

variable {f : σ → ω} {m : Sql ε σ ι α}

theorem run {r : Except ε α} {c c' : Conn σ ι} (hm : Keeps f m) (h : m.run c = (r, c')) :
    f c'.db = f c.db := by
  have hkeeps := hm c
  rwa [h] at hkeeps

theorem comp {υ : Type} (hm : Keeps f m) (g : ω → υ) : Keeps (fun s => g (f s)) m :=
  fun c => congrArg g (hm c)

theorem of_reads (hm : Reads m) : Keeps f m := fun c => congrArg f (hm c)

theorem of_ok (hm : Aborts m) (hok : ∀ c a c', m.run c = (.ok a, c') → f c'.db = f c.db) :
    Keeps f m := by
  intro c
  rcases hrun : m.run c with ⟨e | a, c'⟩
  · exact congrArg f (hm c e c' hrun)
  · exact hok c a c' hrun

theorem pure {a : α} : Keeps f (Pure.pure a : Sql ε σ ι α) := fun _ => rfl

theorem throw {e : ε} : Keeps f (Sql.throw e : Sql ε σ ι α) := fun _ => rfl

theorem bind {k : α → Sql ε σ ι β} (hm : Keeps f m) (hk : ∀ a, Keeps f (k a)) :
    Keeps f (m >>= k) := by
  intro c
  rw [bind_run]
  rcases hrun : m.run c with ⟨_ | a, c'⟩
  · exact hm.run hrun
  · exact (hk a c').trans (hm.run hrun)

theorem statement {g : σ → Option (α × σ)} (hg : ∀ s a s', g s = some (a, s') → f s' = f s) :
    Keeps f (Sql.statement g : Sql ε σ ι α) := by
  intro c
  simp only [Sql.statement]
  split
  · rfl
  · split
    · next hs => exact hg _ _ _ hs
    · rfl

theorem query {g : σ → α} : Keeps f (Sql.query g : Sql ε σ ι α) := by
  refine statement fun s a s' hs => ?_
  rw [Option.some.injEq, Prod.mk.injEq] at hs
  rw [hs.2]

theorem execute {g : σ → σ} (hg : ∀ s, f (g s) = f s) :
    Keeps f (Sql.execute g : Sql ε σ ι Unit) := by
  refine statement fun s a s' hs => ?_
  rw [Option.some.injEq, Prod.mk.injEq] at hs
  rw [← hs.2, hg]

theorem execute? {g : σ → Option σ} (hg : ∀ s s', g s = some s' → f s' = f s) :
    Keeps f (Sql.execute? g : Sql ε σ ι Unit) := by
  refine statement fun s a s' hs => ?_
  obtain ⟨s₁, hs₁, hpair⟩ := Option.map_eq_some_iff.mp hs
  rw [Prod.mk.injEq] at hpair
  rw [← hpair.2]
  exact hg s s₁ hs₁

theorem require {ok : Bool} {e : ε} : Keeps f (Sql.require ok e : Sql ε σ ι Unit) := by
  cases ok
  · exact throw
  · exact pure

theorem lift {r : Except ε α} : Keeps f (Sql.lift r : Sql ε σ ι α) := by
  cases r
  · exact throw
  · exact pure

theorem orThrow {o : Option α} {e : ε} : Keeps f (Sql.orThrow e o : Sql ε σ ι α) := by
  cases o
  · exact throw
  · exact pure

theorem draw {e : ε} : Keeps f (Sql.draw e : Sql ε σ ι ι) := by
  intro c
  simp only [Sql.draw]
  split <;> rfl

theorem each {k : α → Sql ε σ ι Unit} {items : List α} (hk : ∀ a ∈ items, Keeps f (k a)) :
    Keeps f (Sql.each k items) := by
  induction items with
  | nil => exact pure
  | cons a rest ih =>
    exact bind (hk a List.mem_cons_self) fun _ =>
      ih fun b hb => hk b (List.mem_cons_of_mem a hb)

theorem peek {g : σ → α} : Keeps f (Sql.peek g : Sql ε σ ι α) := fun _ => rfl

theorem note {g : σ → σ} (hg : ∀ s, f (g s) = f s) : Keeps f (Sql.note g : Sql ε σ ι Unit) :=
  fun c => hg c.db

theorem transaction (hm : Keeps f m) : Keeps f (Sql.transaction m) := by
  intro c
  rcases hrun : (Sql.transaction m).run c with ⟨e | a, c'⟩
  · exact congrArg f (Sql.transaction_error hrun)
  · obtain ⟨c₁, c₂, hdb₁, -, hbody, hdb₂⟩ := Sql.transaction_ok hrun
    dsimp only
    rw [hdb₂, hm.run hbody, hdb₁]

theorem mono {ψ : Type} {g : σ → ψ} (hm : Keeps f m) (hg : ∀ s s', f s' = f s → g s' = g s) :
    Keeps g m := fun c => hg _ _ (hm c)

theorem zoom {ψ : Type} {get : τ → σ} {set : τ → σ → τ} {g : τ → ψ} (hm : Keeps f m)
    (hg : ∀ t s, f s = f (get t) → g (set t s) = g t) : Keeps g (Sql.zoom get set m) := by
  intro c
  exact hg c.db _ (hm _)

end Keeps

section After

variable {P : σ → Prop} {m : Sql ε σ ι α} {c : Conn σ ι}

/-- What holds after both parts of a computation, whatever its outcome. -/
theorem bind_after {k : α → Sql ε σ ι β} (hm : P (m.run c).2.db)
    (hk : ∀ a c', m.run c = (.ok a, c') → P c'.db → P ((k a).run c').2.db) :
    P ((m >>= k).run c).2.db := by
  rw [bind_run]
  rcases hrun : m.run c with ⟨_ | a, c'⟩
  · rw [hrun] at hm
    exact hm
  · rw [hrun] at hm
    exact hk a c' hrun hm

theorem query_after {g : σ → α} {k : α → Sql ε σ ι β} (hc : P c.db)
    (hk : ∀ c' : Conn σ ι, c'.db = c.db → P ((k (g c.db)).run c').2.db) :
    P ((Sql.query g >>= k).run c).2.db := by
  refine bind_after ?_ fun a c' hrun _ => ?_
  · rw [Reads.query c]
    exact hc
  · obtain ⟨rfl, hdb⟩ := query_ok hrun
    exact hk c' hdb

theorem require_after {ok : Bool} {e : ε} {k : Unit → Sql ε σ ι β} (hc : P c.db)
    (hk : ok = true → P ((k ()).run c).2.db) : P ((Sql.require ok e >>= k).run c).2.db := by
  cases ok with
  | false => exact hc
  | true => exact hk rfl

theorem peek_after {g : σ → α} {k : α → Sql ε σ ι β} (hk : P ((k (g c.db)).run c).2.db) :
    P ((Sql.peek g >>= k).run c).2.db := hk

theorem note_after {g : σ → σ} {k : Unit → Sql ε σ ι β}
    (hk : P ((k ()).run { c with db := g c.db }).2.db) : P ((Sql.note g >>= k).run c).2.db := hk

theorem lift_after {r : Except ε α} {k : α → Sql ε σ ι β} (hc : P c.db)
    (hk : ∀ a, r = .ok a → P ((k a).run c).2.db) : P ((Sql.lift r >>= k).run c).2.db := by
  cases r with
  | error e => exact hc
  | ok a => exact hk a rfl

theorem reads_after {k : α → Sql ε σ ι β} (hm : Reads m) (hc : P c.db)
    (hk : ∀ a c', m.run c = (.ok a, c') → c'.db = c.db → P ((k a).run c').2.db) :
    P ((m >>= k).run c).2.db :=
  bind_after (by rw [hm c]; exact hc) fun a c' hrun _ => hk a c' hrun (hm.ok hrun)

theorem statement_after {g : σ → Option (α × σ)} (hc : P c.db)
    (hg : ∀ a s, g c.db = some (a, s) → P s) :
    P ((Sql.statement g : Sql ε σ ι α).run c).2.db := by
  rcases hrun : (Sql.statement g : Sql ε σ ι α).run c with ⟨e | a, c'⟩
  · rw [Aborts.statement c e c' hrun]
    exact hc
  · exact hg a c'.db (statement_ok hrun).1

theorem execute_after {g : σ → σ} (hc : P c.db) (hg : P (g c.db)) :
    P ((Sql.execute g : Sql ε σ ι Unit).run c).2.db := by
  rcases hrun : (Sql.execute g : Sql ε σ ι Unit).run c with ⟨e | _, c'⟩
  · rw [Aborts.execute c e c' hrun]
    exact hc
  · rw [execute_ok hrun]
    exact hg

theorem execute?_after {g : σ → Option σ} (hc : P c.db) (hg : ∀ s, g c.db = some s → P s) :
    P ((Sql.execute? g : Sql ε σ ι Unit).run c).2.db := by
  rcases hrun : (Sql.execute? g : Sql ε σ ι Unit).run c with ⟨e | _, c'⟩
  · rw [Aborts.statement c e c' hrun]
    exact hc
  · exact hg _ (execute?_ok hrun)

theorem transaction_after (hc : P c.db)
    (hm : ∀ c₁ a c₂, c₁.db = c.db → m.run c₁ = (.ok a, c₂) → P c₂.db) :
    P ((Sql.transaction m).run c).2.db := by
  rcases hrun : (Sql.transaction m).run c with ⟨e | a, c'⟩
  · rw [transaction_error hrun]
    exact hc
  · obtain ⟨c₁, c₂, hdb₁, -, hbody, hdb₂⟩ := transaction_ok hrun
    dsimp only
    rw [hdb₂]
    exact hm c₁ a c₂ hdb₁ hbody

end After

/-- A property of the contents stays once it holds, whatever the outcome. -/
def Stays (P : σ → Prop) (m : Sql ε σ ι α) : Prop := ∀ c, P c.db → P (m.run c).2.db

namespace Stays

variable {P : σ → Prop} {m : Sql ε σ ι α}

theorem run {r : Except ε α} {c c' : Conn σ ι} (hm : Stays P m) (h : m.run c = (r, c'))
    (hc : P c.db) : P c'.db := by
  have hstays := hm c hc
  rwa [h] at hstays

theorem of_keeps {f : σ → ω} (hm : Keeps f m) (hf : ∀ s s', f s' = f s → P s → P s') : Stays P m :=
  fun c hc => hf _ _ (hm c) hc

theorem bind {k : α → Sql ε σ ι β} (hm : Stays P m) (hk : ∀ a, Stays P (k a)) :
    Stays P (m >>= k) := by
  intro c hc
  rw [bind_run]
  rcases hrun : m.run c with ⟨_ | a, c'⟩
  · exact hm.run hrun hc
  · exact hk a c' (hm.run hrun hc)

theorem bind_of {R : α → Prop} {k : α → Sql ε σ ι β} (hm : Stays P m)
    (hr : ∀ c a c', P c.db → m.run c = (.ok a, c') → R a) (hk : ∀ a, R a → Stays P (k a)) :
    Stays P (m >>= k) := by
  intro c hc
  rw [bind_run]
  rcases hrun : m.run c with ⟨_ | a, c'⟩
  · exact hm.run hrun hc
  · exact hk a (hr c a c' hc hrun) c' (hm.run hrun hc)

theorem each {k : α → Sql ε σ ι Unit} {items : List α} (hk : ∀ a ∈ items, Stays P (k a)) :
    Stays P (Sql.each k items) := by
  induction items with
  | nil => exact fun c hc => hc
  | cons a rest ih =>
    exact bind (hk a List.mem_cons_self) fun _ => ih fun b hb => hk b (List.mem_cons_of_mem a hb)

theorem lift {r : Except ε α} {k : α → Sql ε σ ι β} (hk : ∀ a, r = .ok a → Stays P (k a)) :
    Stays P (Sql.lift r >>= k) := by
  cases r with
  | error e => exact fun c hc => hc
  | ok a => exact hk a rfl

end Stays

/-- A property of the contents stays once it holds, while the identifiers ahead
have a property of theirs. -/
def Safe (P : σ → Prop) (F : ι → Prop) (m : Sql ε σ ι α) : Prop :=
  ∀ c, P c.db → (∀ i ∈ c.fresh, F i) → P (m.run c).2.db ∧ ∀ i ∈ (m.run c).2.fresh, F i

namespace Safe

variable {P : σ → Prop} {F : ι → Prop} {m : Sql ε σ ι α}

theorem pure {a : α} : Safe P F (Pure.pure a : Sql ε σ ι α) := fun _ hc hf => ⟨hc, hf⟩

theorem throw {e : ε} : Safe P F (Sql.throw e : Sql ε σ ι α) := fun _ hc hf => ⟨hc, hf⟩

theorem run {r : Except ε α} {c c' : Conn σ ι} (hm : Safe P F m) (h : m.run c = (r, c'))
    (hc : P c.db) (hf : ∀ i ∈ c.fresh, F i) : P c'.db ∧ ∀ i ∈ c'.fresh, F i := by
  have hsafe := hm c hc hf
  rwa [h] at hsafe

theorem bind_of {R : α → Prop} {k : α → Sql ε σ ι β} (hm : Safe P F m)
    (hr : ∀ c a c', P c.db → (∀ i ∈ c.fresh, F i) → m.run c = (.ok a, c') → R a)
    (hk : ∀ a, R a → Safe P F (k a)) : Safe P F (m >>= k) := by
  intro c hc hf
  have hafter := hm c hc hf
  rw [bind_run]
  rcases hrun : m.run c with ⟨_ | a, c'⟩
  · rw [hrun] at hafter
    exact hafter
  · rw [hrun] at hafter
    exact hk a (hr c a c' hc hf hrun) c' hafter.1 hafter.2

theorem bind {k : α → Sql ε σ ι β} (hm : Safe P F m) (hk : ∀ a, Safe P F (k a)) :
    Safe P F (m >>= k) :=
  bind_of (R := fun _ => True) hm (fun _ _ _ _ _ _ => trivial) fun a _ => hk a

theorem statement {g : σ → Option (α × σ)} (hg : ∀ s a s', P s → g s = some (a, s') → P s') :
    Safe P F (Sql.statement g : Sql ε σ ι α) := by
  intro c hc hf
  simp only [Sql.statement]
  split
  · exact ⟨hc, hf⟩
  · split
    · next hs => exact ⟨hg _ _ _ hc hs, hf⟩
    · exact ⟨hc, hf⟩

theorem query {g : σ → α} : Safe P F (Sql.query g : Sql ε σ ι α) := by
  refine statement fun s a s' hs hpair => ?_
  rw [Option.some.injEq, Prod.mk.injEq] at hpair
  rw [← hpair.2]
  exact hs

theorem execute {g : σ → σ} (hg : ∀ s, P s → P (g s)) :
    Safe P F (Sql.execute g : Sql ε σ ι Unit) := by
  refine statement fun s a s' hs hpair => ?_
  rw [Option.some.injEq, Prod.mk.injEq] at hpair
  rw [← hpair.2]
  exact hg s hs

theorem execute? {g : σ → Option σ} (hg : ∀ s s', P s → g s = some s' → P s') :
    Safe P F (Sql.execute? g : Sql ε σ ι Unit) := by
  refine statement fun s a s' hs hmap => ?_
  obtain ⟨s₁, hs₁, hpair⟩ := Option.map_eq_some_iff.mp hmap
  rw [Prod.mk.injEq] at hpair
  rw [← hpair.2]
  exact hg s s₁ hs hs₁

theorem require {ok : Bool} {e : ε} : Safe P F (Sql.require ok e : Sql ε σ ι Unit) := by
  cases ok
  · exact throw
  · exact pure

theorem lift {r : Except ε α} : Safe P F (Sql.lift r : Sql ε σ ι α) := by
  cases r
  · exact throw
  · exact pure

theorem draw {e : ε} : Safe P F (Sql.draw e : Sql ε σ ι ι) := by
  intro c hc hf
  simp only [Sql.draw]
  split
  · next i rest hfresh =>
    exact ⟨hc, fun i hi => hf i (hfresh ▸ List.mem_cons_of_mem _ hi)⟩
  · exact ⟨hc, hf⟩

theorem each {k : α → Sql ε σ ι Unit} {items : List α} (hk : ∀ a ∈ items, Safe P F (k a)) :
    Safe P F (Sql.each k items) := by
  induction items with
  | nil => exact pure
  | cons a rest ih =>
    exact bind (hk a List.mem_cons_self) fun _ =>
      ih fun b hb => hk b (List.mem_cons_of_mem a hb)

theorem orThrow {o : Option α} {e : ε} : Safe P F (Sql.orThrow e o : Sql ε σ ι α) := by
  cases o
  · exact throw
  · exact pure

theorem transaction (hm : Safe P F m) : Safe P F (Sql.transaction m) := by
  have hbody : Safe P F (do
      Sql.execute id
      let a ← m
      Sql.execute id
      return a : Sql ε σ ι α) :=
    bind (execute fun _ h => h) fun _ => bind hm fun _ => bind (execute fun _ h => h) fun _ => pure
  intro c hc hf
  have hafter := hbody c hc hf
  simp only [Sql.transaction, Sql.restoring]
  split
  · next hrun =>
    rw [hrun] at hafter
    exact hafter
  · next hrun =>
    rw [hrun] at hafter
    exact ⟨hc, hafter.2⟩

/-- What follows a query may keep a finer property of the contents that were found. -/
theorem query_of {g : σ → α} {k : α → Sql ε σ ι β}
    (hk : ∀ s, P s → ∃ Q : σ → Prop, Q s ∧ (∀ s', Q s' → P s') ∧ Safe Q F (k (g s))) :
    Safe P F (Sql.query g >>= k) := by
  intro c hc hf
  have hafter := (query : Safe P F (Sql.query g : Sql ε σ ι α)) c hc hf
  rw [bind_run]
  rcases hrun : (Sql.query g : Sql ε σ ι α).run c with ⟨_ | a, c'⟩
  · rw [hrun] at hafter
    exact hafter
  · rw [hrun] at hafter
    obtain ⟨rfl, hdb⟩ := query_ok hrun
    obtain ⟨Q, hQ, hP, hsafe⟩ := hk c.db hc
    obtain ⟨hlast, hfresh⟩ := hsafe c' (hdb ▸ hQ) hafter.2
    exact ⟨hP _ hlast, hfresh⟩

theorem of_stays (hf : Safe (fun _ => True) F m) (hm : Stays P m) : Safe P F m :=
  fun c hc hfresh => ⟨hm c hc, (hf c trivial hfresh).2⟩

/-- What a computation makes of a part of the state does not matter for the whole. -/
theorem zoom {get : τ → σ} {set : τ → σ → τ} {P : τ → Prop} {m : Sql ε σ ι α}
    (hm : Safe (fun _ => True) F m) (hset : ∀ t s, P t → P (set t s)) :
    Safe P F (Sql.zoom get set m) := by
  intro c hc hf
  exact ⟨hset _ _ hc, (hm { db := get c.db, faults := c.faults, fresh := c.fresh } trivial hf).2⟩

end Safe

/-- The contents only move along a preorder, whatever the outcome. -/
def Advances (R : σ → σ → Prop) (m : Sql ε σ ι α) : Prop := ∀ c, R c.db (m.run c).2.db

namespace Advances

variable {R : σ → σ → Prop} {m : Sql ε σ ι α}

theorem run {r : Except ε α} {c c' : Conn σ ι} (hm : Advances R m) (h : m.run c = (r, c')) :
    R c.db c'.db := by
  have hmoved := hm c
  rwa [h] at hmoved

theorem of_keeps {f : σ → ω} (hm : Keeps f m) (hf : ∀ s s', f s' = f s → R s s') :
    Advances R m := fun c => hf _ _ (hm c)

theorem note {g : σ → σ} (hg : ∀ s, R s (g s)) : Advances R (Sql.note g : Sql ε σ ι Unit) :=
  fun c => hg c.db

theorem bind [IsTrans σ R] {k : α → Sql ε σ ι β} (hm : Advances R m) (hk : ∀ a, Advances R (k a)) :
    Advances R (m >>= k) := by
  intro c
  rw [bind_run]
  rcases hrun : m.run c with ⟨_ | a, c'⟩
  · exact hm.run hrun
  · exact IsTrans.trans _ _ _ (hm.run hrun) (hk a c')

variable [Std.Refl R]

theorem of_reads (hm : Reads m) : Advances R m := by
  intro c
  rw [hm c]
  exact Std.Refl.refl c.db

theorem pure {a : α} : Advances R (Pure.pure a : Sql ε σ ι α) := fun c => Std.Refl.refl c.db

theorem throw {e : ε} : Advances R (Sql.throw e : Sql ε σ ι α) := fun c => Std.Refl.refl c.db

theorem statement {g : σ → Option (α × σ)} (hg : ∀ s a s', g s = some (a, s') → R s s') :
    Advances R (Sql.statement g : Sql ε σ ι α) := by
  intro c
  simp only [Sql.statement]
  split
  · exact Std.Refl.refl c.db
  · split
    · next hs => exact hg _ _ _ hs
    · exact Std.Refl.refl c.db

theorem query {g : σ → α} : Advances R (Sql.query g : Sql ε σ ι α) :=
  of_keeps (f := id) Keeps.query fun s s' h => by
    rw [id_eq, id_eq] at h
    rw [h]
    exact Std.Refl.refl s

theorem execute {g : σ → σ} (hg : ∀ s, R s (g s)) :
    Advances R (Sql.execute g : Sql ε σ ι Unit) := by
  refine statement fun s a s' hs => ?_
  rw [Option.some.injEq, Prod.mk.injEq] at hs
  rw [← hs.2]
  exact hg s

theorem require {ok : Bool} {e : ε} : Advances R (Sql.require ok e : Sql ε σ ι Unit) := by
  cases ok
  · exact throw
  · exact pure

theorem lift {r : Except ε α} : Advances R (Sql.lift r : Sql ε σ ι α) := by
  cases r
  · exact throw
  · exact pure

theorem orThrow {o : Option α} {e : ε} : Advances R (Sql.orThrow e o : Sql ε σ ι α) := by
  cases o
  · exact throw
  · exact pure

theorem transaction (hm : Advances R m) : Advances R (Sql.transaction m) := by
  intro c
  rcases hrun : (Sql.transaction m).run c with ⟨e | a, c'⟩
  · rw [transaction_error hrun]
    exact Std.Refl.refl c.db
  · obtain ⟨c₁, c₂, hdb₁, -, hbody, hdb₂⟩ := transaction_ok hrun
    have hmoved := hm.run hbody
    rw [hdb₁, ← hdb₂] at hmoved
    exact hmoved

theorem query_bind {g : σ → α} {k : α → Sql ε σ ι β}
    (hk : ∀ c : Conn σ ι, R c.db ((k (g c.db)).run c).2.db) :
    Advances R (Sql.query g >>= k) := by
  intro c
  rw [bind_run]
  rcases hrun : (Sql.query g : Sql ε σ ι α).run c with ⟨_ | a, c'⟩
  · exact query.run hrun
  · obtain ⟨rfl, hdb⟩ := query_ok hrun
    have hnext := hk c'
    rw [hdb] at hnext
    exact hnext

theorem each [IsTrans σ R] {k : α → Sql ε σ ι Unit} {items : List α} (hk : ∀ a ∈ items, Advances R (k a)) :
    Advances R (Sql.each k items) := by
  induction items with
  | nil => exact pure
  | cons a rest ih =>
    exact bind (hk a List.mem_cons_self) fun _ =>
      ih fun b hb => hk b (List.mem_cons_of_mem a hb)

end Advances

/-- A success moves the contents along a preorder. -/
def Yields (R : σ → σ → Prop) (m : Sql ε σ ι α) : Prop :=
  ∀ c a c', m.run c = (.ok a, c') → R c.db c'.db

namespace Yields

variable {R : σ → σ → Prop} {m : Sql ε σ ι α}

theorem of_keeps {f : σ → ω} (hm : Keeps f m) (hf : ∀ s s', f s' = f s → R s s') : Yields R m :=
  fun _ _ _ h => hf _ _ (hm.run h)

theorem mono {S : σ → σ → Prop} (hm : Yields R m) (hS : ∀ s s', R s s' → S s s') : Yields S m :=
  fun c a c' h => hS _ _ (hm c a c' h)

theorem note {g : σ → σ} (hg : ∀ s, R s (g s)) : Yields R (Sql.note g : Sql ε σ ι Unit) := by
  intro c a c' h
  rw [note_ok h]
  exact hg c.db

theorem execute {g : σ → σ} (hg : ∀ s, R s (g s)) : Yields R (Sql.execute g : Sql ε σ ι Unit) := by
  intro c a c' h
  rw [execute_ok h]
  exact hg c.db

theorem execute? {g : σ → Option σ} (hg : ∀ s s', g s = some s' → R s s') :
    Yields R (Sql.execute? g : Sql ε σ ι Unit) :=
  fun _ _ _ h => hg _ _ (execute?_ok h)

theorem throw {e : ε} : Yields R (Sql.throw e : Sql ε σ ι α) := fun _ _ _ h => (throw_ok h).elim

theorem bind [IsTrans σ R] {k : α → Sql ε σ ι β} (hm : Yields R m) (hk : ∀ a, Yields R (k a)) :
    Yields R (m >>= k) := by
  intro c b c' h
  obtain ⟨a, c₁, hrun, h⟩ := bind_ok h
  exact IsTrans.trans _ _ _ (hm c a c₁ hrun) (hk a c₁ b c' h)

theorem zoom {R' : τ → τ → Prop} {get : τ → σ} {set : τ → σ → τ} (hm : Yields R m)
    (hset : ∀ t s, R (get t) s → R' t (set t s)) : Yields R' (Sql.zoom get set m) := by
  intro c a c' h
  obtain ⟨d, hrun, hdb, -⟩ := zoom_ok h
  rw [hdb]
  exact hset _ _ (hm _ _ _ hrun)

theorem transaction (hm : Yields R m) : Yields R (Sql.transaction m) := by
  intro c a c' h
  obtain ⟨c₁, c₂, hdb₁, -, hbody, hdb₂⟩ := transaction_ok h
  have hmoved := hm _ _ _ hbody
  rwa [hdb₁, ← hdb₂] at hmoved

variable [Std.Refl R]

theorem of_reads (hm : Reads m) : Yields R m := by
  intro c a c' h
  rw [hm.ok h]
  exact Std.Refl.refl c.db

theorem pure {a : α} : Yields R (Pure.pure a : Sql ε σ ι α) := of_reads Reads.pure

theorem query {g : σ → α} : Yields R (Sql.query g : Sql ε σ ι α) := of_reads Reads.query

theorem peek {g : σ → α} : Yields R (Sql.peek g : Sql ε σ ι α) := of_reads fun _ => rfl

theorem lift {r : Except ε α} : Yields R (Sql.lift r : Sql ε σ ι α) := of_reads Reads.lift

theorem orThrow {o : Option α} {e : ε} : Yields R (Sql.orThrow e o : Sql ε σ ι α) :=
  of_reads Reads.orThrow

omit [Std.Refl R] in
theorem lift_bind {r : Except ε α} {k : α → Sql ε σ ι β} (hk : ∀ a, r = .ok a → Yields R (k a)) :
    Yields R (Sql.lift r >>= k) := by
  cases r with
  | error e => exact fun _ _ _ h => (throw_ok h).elim
  | ok a => exact hk a rfl

theorem each [IsTrans σ R] {k : α → Sql ε σ ι Unit} {items : List α}
    (hk : ∀ a ∈ items, Yields R (k a)) : Yields R (Sql.each k items) := by
  induction items with
  | nil => exact pure
  | cons a rest ih =>
    exact bind (hk a List.mem_cons_self) fun _ =>
      ih fun b hb => hk b (List.mem_cons_of_mem a hb)

end Yields

/-- A transaction that fails leaves the contents as they were. -/
theorem Advances.transaction_of_yields {R : σ → σ → Prop} [Std.Refl R] {m : Sql ε σ ι α}
    (hm : Yields R m) : Advances R (Sql.transaction m) := by
  intro c
  rcases hrun : (Sql.transaction m).run c with ⟨e | a, c'⟩
  · rw [transaction_error hrun]
    exact Std.Refl.refl c.db
  · exact hm.transaction c a c' hrun

/-- What leaves the contents where it fails moves them along a preorder in any case. -/
theorem Advances.of_yields {R : σ → σ → Prop} [Std.Refl R] {m : Sql ε σ ι α} (ha : Aborts m)
    (hm : Yields R m) : Advances R m := by
  intro c
  rcases hrun : m.run c with ⟨e | a, c'⟩
  · rw [ha c e c' hrun]
    exact Std.Refl.refl c.db
  · exact hm c a c' hrun

theorem draw_mem {e : ε} {c c' : Conn σ ι} {i : ι}
    (h : (Sql.draw e : Sql ε σ ι ι).run c = (.ok i, c')) : i ∈ c.fresh := by
  simp only [Sql.draw] at h
  split at h
  · next first rest hfresh =>
    rw [Prod.mk.injEq, Except.ok.injEq] at h
    rw [hfresh, h.1]
    exact List.mem_cons_self
  · cases (Prod.mk.inj h).1

end Library.Sql
