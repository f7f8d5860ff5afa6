import Zimbr.Library.Sql

set_option autoImplicit false

/-!
# Weakest preconditions

What must hold of the contents and of the identifiers ahead for a computation
that meets no failure to succeed and establish a postcondition. A success in
spite of failures is that same success, so it establishes it too.
-/
namespace Library.Sql

variable {ε σ ι α β : Type} [StorageError ε]

def wp (m : Sql ε σ ι α) (Q : α → σ → List ι → Prop) (db : σ) (fresh : List ι) : Prop :=
  ∃ a db' fresh', m.run ⟨db, [], fresh⟩ = (.ok a, ⟨db', [], fresh'⟩) ∧ Q a db' fresh'

section Rules

variable {Q : α → σ → List ι → Prop} {db : σ} {fresh : List ι} {a : α} {e : ε}

theorem run_quiet {m : Sql ε σ ι α} {c' : Conn σ ι}
    (h : m.run ⟨db, [], fresh⟩ = (.ok a, c')) : c' = ⟨c'.db, [], c'.fresh⟩ := by
  have hcalm : m.run ⟨db, [], fresh⟩ = (.ok a, c'.calm) := run_calm h
  rw [h, Prod.mk.injEq] at hcalm
  exact hcalm.2

theorem wp_mono {m : Sql ε σ ι α} {Q' : α → σ → List ι → Prop} (h : wp m Q db fresh)
    (hQ : ∀ a db' fresh', Q a db' fresh' → Q' a db' fresh') : wp m Q' db fresh := by
  obtain ⟨a, db', fresh', hrun, hq⟩ := h
  exact ⟨a, db', fresh', hrun, hQ a db' fresh' hq⟩

/-- What a computation establishes, it also establishes when it succeeds in
spite of failures. -/
theorem wp_ok {m : Sql ε σ ι α} {c c' : Conn σ ι} (h : wp m Q c.db c.fresh)
    (hrun : m.run c = (.ok a, c')) : Q a c'.db c'.fresh := by
  obtain ⟨a', db', fresh', hcalm, hq⟩ := h
  have hcalm' : m.run ⟨c.db, [], c.fresh⟩ = (.ok a, c'.calm) := run_calm hrun
  rw [hcalm', Prod.mk.injEq, Except.ok.injEq] at hcalm
  obtain ⟨rfl, hc⟩ := hcalm
  have hdb : c'.db = db' := congrArg Conn.db hc
  have hfresh : c'.fresh = fresh' := congrArg Conn.fresh hc
  rw [hdb, hfresh]
  exact hq

@[simp] theorem wp_pure : wp (Pure.pure a : Sql ε σ ι α) Q db fresh ↔ Q a db fresh := by
  constructor
  · rintro ⟨a', db', fresh', hrun, hq⟩
    obtain ⟨rfl, hc⟩ := pure_ok hrun
    simp only [Conn.mk.injEq, true_and] at hc
    rw [← hc.1, ← hc.2]
    exact hq
  · exact fun hq => ⟨a, db, fresh, rfl, hq⟩

@[simp] theorem wp_throw : ¬wp (Sql.throw e : Sql ε σ ι α) Q db fresh := by
  rintro ⟨a, db', fresh', hrun, -⟩
  exact throw_ok hrun

@[simp] theorem wp_bind {m : Sql ε σ ι β} {f : β → Sql ε σ ι α} :
    wp (m >>= f) Q db fresh ↔ wp m (fun b => wp (f b) Q) db fresh := by
  constructor
  · rintro ⟨a, db', fresh', hrun, hq⟩
    obtain ⟨b, c₁, hm, hf⟩ := bind_ok hrun
    have hc₁ := run_quiet hm
    exact ⟨b, c₁.db, c₁.fresh, hm.trans (congrArg _ hc₁), a, db', fresh', hc₁ ▸ hf, hq⟩
  · rintro ⟨b, db₁, fresh₁, hm, a, db', fresh', hf, hq⟩
    refine ⟨a, db', fresh', ?_, hq⟩
    rw [bind_run, hm]
    exact hf

@[simp] theorem wp_statement {f : σ → Option (α × σ)} :
    wp (statement f : Sql ε σ ι α) Q db fresh ↔ ∃ a db', f db = some (a, db') ∧ Q a db' fresh := by
  constructor
  · rintro ⟨a, db', fresh', hrun, hq⟩
    obtain ⟨hf, hfresh⟩ := statement_ok hrun
    rw [show fresh' = fresh from hfresh] at hq
    exact ⟨a, db', hf, hq⟩
  · rintro ⟨a, db', hf, hq⟩
    refine ⟨a, db', fresh, ?_, hq⟩
    simp [statement, hf]

@[simp] theorem wp_query {f : σ → α} :
    wp (query f : Sql ε σ ι α) Q db fresh ↔ Q (f db) db fresh := by
  simp [query]

@[simp] theorem wp_execute {f : σ → σ} {Q : Unit → σ → List ι → Prop} :
    wp (execute f : Sql ε σ ι Unit) Q db fresh ↔ Q () (f db) fresh := by
  rw [execute, wp_statement]
  constructor
  · rintro ⟨_, db', hdb, hq⟩
    rw [Option.some.injEq, Prod.mk.injEq] at hdb
    rw [hdb.2]
    exact hq
  · exact fun hq => ⟨(), f db, rfl, hq⟩

@[simp] theorem wp_execute? {f : σ → Option σ} {Q : Unit → σ → List ι → Prop} :
    wp (execute? f : Sql ε σ ι Unit) Q db fresh ↔ ∃ db', f db = some db' ∧ Q () db' fresh := by
  simp only [execute?, wp_statement, Option.map_eq_some_iff, Prod.mk.injEq]
  constructor
  · rintro ⟨a, db', ⟨db₁, hf, -, rfl⟩, hq⟩
    exact ⟨db₁, hf, hq⟩
  · rintro ⟨db', hf, hq⟩
    exact ⟨(), db', ⟨db', hf, trivial, rfl⟩, hq⟩

@[simp] theorem wp_require {ok : Bool} {Q : Unit → σ → List ι → Prop} :
    wp (require ok e : Sql ε σ ι Unit) Q db fresh ↔ ok = true ∧ Q () db fresh := by
  cases ok with
  | false => exact ⟨fun h => absurd h wp_throw, fun h => nomatch h.1⟩
  | true => exact wp_pure.trans (and_iff_right rfl).symm

@[simp] theorem wp_lift {r : Except ε α} :
    wp (lift r : Sql ε σ ι α) Q db fresh ↔ ∃ a, r = .ok a ∧ Q a db fresh := by
  cases r with
  | error e => exact ⟨fun h => absurd h wp_throw, fun ⟨_, h, _⟩ => nomatch h⟩
  | ok a => exact wp_pure.trans (by simp)

@[simp] theorem wp_transaction {m : Sql ε σ ι α} :
    wp (transaction m) Q db fresh ↔ wp m Q db fresh := by
  unfold wp
  rw [transaction_run_calm]
  constructor
  · rintro ⟨a, db', fresh', hrun, hq⟩
    rcases hm : m.run ⟨db, [], fresh⟩ with ⟨e | a', c'⟩
    · rw [hm] at hrun
      exact nomatch hrun
    · rw [hm] at hrun
      exact ⟨a, db', fresh', hrun, hq⟩
  · rintro ⟨a, db', fresh', hrun, hq⟩
    exact ⟨a, db', fresh', by rw [hrun], hq⟩

@[simp] theorem wp_each_nil {f : β → Sql ε σ ι Unit} {Q : Unit → σ → List ι → Prop} :
    wp (each f []) Q db fresh ↔ Q () db fresh := wp_pure

@[simp] theorem wp_each_cons {f : β → Sql ε σ ι Unit} {b : β} {rest : List β}
    {Q : Unit → σ → List ι → Prop} :
    wp (each f (b :: rest)) Q db fresh ↔ wp (f b) (fun _ => wp (each f rest) Q) db fresh := wp_bind

theorem wp_each {f : β → Sql ε σ ι Unit} {items : List β} {I : σ → List ι → Prop}
    (step : ∀ b ∈ items, ∀ db fresh, I db fresh → wp (f b) (fun _ => I) db fresh)
    (h : I db fresh) : wp (each f items) (fun _ => I) db fresh := by
  induction items generalizing db fresh with
  | nil => exact wp_each_nil.mpr h
  | cons b rest ih =>
    rw [wp_each_cons]
    refine wp_mono (step b List.mem_cons_self db fresh h) fun _ db' fresh' h' => ?_
    exact ih (fun b' hb' => step b' (List.mem_cons_of_mem b hb')) h'

end Rules

end Library.Sql
