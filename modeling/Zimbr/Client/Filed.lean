import Zimbr.Client.Related

set_option autoImplicit false

/-!
# Rows under their keys

Every row of the cache is what its record says, under the record's own key.
-/
namespace Zimbr.Client
open Library

def Filed (s : Store) : Prop :=
  ∀ key row, s.records.get? key = some row → row.record.key = key ∧ row = .of row.record

def Files (s s' : Store) : Prop := Filed s → Filed s'

instance : Std.Refl Files where
  refl _ h := h

instance : IsTrans Store Files where
  trans _ _ _ h h' hfiled := h' (h hfiled)

theorem Files.of_records {s s' : Store} (h : s'.records = s.records) : Files s s' := by
  intro hfiled key row
  rw [h]
  exact hfiled key row

theorem Files.of_tables {s s' : Store} (h : tables s' = tables s) : Files s s' :=
  .of_records (congrArg Prod.fst h)

section Writing

theorem insertRecord_files {record : Incoming} : Sql.Advances Files (insertRecord record) := by
  refine .execute fun s hfiled key row hrow => ?_
  dsimp only at hrow
  rw [Table.get?_upsert] at hrow
  split_ifs at hrow with hkey
  · cases h : s.records.get? record.key with
    | none =>
      rw [h] at hrow
      rw [← Option.some.inj hrow]
      exact ⟨hkey.symm, rfl⟩
    | some old =>
      rw [h] at hrow
      rw [← Option.some.inj hrow]
      exact ⟨hkey.symm, rfl⟩
  · exact hfiled key row hrow

theorem writeStored_files {record : Incoming} : Sql.Advances Files (writeStored record) := by
  refine .bind .query fun existing => ?_
  split
  · exact .bind (.of_keeps (followRequest_settled.comp tables) fun _ _ => .of_tables) fun _ => .pure
  · exact .bind insertRecord_files fun _ => .of_keeps afterInsert_tables fun _ _ => .of_tables

end Writing

section Worker

variable {dec : Decoder} {w : Worker}

theorem beginSync_files {epoch cursor : Bytes} : Sql.Advances Files (beginSync epoch cursor) := by
  refine .bind .require fun _ => .bind .lift fun _ => .transaction (.bind .query fun _ =>
    .bind ?_ fun _ => .bind (.execute fun _ => .of_records rfl) fun _ =>
    .bind (.execute fun _ => .of_records rfl) fun _ => ?_)
  · unfold enterEpoch
    split_ifs
    · exact .pure
    · exact .execute fun _ _ _ _ h => nomatch h
  · exact .bind (.execute fun _ => .of_records rfl) fun _ => .bind (.execute fun _ => .of_records rfl)
      fun _ => .bind (.execute fun _ => .of_records rfl) fun _ => .bind (.execute fun _ =>
      .of_records rfl) fun _ => .bind (.execute fun _ => .of_records rfl) fun _ =>
      .note fun _ => .of_records rfl

theorem Worker.step_files (a : Action) (hclear : a ≠ .clear)
    (hsync : ∀ env epoch cursor, a ≠ .sync env epoch cursor)
    (helsewhere : ∀ change, a ≠ .elsewhere change) : Files w.store (w.step dec a).store :=
  w.step_related (fun _ _ h => .of_records (congrArg (·.2.1) h))
    (fun _ _ _ _ h => writeStored_files.run h) a hclear hsync helsewhere

theorem Filed.step (h : Filed w.store) (a : Action) : Filed (Worker.step dec w a).store := by
  cases a with
  | clear => exact fun _ _ hrow => nomatch hrow
  | sync env epoch cursor => exact beginSync_files (w.conn env) h
  | elsewhere change => exact h
  | _ => exact Worker.step_files _ nofun nofun nofun h

theorem reachable_filed (dec : Decoder) (actions : List Action) :
    Filed ((client dec).run {} actions).store :=
  (client dec).run_invariant (I := fun w => Filed w.store) (fun _ a h => h.step a) {} actions
    fun _ _ hrow => nomatch hrow

end Worker

end Zimbr.Client
