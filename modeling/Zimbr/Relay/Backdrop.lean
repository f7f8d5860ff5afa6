import Zimbr.Relay.Intake

set_option autoImplicit false

/-!
# What publishing records leaves as it is

Conversations, messages, identities and requests are written without touching
the epoch or the progress of ingestion.
-/
namespace Zimbr.Relay
open Library

def backdrop (j : Journal) : Bytes × Table String Bytes := (j.epoch, j.ingestionProgress)

section Records

variable {enc : Encoding} {now : Int} {origin : Origin}

theorem next_keeps : Sql.Keeps backdrop next := by
  refine Sql.Keeps.bind (Sql.Keeps.execute? fun j j' h => ?_) fun _ => Sql.Keeps.query
  simp only [Option.ite_none_right_eq_some, Option.some.injEq] at h
  rw [← h.2]
  rfl

theorem event_keeps {seq : Nat} {record : Record} :
    Sql.Keeps backdrop (event seq record origin now) := by
  refine Sql.Keeps.execute? fun j j' h => ?_
  obtain ⟨events, -, rfl⟩ := Option.map_eq_some_iff.mp h
  rfl

theorem idOf_keeps {α : Type} {found : Option (Bytes × α)} : Sql.Keeps backdrop (idOf found) := by
  cases found with
  | none => exact Sql.Keeps.draw
  | some r => exact Sql.Keeps.pure

theorem observeIdentity_keeps {service address : Bytes} :
    Sql.Keeps backdrop (observeIdentity now service address) := by
  unfold observeIdentity
  split_ifs
  · exact Sql.Keeps.pure
  · refine Sql.Keeps.bind Sql.Keeps.query fun found => ?_
    cases found with
    | some r => exact Sql.Keeps.pure
    | none =>
      refine Sql.Keeps.bind Sql.Keeps.draw fun id => Sql.Keeps.bind next_keeps fun seq => ?_
      refine Sql.Keeps.bind (Sql.Keeps.execute? fun j j' h => ?_) fun _ =>
        Sql.Keeps.bind event_keeps fun _ => Sql.Keeps.pure
      simp only [insertIdentity, Option.ite_none_left_eq_some, Option.map_eq_some_iff] at h
      obtain ⟨-, identities, -, rfl⟩ := h
      rfl

theorem observeActors_keeps {v : Message} : Sql.Keeps backdrop (observeActors now v) := by
  have hactor : Sql.Keeps backdrop (observeReactor now v) := by
    unfold observeReactor
    split
    · split
      · exact Sql.Keeps.bind observeIdentity_keeps fun _ => Sql.Keeps.pure
      · exact Sql.Keeps.pure
    · exact Sql.Keeps.pure
  rw [observeActors_eq]
  split_ifs
  · exact Sql.Keeps.bind observeIdentity_keeps fun _ => hactor
  · exact hactor

theorem conversation_keeps {source : Bytes} {row : Int} {route : Bytes} {value : Conversation} :
    Sql.Keeps backdrop (conversation now source row route value origin) := by
  refine Sql.Keeps.bind (Sql.Keeps.each fun address _ =>
    Sql.Keeps.bind observeIdentity_keeps fun _ => Sql.Keeps.pure) fun _ => ?_
  refine Sql.Keeps.bind Sql.Keeps.query fun found => Sql.Keeps.bind idOf_keeps fun id => ?_
  dsimp only
  split
  · split_ifs
    · exact Sql.Keeps.bind (Sql.Keeps.execute fun _ => rfl) fun _ => Sql.Keeps.pure
    · exact Sql.Keeps.pure
  · refine Sql.Keeps.bind next_keeps fun seq => ?_
    refine Sql.Keeps.bind (Sql.Keeps.execute? fun j j' h => ?_) fun _ =>
      Sql.Keeps.bind (Sql.Keeps.execute fun _ => rfl) fun _ =>
      Sql.Keeps.bind (Sql.Keeps.each fun address _ => Sql.Keeps.execute fun _ => rfl) fun _ =>
      Sql.Keeps.bind event_keeps fun _ => Sql.Keeps.pure
    unfold upsertConversation at h
    split at h
    · rw [← Option.some.inj h]
      rfl
    · obtain ⟨conversations, -, rfl⟩ := Option.map_eq_some_iff.mp h
      rfl

theorem message_keeps {source : Bytes} {row date : Int} {value : Message} :
    Sql.Keeps backdrop (message enc now source row date value origin) := by
  refine Sql.Keeps.bind (Sql.Keeps.execute fun _ => rfl) fun _ =>
    Sql.Keeps.bind observeActors_keeps fun _ => Sql.Keeps.bind Sql.Keeps.query fun found =>
    Sql.Keeps.bind idOf_keeps fun id => Sql.Keeps.bind Sql.Keeps.query fun result =>
    Sql.Keeps.bind Sql.Keeps.lift fun prepared => ?_
  dsimp only
  split
  · split_ifs
    · exact Sql.Keeps.execute fun _ => rfl
    · exact Sql.Keeps.pure
  · refine Sql.Keeps.bind next_keeps fun seq => ?_
    refine Sql.Keeps.bind (Sql.Keeps.execute? fun j j' h => ?_) fun _ =>
      Sql.Keeps.bind (Sql.Keeps.execute fun _ => rfl) fun _ => event_keeps
    simp only [upsertMessage, Option.ite_none_left_eq_some] at h
    obtain ⟨-, h⟩ := h
    split at h
    · rw [← Option.some.inj h]
      rfl
    · obtain ⟨messages, -, rfl⟩ := Option.map_eq_some_iff.mp h
      rfl

theorem sourceMessage_keeps {source : Bytes} {row date : Int} {value : Message} :
    Sql.Keeps backdrop (sourceMessage enc now source row date value origin) := by
  refine Sql.Keeps.bind Sql.Keeps.query fun cached => ?_
  split_ifs
  · exact Sql.Keeps.pure
  · exact Sql.Keeps.bind message_keeps fun _ => Sql.Keeps.execute fun _ => rfl

theorem updatePart_keeps {id : Bytes} {part : SendPart × Nat} :
    Sql.Keeps backdrop (updatePart id part) := by
  refine Sql.Keeps.bind (Sql.Keeps.execute? fun j j' h => ?_) fun _ => ?_
  · unfold setPart at h
    split_ifs at h
    rw [← Option.some.inj h]
    rfl
  · split_ifs
    · exact Sql.Keeps.bind Sql.Keeps.orThrow fun _ => Sql.Keeps.execute fun _ => rfl
    · exact Sql.Keeps.pure

theorem updateRequest_keeps {v : SendRequest} : Sql.Keeps backdrop (updateRequest now v) := by
  refine Sql.Keeps.bind next_keeps fun seq => ?_
  refine Sql.Keeps.bind (Sql.Keeps.execute? fun j j' h => ?_) fun _ =>
    Sql.Keeps.bind (Sql.Keeps.each fun part _ => updatePart_keeps) fun _ =>
    Sql.Keeps.bind event_keeps fun _ => Sql.Keeps.pure
  unfold setRequest at h
  split_ifs at h
  rw [← Option.some.inj h]
  rfl

theorem updateIfSome_keeps {v : Option SendRequest} : Sql.Keeps backdrop (updateIfSome now v) := by
  cases v with
  | none => exact Sql.Keeps.pure
  | some v => exact Sql.Keeps.bind updateRequest_keeps fun _ => Sql.Keeps.pure

theorem recordObservation_keeps {id : Bytes} :
    Sql.Keeps backdrop (Sql.execute? (recordObservation now id) : Tx Unit) := by
  refine Sql.Keeps.execute? fun j j' h => ?_
  unfold recordObservation at h
  split_ifs at h
  rw [← Option.some.inj h]
  rfl

end Records

end Zimbr.Relay
