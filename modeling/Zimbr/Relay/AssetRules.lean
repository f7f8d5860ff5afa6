import Zimbr.Relay.AssetWork
import Zimbr.Relay.Columns

set_option autoImplicit false

/-!
# What the asset operations keep

Every operation leaves the entity tags of the versions that it found, does not add
bytes and keeps the queue within its bound. Only a publication adds bytes.
-/
namespace Zimbr.Relay
open Library

section Fresh

abbrev Draws {α : Type} (F : Bytes → Prop) (m : Tx α) : Prop := Sql.Safe (fun _ => True) F m

variable {F : Bytes → Prop} {now : Int}

theorem next_draws : Draws F next := .bind (.execute? fun _ _ _ _ => trivial) fun _ => .query

theorem event_draws {seq : Nat} {record : Record} {origin : Origin} :
    Draws F (event seq record origin now) := .execute? fun _ _ _ _ => trivial

theorem idOf_draws {α : Type} {found : Option (Bytes × α)} : Draws F (idOf found) := by
  cases found with
  | some r => exact .pure
  | none => exact .draw

theorem observeIdentity_draws {service address : Bytes} :
    Draws F (observeIdentity now service address) := by
  unfold observeIdentity
  split_ifs
  · exact .pure
  · refine .bind .query fun found => ?_
    split
    · exact .pure
    · exact .bind .draw fun _ => .bind next_draws fun _ =>
        .bind (.execute? fun _ _ _ _ => trivial) fun _ => .bind event_draws fun _ => .pure

theorem updateIdentity_draws {value : Identity} : Draws F (updateIdentity now value) := by
  refine .bind .query fun found => ?_
  split
  · exact .throw
  · refine .bind .require fun _ => ?_
    dsimp only
    split_ifs
    · exact .pure
    · exact .bind next_draws fun _ => .bind (.execute fun _ _ => trivial) fun _ => event_draws

theorem observeActors_draws {v : Message} : Draws F (observeActors now v) := by
  have hactor : Draws F (observeReactor now v) := by
    unfold observeReactor
    split
    · split
      · exact .bind observeIdentity_draws fun _ => .pure
      · exact .pure
    · exact .pure
  rw [observeActors_eq]
  split_ifs
  · exact .bind observeIdentity_draws fun _ => hactor
  · exact hactor

theorem message_draws {enc : Encoding} {source : Bytes} {row date : Int} {value : Message}
    {origin : Origin} : Draws F (message enc now source row date value origin) := by
  refine .bind (.execute fun _ _ => trivial) fun _ => .bind observeActors_draws fun _ =>
    .bind .query fun found => .bind idOf_draws fun id => .bind .query fun result =>
      .bind .lift fun prepared => ?_
  dsimp only
  split
  · split_ifs
    · exact .execute fun _ _ => trivial
    · exact .pure
  · exact .bind next_draws fun _ => .bind (.execute? fun _ _ _ _ => trivial) fun _ =>
      .bind (.execute fun _ _ => trivial) fun _ => event_draws

theorem updateRequest_draws {value : SendRequest} : Draws F (updateRequest now value) := by
  refine .bind next_draws fun _ => .bind (.execute? fun _ _ _ _ => trivial) fun _ =>
    .bind (.each fun part _ => .bind (.execute? fun _ _ _ _ => trivial) fun _ => ?_) fun _ =>
      .bind event_draws fun _ => .pure
  split_ifs
  · exact .bind .orThrow fun _ => .execute fun _ _ => trivial
  · exact .pure

theorem reset_draws : Draws F (reset now) := by
  refine .bind (.execute fun _ _ => trivial) fun _ => .bind .query fun items =>
    .bind .draw fun epoch => .bind (.execute fun _ _ => trivial) fun _ =>
      .bind (.each fun row _ => .bind .orThrow fun v => ?_) fun _ => .execute fun _ _ => trivial
  split_ifs
  · exact .bind updateRequest_draws fun _ => .pure
  · exact .execute fun _ _ => trivial

end Fresh

namespace AssetStore

/-- The entity tag of a representation that exists, as the workers read it. -/
def etag? (s : AssetStore) (key : AssetKey) : Option (Option Bytes) :=
  (s.representations.get? key).map fun r => r.etag.filter fun tag => tag ≠ []

def current (s : AssetStore) (key : AssetKey) : Prop :=
  ∃ row, s.sources.get? key.1 = some row ∧ row.version = key.2.1

/-- While the key is current, the representation exists and has that entity tag. -/
def Tagged (s : AssetStore) (key : AssetKey) (tag : Option Bytes) : Prop :=
  s.current key → s.etag? key = some tag

/-- From `s₀`, with fresh identifiers in `F`: representations are filed under their
own key, the queue and the bytes are bounded, and a version that is not new has the
entity tags it had. -/
structure Sound (F : Bytes → Prop) (s₀ s : AssetStore) : Prop where
  filed : ∀ key r, s.representations.get? key = some r → r.record.key = key
  queue : s.work.rows.length ≤ maxQueue
  bytes : usedBytes s ≤ usedBytes s₀
  ages : ∀ id row, s.sources.get? id = some row → ¬ F row.version →
    ∃ row₀, s₀.sources.get? id = some row₀ ∧ row₀.version = row.version ∧
      ∀ variant, s.etag? (id, row.version, variant) = s₀.etag? (id, row.version, variant)

namespace Sound

variable {F : Bytes → Prop} {s₀ s : AssetStore}

theorem refl (hfiled : ∀ key r, s.representations.get? key = some r → r.record.key = key)
    (hqueue : s.work.rows.length ≤ maxQueue) : Sound F s s where
  filed := hfiled
  queue := hqueue
  bytes := le_refl _
  ages := fun _ row hrow _ => ⟨row, hrow, rfl, fun _ => rfl⟩

theorem of_tables {s' : AssetStore} (h : Sound F s₀ s) (hsources : s'.sources = s.sources)
    (hrepresentations : s'.representations = s.representations)
    (hwork : s'.work.rows.length ≤ maxQueue) : Sound F s₀ s' where
  filed := hrepresentations ▸ h.filed
  queue := hwork
  bytes := by
    rw [usedBytes, hrepresentations]
    exact h.bytes
  ages := fun id row hrow hold => by
    rw [hsources] at hrow
    simp only [etag?, hrepresentations]
    exact h.ages id row hrow hold

theorem sources {p : Bytes → AssetSource → Bool} {f : AssetSource → AssetSource}
    (h : Sound F s₀ s) (hf : ∀ r, (f r).version = r.version) :
    Sound F s₀ { s with sources := s.sources.modifyWhere p f } where
  filed := h.filed
  queue := h.queue
  bytes := h.bytes
  ages := fun id row hrow hold => by
    rw [Table.get?_modifyWhere, Option.map_eq_some_iff] at hrow
    obtain ⟨row₁, hrow₁, rfl⟩ := hrow
    have hversion : (if p id row₁ then f row₁ else row₁).version = row₁.version := by
      split_ifs
      · exact hf row₁
      · rfl
    rw [hversion] at hold ⊢
    exact h.ages id row₁ hrow₁ hold

theorem renew {id version : Bytes} {f : AssetSource → AssetSource} (h : Sound F s₀ s)
    (hversion : F version) (hf : ∀ r, (f r).version = version) :
    Sound F s₀ { s with sources := s.sources.modify id f } where
  filed := h.filed
  queue := h.queue
  bytes := h.bytes
  ages := fun id' row hrow hold => by
    rw [Table.get?_modify] at hrow
    split_ifs at hrow
    · obtain ⟨row₁, -, rfl⟩ := Option.map_eq_some_iff.mp hrow
      rw [hf row₁] at hold
      exact absurd hversion hold
    · exact h.ages id' row hrow hold

theorem discover {id : Bytes} {row : AssetSource} {sources : Table Bytes AssetSource}
    (h : Sound F s₀ s) (hversion : F row.version) (hinsert : s.sources.insert id row = some sources) :
    Sound F s₀ { s with sources := sources } where
  filed := h.filed
  queue := h.queue
  bytes := h.bytes
  ages := fun id' row' hrow hold => by
    rw [Table.get?_insert hinsert] at hrow
    split_ifs at hrow
    · rw [← Option.some.inj hrow] at hold
      exact absurd hversion hold
    · exact h.ages id' row' hrow hold

/-- Rewritten representations keep their keys and entity tags and do not grow. -/
theorem rewrite {p : AssetKey → Representation → Bool} {f : Representation → Representation}
    (h : Sound F s₀ s) (hetag : ∀ r, (f r).etag = r.etag) (hbytes : ∀ r, (f r).bytes ≤ r.bytes)
    (hkey : ∀ key r, s.representations.get? key = some r → p key r = true →
      (f r).record.key = key) :
    Sound F s₀ { s with representations := s.representations.modifyWhere p f } where
  filed := fun key r hr => by
    rw [Table.get?_modifyWhere, Option.map_eq_some_iff] at hr
    obtain ⟨r₁, hr₁, rfl⟩ := hr
    split_ifs with hp
    · exact hkey key r₁ hr₁ hp
    · exact h.filed key r₁ hr₁
  queue := h.queue
  bytes := le_trans (Table.total_modifyWhere_le hbytes) h.bytes
  ages := fun id row hrow hold => by
    obtain ⟨row₀, hrow₀, hsame, htags⟩ := h.ages id row hrow hold
    refine ⟨row₀, hrow₀, hsame, fun variant => ?_⟩
    rw [← htags variant]
    simp only [etag?, Table.get?_modifyWhere, Option.map_map]
    refine Option.map_congr fun r _ => ?_
    rw [Function.comp_apply]
    split_ifs
    · rw [hetag r]
    · rfl

theorem retire {p : AssetKey → Representation → Bool} (h : Sound F s₀ s)
    (hp : ∀ key r row, s.representations.get? key = some r → p key r = true →
      s.sources.get? key.1 = some row → row.version ≠ key.2.1) :
    Sound F s₀ { s with representations := s.representations.deleteWhere p } where
  filed := fun key r hr => by
    rw [Table.get?_deleteWhere, Option.filter_eq_some_iff] at hr
    exact h.filed key r hr.1
  queue := h.queue
  bytes := by
    have hwithin : Table.Within Representation.bytes (s.representations.deleteWhere p)
        s.representations := .deleteWhere
    exact le_trans hwithin.total_le h.bytes
  ages := fun id row hrow hold => by
    obtain ⟨row₀, hrow₀, hsame, htags⟩ := h.ages id row hrow hold
    refine ⟨row₀, hrow₀, hsame, fun variant => ?_⟩
    rw [← htags variant]
    simp only [etag?, Table.get?_deleteWhere]
    cases hr : s.representations.get? (id, row.version, variant) with
    | none => rfl
    | some r =>
      cases hdelete : p (id, row.version, variant) r with
      | false => rw [Option.filter_some_pos (by rw [hdelete]; rfl)]
      | true => exact absurd rfl (hp _ r row hr hdelete hrow)

theorem represent {key : AssetKey} {r : Representation} (h : Sound F s₀ s) (hversion : F key.2.1)
    (hkey : r.record.key = key) (hbytes : r.bytes = 0) :
    Sound F s₀ { s with representations := insertOrIgnore s.representations key r } := by
  cases hinsert : s.representations.insert key r with
  | none =>
    rw [insertOrIgnore, hinsert]
    exact h
  | some representations =>
    rw [insertOrIgnore, hinsert]
    exact {
      filed := Table.all_insert h.filed hinsert hkey
      queue := h.queue
      bytes := by
        rw [usedBytes, Option.getD_some, Table.total_insert _ hinsert, hbytes, Nat.add_zero]
        exact h.bytes
      ages := fun id row hrow hold => by
        obtain ⟨row₀, hrow₀, hsame, htags⟩ := h.ages id row hrow hold
        refine ⟨row₀, hrow₀, hsame, fun variant => ?_⟩
        rw [← htags variant]
        have hne : (id, row.version, variant) ≠ key := by
          rintro rfl
          exact hold hversion
        simp only [etag?, Option.getD_some, Table.get?_insert hinsert, if_neg hne] }

theorem setRecord {ref : AssetRef} {f : Representation → Representation} (h : Sound F s₀ s)
    (hetag : ∀ r, (f r).etag = r.etag) (hbytes : ∀ r, (f r).bytes ≤ r.bytes) :
    Sound F s₀ (setRecord ref f s) := by
  refine h.rewrite hetag hbytes fun key r _ hp => ?_
  rw [← of_decide_eq_true hp]

theorem deleteWork {p : AssetKey → Int → Bool} (h : Sound F s₀ s) :
    Sound F s₀ { s with work := s.work.deleteWhere p } :=
  h.of_tables rfl rfl (le_trans (List.length_filter_le _ _) h.queue)

theorem touchWork {p : AssetKey → Bool} {time : Int} (h : Sound F s₀ s) :
    Sound F s₀ (touchWork p time s) :=
  h.of_tables rfl rfl (by rw [AssetStore.touchWork, Table.count_modifyWhere]; exact h.queue)

theorem tagged {key : AssetKey} {tag : Option Bytes} (h : Sound F s₀ s) (hold : ¬ F key.2.1)
    (htag : s₀.Tagged key tag) : s.Tagged key tag := by
  rintro ⟨row, hrow, hversion⟩
  obtain ⟨row₀, hrow₀, hsame, htags⟩ := h.ages key.1 row hrow (hversion ▸ hold)
  have hkey : key = (key.1, row.version, key.2.2) := by rw [hversion]
  rw [hkey, htags, ← hkey]
  exact htag ⟨row₀, hrow₀, hsame.trans hversion⟩

theorem version {id : Bytes} {row : AssetSource} (h : Sound F s₀ s)
    (hrow : s.sources.get? id = some row) :
    F row.version ∨ ∃ row₀, s₀.sources.get? id = some row₀ ∧ row₀.version = row.version := by
  by_cases hnew : F row.version
  · exact Or.inl hnew
  · obtain ⟨row₀, hrow₀, hsame, -⟩ := h.ages id row hrow hnew
    exact Or.inr ⟨row₀, hrow₀, hsame⟩

end Sound

section Operations

variable {F : Bytes → Prop} {s₀ : AssetStore} {enc : Encoding} {now : Int}

/-- The operation keeps what is sound, whatever its outcome. -/
abbrev SoundBy {α : Type} (F : Bytes → Prop) (s₀ : AssetStore) (m : StoreTx α) : Prop :=
  Sql.Safe (Sound F s₀) F m

theorem reference_safe {P : AssetStore → Prop} {id : Bytes} {variant : AssetVariant} :
    Sql.Safe P F (reference id variant) := .bind .query fun _ => .orThrow

theorem publishOwners_safe {P : AssetStore → Prop} {id : Bytes}
    (hP : ∀ s j, P s → P { s with journal := j }) : Sql.Safe P F (publishOwners enc now id) := by
  refine .bind .query fun identities => .bind (.each fun value _ => ?_) fun _ =>
    .bind .query fun _ => .bind .query fun owners => .each fun owner _ => ?_
  · split_ifs
    · exact .bind reference_safe fun _ => .zoom updateIdentity_draws hP
    · exact .pure
  · exact .bind .orThrow fun _ => .zoom message_draws hP

theorem publishOwners_sound {id : Bytes} : SoundBy F s₀ (publishOwners enc now id) :=
  publishOwners_safe fun _ _ h => h.of_tables rfl rfl h.queue

theorem newRepresentations_sound {id version : Bytes} {variants : List AssetVariant}
    (hversion : F version) : SoundBy F s₀ (newRepresentations id version variants) :=
  .each fun _ _ => .execute fun _ h => h.represent hversion rfl rfl

theorem drawn {P : AssetStore → Prop} {α : Type} {e : Error} {k : Bytes → StoreTx α}
    (hk : ∀ id, F id → Sql.Safe P F (k id)) :
    Sql.Safe P F ((Sql.draw e : StoreTx Bytes) >>= k) :=
  .bind_of (R := F) .draw (fun _ id _ _ hfresh h => hfresh id (Sql.draw_mem h)) hk

theorem rotate_sound {source : Source} {path signature : Bytes} :
    SoundBy F s₀ (rotate source path signature) := by
  refine drawn fun version hversion => .bind (.execute fun s h => ?_) fun _ =>
    .bind (.execute fun s h => h.deleteWork) fun _ =>
      .bind (newRepresentations_sound hversion) fun _ => .pure
  exact h.renew hversion fun _ => rfl

theorem register_sound {kind : AssetKind} {key path : Bytes} :
    SoundBy F s₀ (register enc now kind key path) := by
  refine .bind .query fun found => ?_
  split
  · split_ifs
    · exact .pure
    · exact .bind (.execute fun s h => h.sources fun _ => rfl) fun _ =>
        .bind (.execute fun s h => h.touchWork) fun _ => .pure
    · exact .bind rotate_sound fun _ => .bind publishOwners_sound fun _ => .pure
  · refine drawn fun id _ => drawn fun version hversion => .bind (.execute? fun s s' h hinsert => ?_)
      fun _ => .bind (newRepresentations_sound hversion) fun _ => .pure
    obtain ⟨sources, hsources, rfl⟩ := Option.map_eq_some_iff.mp hinsert
    exact h.discover hversion hsources

theorem offer_sound {ref : AssetRef} {visible : Bool} : SoundBy F s₀ (offer now ref visible) := by
  unfold offer
  cases retryable ref with
  | false => exact .pure
  | true =>
    refine .bind .query fun queued => ?_
    cases queued with
    | true => exact .pure
    | false =>
      refine .of_stays (.bind .query fun count => ?_) fun c hc => ?_
      · by_cases hfull : maxQueue ≤ count
        · rw [if_pos hfull]
          exact .pure
        · rw [if_neg hfull]
          exact .bind (.execute? fun _ _ _ _ => trivial) fun _ => .pure
      · refine Sql.query_after hc fun c' hdb => ?_
        rw [← hdb] at hc ⊢
        by_cases hfull : maxQueue ≤ c'.db.work.rows.length
        · rw [if_pos hfull]
          exact hc
        · rw [if_neg hfull]
          refine Sql.bind_after (Sql.execute?_after hc fun s hs => ?_) fun _ _ _ h => h
          obtain ⟨work, hinsert, rfl⟩ := Option.map_eq_some_iff.mp hs
          refine hc.of_tables rfl rfl ?_
          rw [Table.count_insert hinsert]
          omega

theorem enqueue_sound {ref : AssetRef} {visible : Bool} :
    SoundBy F s₀ (enqueue now ref visible) := .bind offer_sound fun _ => .require

theorem own_sound {id owner : Bytes} {kind : OwnerKind} : SoundBy F s₀ (own id kind owner) := by
  refine .execute? fun s s' h hs => ?_
  split_ifs at hs
  rw [← Option.some.inj hs]
  exact h.of_tables rfl rfl h.queue

theorem avatar_sound {identity : Bytes} {photo : Option (Bytes × Bytes)} :
    SoundBy F s₀ (avatar enc now identity photo) := by
  refine .bind (.execute fun s h => h.of_tables rfl rfl h.queue) fun _ => ?_
  split
  · exact .pure
  · refine .bind register_sound fun id => .bind own_sound fun _ => .bind reference_safe fun ref =>
      .bind .query fun requested => ?_
    split_ifs
    · exact .bind offer_sound fun _ => .pure
    · exact .pure

theorem registerAll_sound {owner : Bytes} (sources : List AttachmentSource) :
    SoundBy F s₀ (registerAll enc now owner sources) := by
  induction sources with
  | nil => exact .pure
  | cons source rest ih =>
    exact .bind register_sound fun _ => .bind own_sound fun _ => .bind ih fun _ => .pure

theorem attach_sound {owner : Bytes} {value : Message} {sources : List AttachmentSource} :
    SoundBy F s₀ (attach enc now owner value sources) :=
  .bind (registerAll_sound sources) fun _ =>
    .bind (.execute fun _ h => h.of_tables rfl rfl h.queue) fun _ =>
      .bind .query fun _ => .bind .orThrow fun _ => .pure

section Artwork

variable {sha256 : Bytes → Vector UInt8 32} {hashId : Bytes → Bytes} {owner : Bytes}

theorem artworkImage_sound {item : Artwork} {attachments : List Attachment} :
    SoundBy F s₀ (artworkImage sha256 hashId enc now owner item attachments) := by
  unfold artworkImage
  split
  · exact .bind (.bind register_sound fun _ =>
      .bind (.execute fun s h => h.of_tables rfl rfl h.queue) fun _ => reference_safe) fun _ => .pure
  · exact .pure
  · exact .pure

theorem previewsFrom_sound (artwork : List Artwork) (cards : List LinkPreview)
    (attachments : List Attachment) :
    SoundBy F s₀ (previewsFrom sha256 hashId enc now owner artwork cards attachments) := by
  induction artwork generalizing cards attachments with
  | nil => exact .pure
  | cons item rest ih =>
    refine .bind artworkImage_sound fun found => ?_
    split
    · exact .bind own_sound fun _ => ih _ _
    · exact ih _ _

theorem previews_sound {value : Message} {artwork : List Artwork} :
    SoundBy F s₀ (previews sha256 hashId enc now owner value artwork) := by
  unfold previews
  split
  · exact .pure
  · exact .bind (.execute fun s h => h.of_tables rfl rfl h.queue) fun _ =>
      .bind (previewsFrom_sound _ _ _) fun _ => .pure

end Artwork

theorem state_sound {source : Source} {availability : Availability} {reason : Bytes} :
    SoundBy F s₀ (state enc now source availability reason) := by
  refine .bind (.each fun variant _ => .bind reference_safe fun ref => ?_) fun _ =>
    publishOwners_sound
  split_ifs
  · exact .pure
  · exact .execute fun s h => h.setRecord (fun _ => rfl) fun _ => le_refl _

theorem lookup_sound {id version : Bytes} {variant : AssetVariant} :
    SoundBy F s₀ (lookup now id version variant) := by
  refine .bind .query fun _ => .bind .orThrow fun _ => .bind .require fun _ => .bind .query fun _ =>
    .bind .orThrow fun row => .bind (.execute fun s h => ?_) fun _ => .bind enqueue_sound fun _ => .pure
  exact h.rewrite (fun _ => rfl) (fun _ => le_refl _) fun key r hr _ => h.filed key r hr

theorem evicted_sound {value : Lookup} : SoundBy F s₀ (evicted enc now value) :=
  .bind (.execute fun _ h => h.setRecord (fun _ => rfl) fun _ => Nat.zero_le _) fun _ =>
    .bind publishOwners_sound fun _ => enqueue_sound

theorem resetStore_sound : SoundBy F s₀ (resetStore now) := by
  refine .transaction (.bind (.zoom reset_draws fun s j h => h.of_tables rfl rfl h.queue) fun _ =>
    .execute fun s h => ?_)
  exact {
    filed := fun key r hr => by cases hr
    queue := Nat.zero_le _
    bytes := Nat.zero_le _
    ages := fun id row hrow => by cases hrow }

theorem dueSources_sound : SoundBy F s₀ (dueSources now) :=
  .bind .query fun _ => .bind .query fun _ => .pure

theorem versionFor_sound {original : Source} {signature : Bytes} :
    SoundBy F s₀ (versionFor original signature) := by
  unfold versionFor
  split_ifs
  · exact rotate_sound
  · exact .bind (.execute fun s h => h.sources fun _ => rfl) fun _ => .pure

theorem resigned_sound {original : Source} {signature : Bytes} :
    SoundBy F s₀ (resigned enc now original signature) := by
  unfold resigned
  split_ifs
  · exact .pure
  · exact .bind versionFor_sound fun _ => .bind (.execute fun s h => h.touchWork) fun _ =>
      .bind publishOwners_sound fun _ => .pure

theorem checkSource_sound {epoch : Bytes} {original : Source} {opened : Except Int Bytes} :
    SoundBy F s₀ (checkSource enc now epoch original opened) := by
  refine .transaction (.bind .query fun live => ?_)
  cases live with
  | false => exact .pure
  | true =>
    refine .bind resigned_sound fun source => ?_
    dsimp only
    refine .bind (.execute fun s h => h.sources fun _ => rfl) fun _ => ?_
    split
    · exact state_sound
    · exact .bind .query fun _ => .each fun _ _ => .bind offer_sound fun _ => .pure

theorem failed_sound {ref : AssetRef} {code : Int} : SoundBy F s₀ (failed enc now ref code) := by
  refine .bind (.execute fun s h => h.setRecord (fun _ => rfl) fun _ => le_refl _) fun _ => ?_
  split_ifs
  · exact .bind (.execute fun s h => h.touchWork) fun _ => publishOwners_sound
  · exact .bind (.execute fun s h => h.deleteWork) fun _ => publishOwners_sound

theorem failJob_sound {job : Job} {code : Int} : SoundBy F s₀ (failJob enc now job code) := by
  refine .bind reference_safe fun ref => ?_
  split_ifs
  · exact .execute fun s h => h.touchWork
  · exact .bind rotate_sound fun _ => .bind reference_safe fun _ => failed_sound
  · exact failed_sound

theorem checkPhoto_sound {job : Job} {signature : Bytes} :
    SoundBy F s₀ (checkPhoto enc now job signature) := by
  refine .transaction (.bind .query fun live => ?_)
  split_ifs
  · exact .pure
  · exact .bind rotate_sound fun _ => .bind publishOwners_sound fun _ => .pure
  · refine .bind reference_safe fun ref => ?_
    split_ifs
    · exact .bind (.execute fun s h => h.deleteWork) fun _ => .pure
    · exact .pure

theorem insertOrIgnore_count {κ ρ : Type} [DecidableEq κ] (t : Table κ ρ) (k : κ) (v : ρ) :
    (insertOrIgnore t k v).rows.length ≤ t.rows.length + 1 := by
  unfold insertOrIgnore
  cases hinsert : t.insert k v with
  | none => exact Nat.le_succ _
  | some t' => exact le_of_eq (Table.count_insert hinsert)

theorem insertAll_count {α κ ρ : Type} [DecidableEq κ] (key : α → κ) (v : ρ) (items : List α)
    (t : Table κ ρ) :
    (items.foldl (fun t a => insertOrIgnore t (key a) v) t).rows.length ≤
      t.rows.length + items.length := by
  induction items generalizing t with
  | nil => exact le_refl _
  | cons a rest ih =>
    have hrest := ih (insertOrIgnore t (key a) v)
    have hfirst := insertOrIgnore_count t (key a) v
    rw [List.foldl_cons, List.length_cons]
    omega

theorem queueContacts_count {s : AssetStore} (h : s.work.rows.length ≤ maxQueue) :
    (queueContacts s).work.rows.length ≤ maxQueue := by
  refine le_trans (insertAll_count _ _ _ _) ?_
  rw [List.length_take]
  omega

theorem nextJob_sound {contact : Bool} : SoundBy F s₀ (nextJob now contact) := by
  cases contact with
  | false => exact .query
  | true =>
    refine .bind (.transaction (.bind (.execute fun s h => ?_) fun _ => .execute fun s h => ?_))
      fun _ => .query
    · exact h.of_tables rfl rfl (queueContacts_count h.queue)
    · exact h.sources fun _ => rfl

section Collection

variable {sources : Table Bytes AssetSource}

/-- A collection does not change any version. -/
abbrev Collecting (F : Bytes → Prop) (s₀ : AssetStore) (sources : Table Bytes AssetSource)
    (s : AssetStore) : Prop := Sound F s₀ s ∧ s.sources = sources

def Candidate.Retired (sources : Table Bytes AssetSource) (c : Candidate) : Prop :=
  c.retired = true → ∀ row, sources.get? c.ref.id = some row → row.version ≠ c.ref.version

theorem candidates_retired {s : AssetStore} {c : Candidate}
    (hfiled : ∀ key r, s.representations.get? key = some r → r.record.key = key)
    (h : c ∈ candidates s) : c.Retired s.sources := by
  obtain ⟨r, hr, hc⟩ := List.mem_filterMap.mp (List.mem_mergeSort.mp (List.mem_of_mem_take h))
  have hkey : r.2.record.key = r.1 := hfiled _ _ ((Table.get?_eq_some_iff _ _ _).mpr hr)
  simp only [candidateOf, Option.bind_eq_bind, Option.bind_eq_some_iff] at hc
  obtain ⟨name, -, source, hsource, hc⟩ := hc
  obtain rfl := Option.some.inj hc
  intro hretired row hrow
  have hid : r.2.record.id = r.1.1 := congrArg Prod.fst hkey
  have hversion : r.2.record.version = r.1.2.1 := congrArg (fun key => key.2.1) hkey
  dsimp only at hrow ⊢
  rw [hid, hsource, Option.some.injEq] at hrow
  rw [hversion, ← hrow]
  exact fun heq => of_decide_eq_true hretired heq.symm

theorem evictFrom_safe {reserve : Nat} (found : List Candidate) (total : Int)
    (hfound : ∀ c ∈ found, c.Retired sources) :
    Sql.Safe (Collecting F s₀ sources) F (evictFrom enc now reserve total found) := by
  induction found generalizing total with
  | nil => exact .pure
  | cons c rest ih =>
    have hrest := ih (total - c.bytes) fun d hd => hfound d (List.mem_cons_of_mem c hd)
    unfold evictFrom
    split_ifs with hkeep hretired
    · exact .pure
    · refine .bind (.execute fun s h => ⟨h.1.retire fun key r row _ hp hrow => ?_, h.2⟩) fun _ =>
        .bind hrest fun _ => .pure
      obtain rfl : key = c.ref.key := of_decide_eq_true hp
      exact hfound c List.mem_cons_self hretired row (h.2 ▸ hrow)
    · refine .bind (.execute fun s h => ⟨?_, h.2⟩) fun _ => .bind ?_ fun _ =>
        .bind hrest fun _ => .pure
      · exact h.1.setRecord (fun _ => rfl) fun _ => Nat.zero_le _
      · exact publishOwners_safe fun s j h => ⟨h.1.of_tables rfl rfl h.1.queue, h.2⟩

theorem collect_sound {reserve : Nat} : SoundBy F s₀ (collect enc now reserve) := by
  refine .transaction (.bind .query fun total => .query_of fun s₁ h₁ =>
    ⟨Collecting F s₀ s₁.sources, ⟨h₁, rfl⟩, fun _ h => h.1, ?_⟩)
  refine .bind (evictFrom_safe _ _ fun c hc => candidates_retired h₁.filed hc) fun _ =>
    .bind (.execute fun s h => ⟨h.1.deleteWork, h.2⟩) fun _ =>
      .bind (.execute fun s h => ⟨h.1.of_tables rfl rfl h.1.queue, h.2⟩) fun _ =>
        .bind (.execute fun s h => ⟨h.1.retire fun key r row _ hp hrow => ?_, h.2⟩) fun _ => .pure
  rw [Bool.and_eq_true, hrow, Option.any_some, decide_eq_true_eq] at hp
  exact Ne.symm hp.2

end Collection

section Publication

/-- One representation took the entity tag, with at most so many bytes more. -/
structure Published (key : AssetKey) (hash : Bytes) (bytes : Nat) (s s' : AssetStore) : Prop where
  filed : (∀ key r, s.representations.get? key = some r → r.record.key = key) →
    ∀ key r, s'.representations.get? key = some r → r.record.key = key
  queue : s'.work = s.work
  bytes : usedBytes s' ≤ usedBytes s + bytes
  versions : ∀ id row, s'.sources.get? id = some row →
    ∃ row₀, s.sources.get? id = some row₀ ∧ row₀.version = row.version
  stays : ∀ other, s.current other → s'.current other
  tags : ∀ other, s'.etag? other =
    if other = key then (s.etag? other).map fun _ => some hash else s.etag? other

theorem sign_versions {id signature : Bytes} {s : AssetStore} (other : Bytes) (row : AssetSource)
    (h : (sign id signature s).sources.get? other = some row) :
    ∃ row₀, s.sources.get? other = some row₀ ∧ row₀.version = row.version := by
  rw [sign, Table.get?_modify] at h
  split_ifs at h
  · obtain ⟨row₀, hrow₀, rfl⟩ := Option.map_eq_some_iff.mp h
    exact ⟨row₀, hrow₀, rfl⟩
  · exact ⟨row, h, rfl⟩

theorem publishRow_published {job : Job} {info : ImageInfo} {hash : Bytes} {s : AssetStore}
    (hhash : hash ≠ []) :
    Published job.key hash info.bytes s (publishRow now job info hash s) where
  filed := fun hfiled => Table.all_modify hfiled fun _ _ => rfl
  queue := rfl
  bytes := Table.total_modify_le fun _ => le_refl _
  versions := fun _ row hrow => ⟨row, hrow, rfl⟩
  stays := fun _ hcurrent => hcurrent
  tags := fun other => by
    have hkey : (readyRef job info).key = job.key := rfl
    simp only [etag?, publishRow, setRecord, Table.get?_modify, hkey]
    split_ifs
    · simp only [Option.map_map]
      congr 1
      funext r
      simp [hhash]
    · rfl

theorem Published.after_sign {job : Job} {signature : Bytes} {hash : Bytes} {n : Nat}
    {s s' : AssetStore} (h : Published job.key hash n (sign job.source.id signature s) s') :
    Published job.key hash n s s' where
  filed := h.filed
  queue := h.queue
  bytes := h.bytes
  versions := fun id row hrow => by
    obtain ⟨row₁, hrow₁, hsame₁⟩ := h.versions id row hrow
    obtain ⟨row₀, hrow₀, hsame₀⟩ := sign_versions id row₁ hrow₁
    exact ⟨row₀, hrow₀, hsame₀.trans hsame₁⟩
  stays := by
    rintro other ⟨row, hrow, hversion⟩
    refine h.stays other ?_
    unfold current sign
    rw [Table.get?_modify, hrow]
    split_ifs
    · exact ⟨_, rfl, hversion⟩
    · exact ⟨_, rfl, hversion⟩
  tags := h.tags

/-- Entity tags on record stay, where the job knew the one of its key. -/
theorem Published.tagged {key key' : AssetKey} {hash tag : Bytes} {known : Option Bytes} {n : Nat}
    {s s' : AssetStore} (h : Published key hash n s s') (hknown : s.Tagged key known)
    (hagree : known = none ∨ known = some hash) (htag : s.Tagged key' (some tag)) :
    s'.Tagged key' (some tag) := by
  rintro ⟨row, hrow, hversion⟩
  obtain ⟨row₀, hrow₀, hsame⟩ := h.versions key'.1 row hrow
  have hcurrent : s.current key' := ⟨row₀, hrow₀, hsame.trans hversion⟩
  rw [h.tags]
  split_ifs with hkey
  · subst hkey
    have hboth := (hknown hcurrent).symm.trans (htag hcurrent)
    rw [Option.some.injEq] at hboth
    rcases hagree with hnone | hsome
    · rw [hnone] at hboth
      cases hboth
    · rw [htag hcurrent, ← hboth, hsome]
      rfl
  · exact htag hcurrent

theorem Published.tag {key : AssetKey} {hash : Bytes} {known : Option Bytes} {n : Nat}
    {s s' : AssetStore} (h : Published key hash n s s') (hknown : s.Tagged key known) :
    s'.Tagged key (some hash) := by
  rintro ⟨row, hrow, hversion⟩
  obtain ⟨row₀, hrow₀, hsame⟩ := h.versions key.1 row hrow
  rw [h.tags, if_pos rfl, hknown ⟨row₀, hrow₀, hsame.trans hversion⟩]
  rfl

variable {c c' : Conn AssetStore Bytes} {job : Job} {signature : Option Bytes}
  {result : Except Int (ImageInfo × Bytes)}

/-- What the publishing statements do to the tables. -/
theorem publish_run {info : ImageInfo} {hash : Bytes} {published : Bool} (hhash : hash ≠ [])
    (hfiled : ∀ key r, c.db.representations.get? key = some r → r.record.key = key)
    (hqueue : c.db.work.rows.length ≤ maxQueue) (hfresh : ∀ i ∈ c.fresh, F i)
    (h : (do
      Sql.each (fun signature => Sql.execute (sign job.source.id signature)) signature.toList
      Sql.execute (publishRow now job info hash)
      Sql.execute (deleteWork job.key)
      publishOwners enc now job.source.id
      return true : StoreTx Bool).run c = (.ok published, c')) :
    published = true ∧ ∃ s₁, Published job.key hash info.bytes c.db s₁ ∧ Sound F s₁ c'.db := by
  have hsafe : Sql.Safe (fun _ => True) F (Sql.each (fun signature =>
      (Sql.execute (sign job.source.id signature) : StoreTx Unit)) signature.toList) :=
    .each fun _ _ => .execute fun _ _ => trivial
  obtain ⟨_, c₁, hsign, h⟩ := Sql.bind_ok h
  obtain ⟨_, c₂, hrow, h⟩ := Sql.bind_ok h
  obtain ⟨_, c₃, hwork, h⟩ := Sql.bind_ok h
  obtain ⟨_, c₄, howners, h⟩ := Sql.bind_ok h
  obtain ⟨rfl, rfl⟩ := Sql.pure_ok h
  have hdb₂ : c₂.db = publishRow now job info hash c₁.db := Sql.execute_ok hrow
  have hpublished : Published job.key hash info.bytes c.db c₂.db := by
    rw [hdb₂]
    cases signature with
    | none =>
      obtain ⟨-, rfl⟩ := Sql.pure_ok hsign
      exact publishRow_published hhash
    | some signature =>
      obtain ⟨_, c₀, hsign, hpure⟩ := Sql.bind_ok hsign
      obtain ⟨-, rfl⟩ := Sql.pure_ok hpure
      rw [Sql.execute_ok hsign]
      exact (publishRow_published hhash).after_sign
  refine ⟨rfl, c₂.db, hpublished, ?_⟩
  have hsound : Sound F c₂.db c₂.db :=
    .refl (hpublished.filed hfiled) (by rw [hpublished.queue]; exact hqueue)
  have hfresh₃ : ∀ i ∈ c₃.fresh, F i := by
    rw [(Sql.statement_ok hwork).2, (Sql.statement_ok hrow).2]
    exact (hsafe.run hsign trivial hfresh).2
  refine (publishOwners_sound.run howners ?_ hfresh₃).1
  rw [Sql.execute_ok hwork]
  exact hsound.deleteWork

theorem isCurrent_current {epoch : Bytes} {s : AssetStore}
    (h : isCurrent epoch job.source s = true) : s.current job.key := by
  rw [isCurrent, Bool.and_eq_true, Option.any_eq_true] at h
  obtain ⟨-, row, hrow, hmatch⟩ := h
  simp only [Bool.and_eq_true, decide_eq_true_eq] at hmatch
  exact ⟨row, hrow, hmatch.1.2⟩

/-- Two ways a conversion ends: nothing was published, or the bytes have the entity tag
that the job knew, if it knew one. -/
theorem completed_cases {published : Except Error Bool}
    (hhash : ∀ info hash, result = .ok (info, hash) → hash ≠ [])
    (hfiled : ∀ key r, c.db.representations.get? key = some r → r.record.key = key)
    (hqueue : c.db.work.rows.length ≤ maxQueue) (hfresh : ∀ i ∈ c.fresh, F i)
    (h : (completed enc now job signature result).run c = (published, c')) :
    (published ≠ .ok true ∧ Sound F c.db c'.db) ∨
      published = .ok true ∧ ∃ info hash s₁, result = .ok (info, hash) ∧
        c.db.current job.key ∧ (job.etag = none ∨ job.etag = some hash) ∧
        Published job.key hash info.bytes c.db s₁ ∧ Sound F s₁ c'.db := by
  have hsame : Sound F c.db c.db := .refl hfiled hqueue
  cases published with
  | error e =>
    refine Or.inl ⟨fun h => (by cases h), ?_⟩
    rw [Sql.transaction_error h]
    exact hsame
  | ok published =>
    obtain ⟨c₁, c₂, hdb₁, hfresh₁, hbody, hdb₂⟩ := Sql.transaction_ok h
    obtain ⟨live, c₃, hlive, hbody⟩ := Sql.bind_ok hbody
    have hdb₃ : c₃.db = c.db := (Sql.query_ok hlive).2.trans hdb₁
    have hfresh₃ : ∀ i ∈ c₃.fresh, F i := by
      rw [(Sql.statement_ok hlive).2, hfresh₁]
      exact hfresh
    rw [hdb₂]
    rw [← hdb₃] at hsame ⊢
    cases live with
    | false =>
      obtain ⟨rfl, rfl⟩ := Sql.pure_ok hbody
      exact Or.inl ⟨fun h => (by cases h), hsame⟩
    | true =>
      cases result with
      | error code =>
        have hsafe : SoundBy F c₃.db (do failJob enc now job code; return false) :=
          .bind failJob_sound fun _ => .pure
        obtain ⟨_, c₄, -, hpure⟩ := Sql.bind_ok hbody
        obtain ⟨rfl, -⟩ := Sql.pure_ok hpure
        exact Or.inl ⟨fun h => (by cases h), (hsafe.run hbody hsame hfresh₃).1⟩
      | ok made =>
        obtain ⟨info, hash⟩ := made
        simp only [Bool.not_true, Bool.false_eq_true, if_false] at hbody
        split at hbody
        · have hsafe : SoundBy F c₃.db (do
              let _ ← rotate job.source job.source.path job.source.fingerprint
              publishOwners enc now job.source.id
              return false) :=
            .bind rotate_sound fun _ => .bind publishOwners_sound fun _ => .pure
          obtain ⟨_, c₄, -, hrest⟩ := Sql.bind_ok hbody
          obtain ⟨_, c₅, -, hpure⟩ := Sql.bind_ok hrest
          obtain ⟨rfl, -⟩ := Sql.pure_ok hpure
          exact Or.inl ⟨fun h => (by cases h), (hsafe.run hbody hsame hfresh₃).1⟩
        · next hagree =>
          obtain ⟨rfl, s₁, hpublished, hsound⟩ :=
            publish_run (hhash info hash rfl) (hdb₃ ▸ hfiled) (hdb₃ ▸ hqueue) hfresh₃ hbody
          have hcurrent := isCurrent_current ((Sql.query_ok hlive).1.symm)
          rw [hdb₁, ← hdb₃] at hcurrent
          refine Or.inr ⟨rfl, info, hash, s₁, rfl, hcurrent, ?_, hpublished, hsound⟩
          cases htag : job.etag with
          | none => exact Or.inl rfl
          | some tag =>
            rw [htag, Option.any_some, decide_eq_true_eq, not_not] at hagree
            exact Or.inr (congrArg some hagree)

end Publication

section Results

variable {c c' : Conn AssetStore Bytes}

theorem lookup_ok {id version : Bytes} {variant : AssetVariant} {value : Lookup}
    (h : (lookup now id version variant).run c = (.ok value, c')) :
    c.db.current (id, version, variant) ∧ c.db.etag? (id, version, variant) = some value.etag := by
  obtain ⟨source, c₁, hsource, h⟩ := Sql.bind_ok h
  obtain ⟨source', c₂, hfound, h⟩ := Sql.bind_ok h
  obtain ⟨_, c₃, hversion, h⟩ := Sql.bind_ok h
  obtain ⟨row, c₄, hrow, h⟩ := Sql.bind_ok h
  obtain ⟨row', c₅, hrow', h⟩ := Sql.bind_ok h
  obtain ⟨_, c₆, -, h⟩ := Sql.bind_ok h
  obtain ⟨_, c₇, -, h⟩ := Sql.bind_ok h
  obtain ⟨rfl, -⟩ := Sql.pure_ok h
  obtain ⟨rfl, hdb₁⟩ := Sql.query_ok hsource
  obtain ⟨hfilter, rfl⟩ := Sql.orThrow_ok hfound
  obtain ⟨hsame, rfl⟩ := Sql.require_ok hversion
  obtain ⟨rfl, -⟩ := Sql.query_ok hrow
  obtain ⟨hget, -⟩ := Sql.orThrow_ok hrow'
  rw [hdb₁] at hget
  exact ⟨⟨source', (Option.filter_eq_some_iff.mp hfilter).1, (of_decide_eq_true hsame).symm⟩,
    by rw [etag?, hget, Option.map_some]⟩

/-- A job knows the entity tag on record for its key, and its version is current. -/
theorem jobOf_some {contact : Bool} {s : AssetStore} {key : AssetKey} {job : Job}
    (h : jobOf contact s key = some job) : s.current job.key ∧ s.etag? job.key = some job.etag := by
  simp only [jobOf, Option.bind_eq_bind, Option.bind_eq_some_iff] at h
  obtain ⟨source, hsource, row, hrow, h⟩ := h
  split_ifs at h with hlive
  obtain rfl := Option.some.inj h
  rw [Bool.and_eq_true, Bool.and_eq_true, decide_eq_true_eq] at hlive
  have hkey : (key.1, source.version, key.2.2) = key := by rw [hlive.1.1]
  refine ⟨⟨source, hsource, rfl⟩, ?_⟩
  change s.etag? (key.1, source.version, key.2.2) = _
  rw [hkey, etag?, hrow, Option.map_some]

theorem nextJob_ok {contact : Bool} {job : Job}
    (h : (nextJob now contact).run c = (.ok (some job), c')) :
    c'.db.current job.key ∧ c'.db.etag? job.key = some job.etag := by
  have hquery {c₁ : Conn AssetStore Bytes}
      (h : (Sql.query (nextOf now contact) : StoreTx (Option Job)).run c₁ = (.ok (some job), c')) :
      c'.db.current job.key ∧ c'.db.etag? job.key = some job.etag := by
    obtain ⟨hjob, hdb⟩ := Sql.query_ok h
    obtain ⟨r, -, hr⟩ := List.mem_filterMap.mp (List.mem_of_head? hjob.symm)
    rw [hdb]
    exact jobOf_some hr
  cases contact with
  | false => exact hquery h
  | true =>
    obtain ⟨_, c₁, -, h⟩ := Sql.bind_ok h
    exact hquery h

end Results

end Operations

end AssetStore

end Zimbr.Relay
