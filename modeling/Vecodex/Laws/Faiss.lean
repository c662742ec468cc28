import Vecodex.Index.Segment

/-!
# Laws of the base index wrapper

Every operation keeps the representation invariant `FaissIndex.Wf`.

`FaissIndex.LiveAt` says which ids live at which positions. The laws of this module describe each
operation by what it does to that relation. The wrapper finds the position of an id through
`ids`, so an erase reaches one live position of an id and no other; `Unshadowed` says that this
is all of them.
-/

namespace Vecodex

open Lib

variable {B ID Vec Dist : Type} [DecidableEq ID]

namespace FaissIndex

/-- Position `p` holds the id `x` and is not erased. -/
def LiveAt (f : FaissIndex B ID) (p : Nat) (x : ID) : Prop :=
  f.invIds.lookup p = some x ∧ p ∉ f.erased

/-- The id has a live position. -/
def LiveId (f : FaissIndex B ID) (x : ID) : Prop := ∃ p, f.LiveAt p x

/-- The live positions of `x` are the one an erase finds. -/
def UnshadowedId (f : FaissIndex B ID) (x : ID) : Prop :=
  ∀ p, f.LiveAt p x → f.ids.lookup x = some p

/-- No live position of any id is out of an erase's reach. -/
def Unshadowed (f : FaissIndex B ID) : Prop := ∀ x, f.UnshadowedId x

/-- Every id has at most one live position. -/
def LiveOnce (f : FaissIndex B ID) : Prop := ∀ x p p', f.LiveAt p x → f.LiveAt p' x → p = p'

/-- No id is live in both. -/
def Apart (f g : FaissIndex B ID) : Prop := ∀ x, f.LiveId x → ¬ g.LiveId x

omit [DecidableEq ID] in
theorem liveAt_iff {f : FaissIndex B ID} {p : Nat} {x : ID} :
    f.LiveAt p x ↔ (⟨p, x⟩ : Σ _ : Nat, ID) ∈ f.invIds.entries ∧ p ∉ f.erased :=
  and_congr_left' AList.mem_lookup_iff

instance (f : FaissIndex B ID) (x : ID) : Decidable (f.LiveId x) :=
  decidable_of_iff (∃ e ∈ f.invIds.entries, e.1 ∉ f.erased ∧ e.2 = x)
    ⟨fun ⟨e, he, hlive, hx⟩ => ⟨e.1, liveAt_iff.mpr ⟨hx ▸ he, hlive⟩⟩,
      fun ⟨p, hp⟩ => ⟨⟨p, x⟩, (liveAt_iff.mp hp).1, hp.2, rfl⟩⟩

instance (f : FaissIndex B ID) : Decidable f.Unshadowed :=
  decidable_of_iff
    (∀ e ∈ f.invIds.entries, e.1 ∉ f.erased → f.ids.lookup e.2 = some e.1)
    ⟨fun h x p hp => h ⟨p, x⟩ (liveAt_iff.mp hp).1 hp.2,
      fun h e he hlive => h e.2 e.1 (liveAt_iff.mpr ⟨he, hlive⟩)⟩

instance (f : FaissIndex B ID) : Decidable f.LiveOnce :=
  decidable_of_iff
    (∀ e ∈ f.invIds.entries, e.1 ∉ f.erased → ∀ e' ∈ f.invIds.entries, e'.1 ∉ f.erased →
      e.2 = e'.2 → e.1 = e'.1)
    ⟨fun h x p p' hp hp' => h ⟨p, x⟩ (liveAt_iff.mp hp).1 hp.2 ⟨p', x⟩ (liveAt_iff.mp hp').1 hp'.2
        rfl,
      fun h e he hlive e' he' hlive' hid => h e.2 e.1 e'.1 (liveAt_iff.mpr ⟨he, hlive⟩)
        (liveAt_iff.mpr ⟨hid ▸ he', hlive'⟩)⟩

instance (f g : FaissIndex B ID) : Decidable (f.Apart g) :=
  decidable_of_iff (∀ e ∈ f.invIds.entries, e.1 ∉ f.erased → ¬ g.LiveId e.2)
    ⟨fun h x ⟨p, hp⟩ => h ⟨p, x⟩ (liveAt_iff.mp hp).1 hp.2,
      fun h e he hlive => h e.2 ⟨e.1, liveAt_iff.mpr ⟨he, hlive⟩⟩⟩

theorem wf_create (rt : Runtime B ID Vec Dist) (kind : BaseKind) :
    (create rt kind : FaissIndex B ID).Wf where
  bound p := by simp [create]
  latest x p := by simp [create]
  erased_lt p hp := by simp [create] at hp

omit [DecidableEq ID] in
theorem not_liveAt_create (rt : Runtime B ID Vec Dist) (kind : BaseKind) (p : Nat) (x : ID) :
    ¬ (create rt kind : FaissIndex B ID).LiveAt p x := by
  simp [create, LiveAt]

theorem LiveAt.lt {f : FaissIndex B ID} (hf : f.Wf) {p : Nat} {x : ID} (h : f.LiveAt p x) :
    p < f.nextId :=
  (hf.bound p).mp (AList.lookup_isSome.mp (by rw [h.1]; rfl))

theorem Wf.lookup_none {f : FaissIndex B ID} (hf : f.Wf) {p : Nat} (h : f.nextId ≤ p) :
    f.invIds.lookup p = none :=
  AList.lookup_eq_none.mpr fun hp => absurd ((hf.bound p).mp hp) (by omega)

/-- Every bound position is one of the first `nextId` ones. -/
theorem Wf.length_invIds_le {f : FaissIndex B ID} (hf : f.Wf) :
    f.invIds.entries.length ≤ f.nextId := by
  have hcard := Finset.card_le_card (s := f.invIds.keys.toFinset) (t := Finset.range f.nextId)
    fun p hp =>
      Finset.mem_range.mpr ((hf.bound p).mp (AList.mem_keys.mpr (List.mem_toFinset.mp hp)))
  rw [List.toFinset_card_of_nodup f.invIds.keys_nodup, Finset.card_range] at hcard
  exact (List.length_map Sigma.fst).symm.le.trans hcard

/-- A live id has exactly one live position when none is shadowed. -/
theorem UnshadowedId.unique {f : FaissIndex B ID} {x : ID} (h : f.UnshadowedId x) {p p' : Nat}
    (hp : f.LiveAt p x) (hp' : f.LiveAt p' x) : p = p' :=
  Option.some.inj ((h p hp).symm.trans (h p' hp'))

theorem Unshadowed.liveOnce {f : FaissIndex B ID} (h : f.Unshadowed) : f.LiveOnce :=
  fun x _ _ hp hp' => (h x).unique hp hp'

/-! ## Adding -/

theorem bindId_lookup_inv (f : FaissIndex B ID) (x : ID) (p : Nat) :
    (f.bindId x).invIds.lookup p = if p = f.nextId then some x else f.invIds.lookup p := by
  split
  · next h => subst h; exact AList.lookup_insert _
  · next h => exact AList.lookup_insert_ne h

theorem bindId_lookup_ids (f : FaissIndex B ID) (x y : ID) :
    (f.bindId x).ids.lookup y = if y = x then some f.nextId else f.ids.lookup y := by
  split
  · next h => subst h; exact AList.lookup_insert _
  · next h => exact AList.lookup_insert_ne h

theorem Wf.bindId {f : FaissIndex B ID} (hf : f.Wf) (x : ID) : (f.bindId x).Wf where
  bound p := by
    show p ∈ f.invIds.insert f.nextId x ↔ p < f.nextId + 1
    rw [AList.mem_insert, hf.bound]
    omega
  latest y p := by
    have hnone := fun p' (h : f.nextId ≤ p') => hf.lookup_none h
    rw [bindId_lookup_ids]
    simp only [bindId_lookup_inv]
    by_cases hy : y = x
    · subst hy
      rw [if_pos rfl]
      constructor
      · intro h
        cases h
        refine ⟨if_pos rfl, fun p' hp' => ?_⟩
        by_contra hlt
        rw [if_neg (by omega), hnone p' (by omega)] at hp'
        cases hp'
      · rintro ⟨hp, hmax⟩
        have hge : f.nextId ≤ p := hmax f.nextId (if_pos rfl)
        by_cases hpn : p = f.nextId
        · rw [hpn]
        · rw [if_neg hpn, hnone p hge] at hp
          cases hp
    · rw [if_neg hy, hf.latest]
      have hne : ∀ p', p' = f.nextId → (if p' = f.nextId then some x else f.invIds.lookup p') ≠
          some y := by
        intro p' h he
        rw [if_pos h] at he
        exact hy (Option.some.inj he).symm
      have hback : ∀ p', (if p' = f.nextId then some x else f.invIds.lookup p') = some y ↔
          f.invIds.lookup p' = some y := by
        intro p'
        by_cases h : p' = f.nextId
        · exact ⟨fun he => absurd he (hne p' h), fun he => by
            rw [h, hnone _ (le_refl _)] at he; cases he⟩
        · rw [if_neg h]
      simp only [hback]
  erased_lt p hp := Nat.lt_succ_of_lt (hf.erased_lt p hp)

theorem Wf.congr_index {f : FaissIndex B ID} (hf : f.Wf) (b : B) :
    ({ f with index := b } : FaissIndex B ID).Wf :=
  ⟨hf.bound, hf.latest, hf.erased_lt⟩

theorem Wf.foldl_bindId {f : FaissIndex B ID} (hf : f.Wf) (xs : List ID) :
    (xs.foldl FaissIndex.bindId f).Wf := by
  induction xs generalizing f with
  | nil => exact hf
  | cons x xs ih => exact ih (hf.bindId x)

theorem Wf.addBatch {f : FaissIndex B ID} (hf : f.Wf) (rt : Runtime B ID Vec Dist)
    (batch : List (ID × Vec)) : (f.addBatch rt batch).Wf :=
  (hf.congr_index _).foldl_bindId _

/-- What the id loop of `add_batch` leaves alone. -/
theorem foldl_bindId_frame (f : FaissIndex B ID) (xs : List ID) :
    (xs.foldl bindId f).kind = f.kind ∧ (xs.foldl bindId f).index = f.index ∧
      (xs.foldl bindId f).erased = f.erased ∧
      (xs.foldl bindId f).nextId = f.nextId + xs.length := by
  induction xs generalizing f with
  | nil => exact ⟨rfl, rfl, rfl, rfl⟩
  | cons x xs ih =>
    obtain ⟨hk, hi, he, hn⟩ := ih (f.bindId x)
    refine ⟨hk, hi, he, ?_⟩
    rw [List.foldl_cons, hn]
    show f.nextId + 1 + xs.length = f.nextId + (xs.length + 1)
    omega

theorem foldl_bindId_lookup_inv (f : FaissIndex B ID) (xs : List ID) (p : Nat) :
    (xs.foldl bindId f).invIds.lookup p =
      if f.nextId ≤ p ∧ p < f.nextId + xs.length then xs[p - f.nextId]?
      else f.invIds.lookup p := by
  induction xs generalizing f with
  | nil => simp
  | cons x xs ih =>
    rw [List.foldl_cons, ih, bindId_lookup_inv]
    show (if f.nextId + 1 ≤ p ∧ p < f.nextId + 1 + xs.length then xs[p - (f.nextId + 1)]?
      else _) = _
    by_cases hp : p = f.nextId
    · subst hp
      simp
    · by_cases hin : f.nextId + 1 ≤ p ∧ p < f.nextId + 1 + xs.length
      · rw [if_pos hin, if_pos (by simp only [List.length_cons]; omega)]
        obtain ⟨n, rfl⟩ := Nat.exists_eq_add_of_le hin.1
        rw [show f.nextId + 1 + n - (f.nextId + 1) = n by omega,
          show f.nextId + 1 + n - f.nextId = n + 1 by omega, List.getElem?_cons_succ]
      · rw [if_neg hin, if_neg hp, if_neg (by simp only [List.length_cons]; omega)]

section AddBatch

variable (rt : Runtime B ID Vec Dist) (f : FaissIndex B ID) (batch : List (ID × Vec))

@[simp] theorem addBatch_kind : (f.addBatch rt batch).kind = f.kind :=
  (foldl_bindId_frame _ _).1

@[simp] theorem addBatch_index :
    (f.addBatch rt batch).index = rt.faiss.add f.index (batch.map Prod.snd) :=
  (foldl_bindId_frame _ _).2.1

@[simp] theorem addBatch_erased : (f.addBatch rt batch).erased = f.erased :=
  (foldl_bindId_frame _ _).2.2.1

@[simp] theorem addBatch_nextId : (f.addBatch rt batch).nextId = f.nextId + batch.length := by
  rw [addBatch, (foldl_bindId_frame _ _).2.2.2, List.length_map]

theorem addBatch_lookup_inv (p : Nat) :
    (f.addBatch rt batch).invIds.lookup p =
      if f.nextId ≤ p ∧ p < f.nextId + batch.length then (batch[p - f.nextId]?).map Prod.fst
      else f.invIds.lookup p := by
  rw [addBatch, foldl_bindId_lookup_inv, List.length_map, List.getElem?_map]

end AddBatch

/-- A batch makes its ids live at the positions after the old ones. -/
theorem addBatch_liveAt {f : FaissIndex B ID} (hf : f.Wf) (rt : Runtime B ID Vec Dist)
    (batch : List (ID × Vec)) (p : Nat) (x : ID) :
    (f.addBatch rt batch).LiveAt p x ↔
      f.LiveAt p x ∨ f.nextId ≤ p ∧ ∃ v, batch[p - f.nextId]? = some (x, v) := by
  unfold LiveAt
  rw [addBatch_lookup_inv, addBatch_erased]
  by_cases hin : f.nextId ≤ p ∧ p < f.nextId + batch.length
  · rw [if_pos hin, hf.lookup_none hin.1]
    have hne : p ∉ f.erased := fun he => absurd (hf.erased_lt p he) (by omega)
    simp [hin.1, hne]
  · rw [if_neg hin]
    constructor
    · exact Or.inl
    · rintro (h | ⟨hle, v, hv⟩)
      · exact h
      · have := (List.getElem?_eq_some_iff.mp hv).1
        omega

theorem addBatch_liveId {f : FaissIndex B ID} (hf : f.Wf) (rt : Runtime B ID Vec Dist)
    (batch : List (ID × Vec)) (x : ID) :
    (f.addBatch rt batch).LiveId x ↔ f.LiveId x ∨ x ∈ batch.map Prod.fst := by
  constructor
  · rintro ⟨p, hp⟩
    rcases (addBatch_liveAt hf rt batch p x).mp hp with h | ⟨-, v, hv⟩
    · exact Or.inl ⟨p, h⟩
    · exact Or.inr (List.mem_map.mpr ⟨(x, v), List.mem_of_getElem? hv, rfl⟩)
  · rintro (⟨p, h⟩ | h)
    · exact ⟨p, (addBatch_liveAt hf rt batch p x).mpr (Or.inl h)⟩
    · obtain ⟨⟨y, v⟩, hmem, rfl⟩ := List.mem_map.mp h
      obtain ⟨n, hn⟩ := List.mem_iff_getElem?.mp hmem
      refine ⟨f.nextId + n, (addBatch_liveAt hf rt batch _ _).mpr (Or.inr ⟨by omega, v, ?_⟩)⟩
      rw [show f.nextId + n - f.nextId = n by omega]
      exact hn

/-- Ids that are not live yet, each added once, are within an erase's reach. -/
theorem Unshadowed.addBatch {f : FaissIndex B ID} (hf : f.Wf) (hu : f.Unshadowed)
    (rt : Runtime B ID Vec Dist) {batch : List (ID × Vec)} (hnodup : (batch.map Prod.fst).Nodup)
    (hfresh : ∀ x ∈ batch.map Prod.fst, ¬ f.LiveId x) : (f.addBatch rt batch).Unshadowed := by
  intro x p hp
  have hg := hf.addBatch rt batch
  refine (hg.latest x p).mpr ⟨hp.1, fun p' hp' => ?_⟩
  have hpos : ∀ {p v}, batch[p - f.nextId]? = some (x, v) → x ∈ batch.map Prod.fst :=
    fun hv => List.mem_map.mpr ⟨(x, _), List.mem_of_getElem? hv, rfl⟩
  rw [addBatch_lookup_inv] at hp'
  rcases (addBatch_liveAt hf rt batch p x).mp hp with hold | ⟨hle, v, hv⟩
  · by_cases hin : f.nextId ≤ p' ∧ p' < f.nextId + batch.length
    · rw [if_pos hin] at hp'
      obtain ⟨⟨y, w⟩, hy, rfl⟩ := Option.map_eq_some_iff.mp hp'
      exact absurd ⟨p, hold⟩ (hfresh y (hpos hy))
    · rw [if_neg hin] at hp'
      exact ((hf.latest x p).mp (hu x p hold)).2 p' hp'
  · by_cases hin : f.nextId ≤ p' ∧ p' < f.nextId + batch.length
    · rw [if_pos hin] at hp'
      -- both positions lie in the batch, whose ids are distinct
      have h1 : (batch.map Prod.fst)[p - f.nextId]? = some x := by rw [List.getElem?_map, hv]; rfl
      have h2 : (batch.map Prod.fst)[p' - f.nextId]? = some x := by rw [List.getElem?_map, hp']
      obtain ⟨hlt, he⟩ := List.getElem?_eq_some_iff.mp h1
      have := (List.getElem?_inj hlt hnodup).mp (h1.trans h2.symm)
      omega
    · rw [if_neg hin] at hp'
      by_contra hlt
      have hnone := hf.lookup_none (p := p') (by omega)
      rw [hnone] at hp'
      cases hp'

/-! ## Erasing -/

theorem eraseId_frame (f : FaissIndex B ID) (x : ID) :
    (f.eraseId x).kind = f.kind ∧ (f.eraseId x).index = f.index ∧
      (f.eraseId x).nextId = f.nextId ∧ (f.eraseId x).ids = f.ids ∧
      (f.eraseId x).invIds = f.invIds := by
  unfold eraseId
  split <;> exact ⟨rfl, rfl, rfl, rfl, rfl⟩

theorem mem_eraseId_erased (f : FaissIndex B ID) (x : ID) (p : Nat) :
    p ∈ (f.eraseId x).erased ↔ p ∈ f.erased ∨ f.ids.lookup x = some p := by
  unfold eraseId
  split
  · next p' h =>
    rw [h, Finset.mem_insert, Option.some.injEq, or_comm, @eq_comm _ p p']
  · next h => simp [h]

theorem eraseBatch_frame (f : FaissIndex B ID) (ids : List ID) :
    (f.eraseBatch ids).kind = f.kind ∧ (f.eraseBatch ids).index = f.index ∧
      (f.eraseBatch ids).nextId = f.nextId ∧ (f.eraseBatch ids).ids = f.ids ∧
      (f.eraseBatch ids).invIds = f.invIds := by
  unfold eraseBatch
  induction ids generalizing f with
  | nil => exact ⟨rfl, rfl, rfl, rfl, rfl⟩
  | cons x ids ih =>
    obtain ⟨h1, h2, h3, h4, h5⟩ := ih (f.eraseId x)
    obtain ⟨g1, g2, g3, g4, g5⟩ := eraseId_frame f x
    exact ⟨h1.trans g1, h2.trans g2, h3.trans g3, h4.trans g4, h5.trans g5⟩

section EraseBatch

variable (f : FaissIndex B ID) (ids : List ID)

@[simp] theorem eraseBatch_kind : (f.eraseBatch ids).kind = f.kind := (eraseBatch_frame f ids).1

@[simp] theorem eraseBatch_index : (f.eraseBatch ids).index = f.index :=
  (eraseBatch_frame f ids).2.1

@[simp] theorem eraseBatch_nextId : (f.eraseBatch ids).nextId = f.nextId :=
  (eraseBatch_frame f ids).2.2.1

@[simp] theorem eraseBatch_ids : (f.eraseBatch ids).ids = f.ids :=
  (eraseBatch_frame f ids).2.2.2.1

@[simp] theorem eraseBatch_invIds : (f.eraseBatch ids).invIds = f.invIds :=
  (eraseBatch_frame f ids).2.2.2.2

theorem mem_eraseBatch_erased (p : Nat) :
    p ∈ (f.eraseBatch ids).erased ↔ p ∈ f.erased ∨ ∃ x ∈ ids, f.ids.lookup x = some p := by
  induction ids generalizing f with
  | nil => simp [eraseBatch]
  | cons x ids ih =>
    have h := ih (f.eraseId x)
    rw [mem_eraseId_erased, (eraseId_frame f x).2.2.2.1] at h
    simp only [List.mem_cons, exists_eq_or_imp]
    rw [← or_assoc, ← h]
    rfl

end EraseBatch

theorem Wf.eraseBatch {f : FaissIndex B ID} (hf : f.Wf) (ids : List ID) :
    (f.eraseBatch ids).Wf where
  bound p := by rw [eraseBatch_invIds, eraseBatch_nextId]; exact hf.bound p
  latest x p := by rw [eraseBatch_ids, eraseBatch_invIds]; exact hf.latest x p
  erased_lt p hp := by
    rw [eraseBatch_nextId]
    rcases (mem_eraseBatch_erased f ids p).mp hp with h | ⟨x, -, hx⟩
    · exact hf.erased_lt p h
    · exact (hf.bound p).mp (AList.lookup_isSome.mp (by rw [((hf.latest x p).mp hx).1]; rfl))

/-- An erase ends the life of the position `ids` holds, for every id it names. -/
theorem eraseBatch_liveAt {f : FaissIndex B ID} (hf : f.Wf) (ids : List ID) (p : Nat) (x : ID) :
    (f.eraseBatch ids).LiveAt p x ↔
      f.LiveAt p x ∧ ¬ (x ∈ ids ∧ f.ids.lookup x = some p) := by
  unfold LiveAt
  rw [eraseBatch_invIds, mem_eraseBatch_erased, not_or]
  constructor
  · rintro ⟨hx, hne, hno⟩
    exact ⟨⟨hx, hne⟩, fun h => hno ⟨x, h.1, h.2⟩⟩
  · rintro ⟨⟨hx, hne⟩, hno⟩
    refine ⟨hx, hne, ?_⟩
    rintro ⟨y, hy, hyp⟩
    obtain rfl : y = x := Option.some.inj (((hf.latest y p).mp hyp).1.symm.trans hx)
    exact hno ⟨hy, hyp⟩

theorem UnshadowedId.eraseBatch {f : FaissIndex B ID} (hf : f.Wf) {x : ID}
    (hu : f.UnshadowedId x) (ids : List ID) : (f.eraseBatch ids).UnshadowedId x := by
  intro p hp
  rw [eraseBatch_ids]
  exact hu p ((eraseBatch_liveAt hf ids p x).mp hp).1

theorem Unshadowed.eraseBatch {f : FaissIndex B ID} (hf : f.Wf) (hu : f.Unshadowed)
    (ids : List ID) : (f.eraseBatch ids).Unshadowed :=
  fun x => (hu x).eraseBatch hf ids

/-- A position out of an erase's reach stays so. -/
theorem eraseBatch_unshadowed_iff {f : FaissIndex B ID} (hf : f.Wf) (ids : List ID) :
    (f.eraseBatch ids).Unshadowed ↔ f.Unshadowed := by
  refine ⟨fun h x p hp => ?_, fun h => h.eraseBatch hf ids⟩
  by_contra hmissed
  have hlive := (eraseBatch_liveAt hf ids p x).mpr ⟨hp, fun hfound => hmissed hfound.2⟩
  have hfound := h x p hlive
  rw [eraseBatch_ids] at hfound
  exact hmissed hfound

/-- Erasing the same ids again changes nothing. -/
theorem eraseBatch_eraseBatch (f : FaissIndex B ID) (ids : List ID) :
    (f.eraseBatch ids).eraseBatch ids = f.eraseBatch ids := by
  have herased : ((f.eraseBatch ids).eraseBatch ids).erased = (f.eraseBatch ids).erased := by
    ext p
    simp only [mem_eraseBatch_erased, eraseBatch_ids, or_assoc, or_self]
  obtain ⟨h1, h2, h3, h4, h5⟩ := eraseBatch_frame (f.eraseBatch ids) ids
  exact FaissIndex.ext h1 h2 h3 h4 h5 herased

/-! ## Merging -/

omit [DecidableEq ID] in
/-- The rows a merge copies are the live ones. -/
theorem mem_survivors (rt : Runtime B ID Vec Dist) (f : FaissIndex B ID) (x : ID) (v : Vec) :
    (x, v) ∈ f.survivors rt ↔ ∃ p, f.LiveAt p x ∧ v = rt.faiss.reconstruct f.index p := by
  unfold survivors LiveAt
  simp only [List.mem_map, List.mem_filter, rt.invOrder.mem_arrange, decide_eq_true_eq,
    Prod.mk.injEq]
  constructor
  · rintro ⟨⟨p, y⟩, ⟨hmem, hne⟩, rfl, rfl⟩
    exact ⟨p, ⟨AList.mem_lookup_iff.mpr hmem, hne⟩, rfl⟩
  · rintro ⟨p, ⟨hx, hne⟩, rfl⟩
    exact ⟨⟨p, x⟩, ⟨AList.mem_lookup_iff.mp hx, hne⟩, rfl, rfl⟩

/-- A merge copies no more rows than positions are bound. -/
theorem Wf.length_survivors_le {f : FaissIndex B ID} (hf : f.Wf) (rt : Runtime B ID Vec Dist) :
    (f.survivors rt).length ≤ f.nextId := by
  unfold survivors
  rw [List.length_map]
  refine (List.length_filter_le _ _).trans ?_
  rw [(rt.invOrder.perm _).length_eq]
  exact hf.length_invIds_le

omit [DecidableEq ID] in
theorem mem_survivors_ids (rt : Runtime B ID Vec Dist) (f : FaissIndex B ID) (x : ID) :
    x ∈ (f.survivors rt).map Prod.fst ↔ f.LiveId x := by
  constructor
  · intro h
    obtain ⟨⟨y, v⟩, hmem, rfl⟩ := List.mem_map.mp h
    obtain ⟨p, hp, -⟩ := (mem_survivors rt f y v).mp hmem
    exact ⟨p, hp⟩
  · rintro ⟨p, hp⟩
    exact List.mem_map.mpr ⟨_, (mem_survivors rt f x _).mpr ⟨p, hp, rfl⟩, rfl⟩

/-- The copied rows name each live id once when no live position is shadowed. -/
theorem Unshadowed.nodup_survivors (rt : Runtime B ID Vec Dist) {f : FaissIndex B ID}
    (hu : f.Unshadowed) : ((f.survivors rt).map Prod.fst).Nodup := by
  unfold survivors
  rw [List.map_map]
  have hnodup : (f.invIds.entries.map Sigma.fst).Nodup := f.invIds.keys_nodup
  have hentries : ((rt.invOrder.arrange f.invIds.entries).filter fun e => e.1 ∉ f.erased).Nodup :=
    (((rt.invOrder.perm _).nodup_iff).mpr hnodup.of_map).filter _
  refine List.Nodup.map_on ?_ hentries
  rintro ⟨p, x⟩ hp ⟨p', x'⟩ hp' heq
  simp only [List.mem_filter, rt.invOrder.mem_arrange, decide_eq_true_eq] at hp hp'
  obtain rfl : x = x' := heq
  have h : p = p' := (hu x).unique ⟨AList.mem_lookup_iff.mpr hp.1, hp.2⟩
    ⟨AList.mem_lookup_iff.mpr hp'.1, hp'.2⟩
  rw [h]

theorem mergeFromOther_eq_ok {rt : Runtime B ID Vec Dist} {f other g : FaissIndex B ID} :
    f.mergeFromOther rt other = .ok g ↔
      f.kind = other.kind ∧ g = f.addBatch rt (other.survivors rt) := by
  unfold mergeFromOther
  split
  · next h => simp [h]
  · next h => simp [not_not.mp h, eq_comm]

end FaissIndex

end Vecodex
