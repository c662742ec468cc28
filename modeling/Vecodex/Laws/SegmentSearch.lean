import Vecodex.Laws.Contents
import Vecodex.Lib.TopK

/-!
# The search of one segment

`single_search` asks the base index for as many positions as it wants results and has erased
positions, drops the erased ones and keeps the nearest `k` of the rest. Over an exact base index
the extra positions are enough: `chosen_count` and `chosen_nearest` say that the kept positions
are as many as there can be and that no live position left out is nearer.

`searchQuery` turns the answer into a map from ids to distances. `results_dominate` is what
a search over many segments needs to know of it: the results are live rows of the segment, and
every live row they leave out has `k` of them before it.
-/

namespace Vecodex

open Lib

variable {B ID Vec Dist : Type}

namespace FaissIndex

theorem mem_candidates {rt : Runtime B ID Vec Dist} {f : FaissIndex B ID} {k : Nat} {q : Vec}
    {d : Dist} {p : Nat} :
    toLex (d, p) ∈ f.candidates rt k q ↔
      (d, some p) ∈ rt.faiss.search f.index q (k + f.erased.card) ∧ p ∈ f.invIds ∧
        p ∉ f.erased := by
  unfold candidates
  rw [List.mem_filterMap]
  constructor
  · rintro ⟨⟨d', o⟩, hmem, h⟩
    cases o with
    | none => cases h
    | some p' =>
      simp only at h
      split at h
      · next hin =>
        cases h
        exact ⟨hmem, hin⟩
      · cases h
  · rintro ⟨hmem, hin⟩
    exact ⟨(d, some p), hmem, by simp only [if_pos hin]⟩

/-- The positions of the candidates are the base positions that are bound and not erased. -/
theorem candidates_pos (rt : Runtime B ID Vec Dist) (f : FaissIndex B ID) (k : Nat) (q : Vec) :
    (f.candidates rt k q).map (fun r => (ofLex r).2) =
      ((rt.faiss.search f.index q (k + f.erased.card)).filterMap Prod.snd).filter
        fun p => p ∈ f.invIds ∧ p ∉ f.erased := by
  unfold candidates
  induction rt.faiss.search f.index q (k + f.erased.card) with
  | nil => rfl
  | cons r res ih =>
    obtain ⟨d, o⟩ := r
    cases o with
    | none => simpa using ih
    | some p =>
      by_cases hin : p ∈ f.invIds ∧ p ∉ f.erased
      · simpa [hin] using ih
      · simpa [hin] using ih

variable [LinearOrder Dist]

/-- The candidates `single_search` answers with. -/
def chosen (rt : Runtime B ID Vec Dist) (f : FaissIndex B ID) (k : Nat) (q : Vec) :
    List (Dist ×ₗ Nat) :=
  ((f.candidates rt k q).insertionSort (· ≤ ·)).take k

theorem mem_candidates_of_chosen {rt : Runtime B ID Vec Dist} {f : FaissIndex B ID} {k : Nat}
    {q : Vec} {r : Dist ×ₗ Nat} (h : r ∈ f.chosen rt k q) : r ∈ f.candidates rt k q :=
  (List.mem_insertionSort _).mp (List.mem_of_mem_take h)

theorem live_of_chosen {rt : Runtime B ID Vec Dist} {f : FaissIndex B ID} {k : Nat} {q : Vec}
    {r : Dist ×ₗ Nat} (h : r ∈ f.chosen rt k q) : ∃ x, f.LiveAt (ofLex r).2 x := by
  obtain ⟨-, hbound, hne⟩ :=
    mem_candidates.mp (mem_candidates_of_chosen h : toLex (ofLex r) ∈ f.candidates rt k q)
  obtain ⟨x, hx⟩ := Option.isSome_iff_exists.mp (AList.lookup_isSome.mpr hbound)
  exact ⟨x, hx, hne⟩

/-- `single_search` always answers: `inv_ids_.at` is asked only for bound positions. -/
theorem singleSearch_total (rt : Runtime B ID Vec Dist) (f : FaissIndex B ID) (k : Nat) (q : Vec) :
    ∃ ans, f.singleSearch rt k q = .ok ans ∧
      List.Forall₂ (fun r e => f.invIds.lookup (ofLex r).2 = some e.1 ∧ e.2 = (ofLex r).1)
        (f.chosen rt k q) ans := by
  unfold singleSearch
  refine (mapM_total (l := f.chosen rt k q) fun r hr => ?_).imp fun ans h =>
    ⟨h.1, h.2.imp fun r e he => ?_⟩
  · obtain ⟨x, hx, -⟩ := live_of_chosen hr
    exact ⟨(x, (ofLex r).1), by rw [hx]⟩
  · split at he
    · next x hx =>
      cases he
      exact ⟨hx, rfl⟩
    · cases he

/-! ## Over an exact base index -/

section Exact

variable {rt : Runtime B ID Vec Dist} {metric : Vec → Vec → Dist}
  (base : ExactBase rt.faiss metric)

variable [DecidableEq ID]
variable {f : FaissIndex B ID} (hf : f.Wf) (ha : f.Aligned base.toStoringBase) (k : Nat) (q : Vec)

omit [DecidableEq ID] in
theorem row_of_chosen {r : Dist ×ₗ Nat} (h : r ∈ f.chosen rt k q) :
    ∃ x v, f.LiveRow base.toStoringBase (ofLex r).2 x v ∧ (ofLex r).1 = metric q v := by
  obtain ⟨x, hx⟩ := live_of_chosen h
  obtain ⟨hmem, -, -⟩ :=
    mem_candidates.mp (mem_candidates_of_chosen h : toLex (ofLex r) ∈ f.candidates rt k q)
  obtain ⟨v, hv, hd⟩ := (base.search_nearest _ _ _).dist _ _ hmem
  exact ⟨x, v, ⟨hx, hv⟩, hd⟩

include base in
omit [DecidableEq ID] in
theorem nodup_chosen_pos : ((f.chosen rt k q).map fun r => (ofLex r).2).Nodup := by
  have hsub : ((f.chosen rt k q).map fun r => (ofLex r).2).Sublist
      (((f.candidates rt k q).insertionSort (· ≤ ·)).map fun r => (ofLex r).2) :=
    (List.take_sublist _ _).map _
  refine List.Nodup.sublist hsub ?_
  rw [((List.perm_insertionSort (· ≤ ·) (f.candidates rt k q)).map _).nodup_iff,
    candidates_pos]
  exact (base.search_nearest _ _ _).nodup.filter _

/-- The number of live positions. -/
def liveCount (f : FaissIndex B ID) : Nat := (Finset.range f.nextId \ f.erased).card

include hf in
theorem mem_live_positions {p : Nat} :
    p ∈ Finset.range f.nextId \ f.erased ↔ ∃ x, f.LiveAt p x := by
  rw [Finset.mem_sdiff, Finset.mem_range]
  constructor
  · rintro ⟨hlt, hne⟩
    obtain ⟨x, hx⟩ := Option.isSome_iff_exists.mp (AList.lookup_isSome.mpr ((hf.bound p).mpr hlt))
    exact ⟨x, hx, hne⟩
  · rintro ⟨x, hx⟩
    exact ⟨hx.lt hf, hx.2⟩

include hf in
/-- The chosen positions are live ones, so there are no more of them. -/
theorem chosen_pos_subset :
    ((f.chosen rt k q).map fun r => (ofLex r).2).toFinset ⊆ Finset.range f.nextId \ f.erased := by
  intro p hp
  obtain ⟨r, hr, rfl⟩ := List.mem_map.mp (List.mem_toFinset.mp hp)
  exact (mem_live_positions hf).mpr (live_of_chosen hr)

include hf ha base in
/-- Asking for `k` positions and one more for every erased one is asking for enough. -/
theorem chosen_count : (f.chosen rt k q).length = min k f.liveCount := by
  set pos := (rt.faiss.search f.index q (k + f.erased.card)).filterMap Prod.snd with hpos
  have hexact := base.search_nearest f.index q (k + f.erased.card)
  have hbound : ∀ p ∈ pos, p ∈ f.invIds := by
    intro p hp
    obtain ⟨⟨d, o⟩, hmem, ho⟩ := List.mem_filterMap.mp hp
    cases ho
    obtain ⟨v, hv, -⟩ := hexact.dist d p hmem
    rw [hf.bound, ← ha]
    exact (List.getElem?_eq_some_iff.mp hv).1
  have hcand : (f.candidates rt k q).length = (pos.toFinset \ f.erased).card := by
    rw [← List.length_map (fun r : Dist ×ₗ Nat => (ofLex r).2), candidates_pos,
      ← List.toFinset_card_of_nodup (hexact.nodup.filter _), List.toFinset_filter]
    congr 1
    ext p
    simp only [Finset.mem_filter, Finset.mem_sdiff, List.mem_toFinset, decide_eq_true_eq]
    exact ⟨fun h => ⟨h.1, h.2.2⟩, fun h => ⟨h.1, hbound p h.1, h.2⟩⟩
  have hlow : pos.toFinset.card - f.erased.card ≤ (pos.toFinset \ f.erased).card :=
    Finset.le_card_sdiff _ _
  have hhigh : (pos.toFinset \ f.erased).card ≤ f.liveCount := by
    refine Finset.card_le_card (Finset.sdiff_subset_sdiff (fun p hp => ?_) (Finset.Subset.refl _))
    exact Finset.mem_range.mpr ((hf.bound p).mp (hbound p (List.mem_toFinset.mp hp)))
  have hlive : f.liveCount = f.nextId - f.erased.card := by
    rw [liveCount, Finset.card_sdiff_of_subset, Finset.card_range]
    exact fun p hp => Finset.mem_range.mpr (hf.erased_lt p hp)
  rw [List.toFinset_card_of_nodup hexact.nodup, hexact.count, show (base.stored f.index).length =
    f.nextId from ha] at hlow
  rw [chosen, List.length_take, List.length_insertionSort, hcand]
  omega

include hf ha in
/-- A live position that is not chosen is no nearer than the `k` chosen ones. -/
theorem chosen_nearest {p : Nat} {x : ID} {v : Vec} (hrow : f.LiveRow base.toStoringBase p x v)
    (hout : p ∉ (f.chosen rt k q).map fun r => (ofLex r).2) :
    (f.chosen rt k q).length = k ∧ ∀ r ∈ f.chosen rt k q, (ofLex r).1 ≤ metric q v := by
  constructor
  · -- the chosen positions and `p` are live, so more than `min k` of them are
    have hsub : insert p ((f.chosen rt k q).map fun r => (ofLex r).2).toFinset ⊆
        Finset.range f.nextId \ f.erased :=
      Finset.insert_subset ((mem_live_positions hf).mpr ⟨x, hrow.1⟩) (chosen_pos_subset hf k q)
    have hcard := Finset.card_le_card hsub
    rw [Finset.card_insert_of_notMem (fun h => hout (List.mem_toFinset.mp h)),
      List.toFinset_card_of_nodup (nodup_chosen_pos base k q), List.length_map] at hcard
    have hcount := chosen_count base hf ha k q
    unfold liveCount at hcount
    omega
  · intro r hr
    obtain ⟨y, w, hw, hd⟩ := row_of_chosen base k q hr
    set pos := (rt.faiss.search f.index q (k + f.erased.card)).filterMap Prod.snd with hpos
    have hexact := base.search_nearest f.index q (k + f.erased.card)
    by_cases hp : p ∈ pos
    · obtain ⟨⟨d, o⟩, hmem, ho⟩ := List.mem_filterMap.mp hp
      cases ho
      obtain ⟨v', hv', hdv⟩ := hexact.dist d p hmem
      obtain rfl : v = v' := Option.some.inj (hrow.2.symm.trans hv')
      have hcand : toLex (d, p) ∈ f.candidates rt k q :=
        mem_candidates.mpr ⟨hmem, (hf.bound p).mpr (hrow.1.lt hf), hrow.1.2⟩
      have hsorted := List.pairwise_insertionSort (· ≤ ·) (f.candidates rt k q)
      rw [← List.take_append_drop k ((f.candidates rt k q).insertionSort (· ≤ ·))] at hsorted
      have hdrop : toLex (d, p) ∈ ((f.candidates rt k q).insertionSort (· ≤ ·)).drop k := by
        have hall := (List.mem_insertionSort (· ≤ ·)).mpr hcand
        rw [← List.take_append_drop k ((f.candidates rt k q).insertionSort (· ≤ ·))] at hall
        rcases List.mem_append.mp hall with h | h
        · exact absurd (List.mem_map.mpr ⟨_, h, rfl⟩) hout
        · exact h
      have hle := (List.pairwise_append.mp hsorted).2.2 r hr _ hdrop
      rw [← hdv]
      exact Prod.Lex.monotone_fst _ _ hle
    · obtain ⟨hmem, -, -⟩ :=
        mem_candidates.mp (mem_candidates_of_chosen hr : toLex (ofLex r) ∈ f.candidates rt k q)
      have hin : (ofLex r).2 ∈ pos := List.mem_filterMap.mpr ⟨_, hmem, rfl⟩
      rw [hd]
      exact hexact.nearest _ _ _ _ hin hp hw.2 hrow.2

include hf ha base in
/-- Asking for as many as there are positions returns every live one. -/
theorem chosen_all (hk : f.nextId ≤ k) {p : Nat} {x : ID} (h : f.LiveAt p x) :
    p ∈ (f.chosen rt k q).map fun r => (ofLex r).2 := by
  have hle : f.liveCount ≤ f.nextId := by
    rw [← Finset.card_range f.nextId]
    exact Finset.card_le_card Finset.sdiff_subset
  have hcard : (Finset.range f.nextId \ f.erased).card ≤
      ((f.chosen rt k q).map fun r => (ofLex r).2).toFinset.card := by
    rw [List.toFinset_card_of_nodup (nodup_chosen_pos base k q), List.length_map,
      chosen_count base hf ha k q, min_eq_right (hle.trans hk)]
    exact Nat.le_refl _
  have hall := Finset.eq_of_subset_of_card_le (chosen_pos_subset hf k q) hcard
  rw [← List.mem_toFinset, hall]
  exact (mem_live_positions hf).mpr ⟨x, h⟩

include hf in
theorem length_chosen_le (h : ((f.chosen rt k q).map fun r => (ofLex r).2).Nodup) :
    (f.chosen rt k q).length ≤ f.nextId := by
  rw [← List.length_map (fun r : Dist ×ₗ Nat => (ofLex r).2), ← List.toFinset_card_of_nodup h,
    ← Finset.card_range f.nextId]
  exact Finset.card_le_card ((chosen_pos_subset hf k q).trans Finset.sdiff_subset)

end Exact

end FaissIndex

variable [DecidableEq ID] [LinearOrder Dist]

/-! ## The result map -/

/-- Every element of the second list of a pointwise relation has a partner in the first. -/
theorem forall₂_exists_left {α β : Type} {R : α → β → Prop} {l : List α} {l' : List β}
    (h : List.Forall₂ R l l') {b : β} (hb : b ∈ l') : ∃ a ∈ l, R a b := by
  induction h with
  | nil => cases hb
  | cons hr _ ih =>
    rcases List.mem_cons.mp hb with rfl | hb
    · exact ⟨_, List.mem_cons_self, hr⟩
    · obtain ⟨a, ha, hab⟩ := ih hb
      exact ⟨a, List.mem_cons_of_mem _ ha, hab⟩

/-- Every element of the first list of a pointwise relation has a partner in the second. -/
theorem forall₂_exists_right {α β : Type} {R : α → β → Prop} {l : List α} {l' : List β}
    (h : List.Forall₂ R l l') {a : α} (ha : a ∈ l) : ∃ b ∈ l', R a b :=
  forall₂_exists_left (List.Forall₂.flip h) ha

/-- Two projections that agree on related elements agree on related lists. -/
theorem forall₂_map_eq {α β γ : Type} {R : α → β → Prop} {f : α → γ} {g : β → γ} {l : List α}
    {l' : List β} (h : List.Forall₂ R l l') (hfg : ∀ a b, R a b → f a = g b) :
    l.map f = l'.map g := by
  induction h with
  | nil => rfl
  | cons hr _ ih => rw [List.map_cons, List.map_cons, hfg _ _ hr, ih]

section ResultMap

variable {κ ν : Type} [DecidableEq κ]

/-- The map that assigns the pairs of a list one after the other. -/
def assignAll (l : List (κ × ν)) (m : AList fun _ : κ => ν) : AList fun _ : κ => ν :=
  l.foldl (fun m e => m.insert e.1 e.2) m

theorem lookup_assignAll_of_not_mem {l : List (κ × ν)} {m : AList fun _ : κ => ν} {x : κ}
    (h : x ∉ l.map Prod.fst) : (assignAll l m).lookup x = m.lookup x := by
  induction l generalizing m with
  | nil => rfl
  | cons e l ih =>
    rw [List.map_cons, List.mem_cons, not_or] at h
    show (assignAll l (m.insert e.1 e.2)).lookup x = _
    rw [ih h.2, AList.lookup_insert_ne h.1]

theorem lookup_assignAll_of_mem {l : List (κ × ν)} {m : AList fun _ : κ => ν} {x : κ} {d : ν}
    (hnodup : (l.map Prod.fst).Nodup) (h : (x, d) ∈ l) : (assignAll l m).lookup x = some d := by
  induction l generalizing m with
  | nil => cases h
  | cons e l ih =>
    rw [List.map_cons, List.nodup_cons] at hnodup
    show (assignAll l (m.insert e.1 e.2)).lookup x = _
    rcases List.mem_cons.mp h with rfl | h
    · rw [lookup_assignAll_of_not_mem hnodup.1, AList.lookup_insert]
    · exact ih hnodup.2 h

theorem mem_of_lookup_assignAll {l : List (κ × ν)} {m : AList fun _ : κ => ν} {x : κ} {d : ν}
    (h : (assignAll l m).lookup x = some d) : (x, d) ∈ l ∨ m.lookup x = some d := by
  induction l generalizing m with
  | nil => exact Or.inr h
  | cons e l ih =>
    rcases ih (m := m.insert e.1 e.2) h with h | h
    · exact Or.inl (List.mem_cons_of_mem _ h)
    · by_cases hx : x = e.1
      · subst hx
        rw [AList.lookup_insert] at h
        cases h
        exact Or.inl List.mem_cons_self
      · rw [AList.lookup_insert_ne hx] at h
        exact Or.inr h

theorem lookup_assignAll_isSome {l : List (κ × ν)} {m : AList fun _ : κ => ν} {x : κ}
    (h : x ∈ l.map Prod.fst) : ∃ d, (assignAll l m).lookup x = some d := by
  induction l generalizing m with
  | nil => cases h
  | cons e l ih =>
    by_cases hx : x ∈ l.map Prod.fst
    · exact ih hx
    · obtain rfl : x = e.1 := (List.mem_cons.mp h).resolve_right hx
      refine ⟨e.2, ?_⟩
      show (assignAll l (m.insert e.1 e.2)).lookup e.1 = _
      rw [lookup_assignAll_of_not_mem hx, AList.lookup_insert]

theorem length_assignAll_le (l : List (κ × ν)) (m : AList fun _ : κ => ν) :
    (assignAll l m).entries.length ≤ m.entries.length + l.length := by
  induction l generalizing m with
  | nil => exact Nat.le_refl _
  | cons e l ih =>
    have hinsert : (m.insert e.1 e.2).entries.length ≤ m.entries.length + 1 := by
      rw [← List.length_map Sigma.fst, ← List.length_map Sigma.fst]
      show (m.insert e.1 e.2).keys.length ≤ m.keys.length + 1
      rw [AList.keys_insert, List.length_cons]
      exact Nat.succ_le_succ List.length_erase_le
    have htail := ih (m.insert e.1 e.2)
    rw [List.length_cons]
    show (assignAll l (m.insert e.1 e.2)).entries.length ≤ _
    omega

end ResultMap

namespace Segment

/-- The results of one segment as the ordered set of a search sees them. -/
def results (rt : Runtime B ID Vec Dist) (s : Segment B ID) (q : Vec) (k : Nat) :
    List (Dist ×ₗ ID) :=
  match s.searchQuery rt q k with
  | .ok m => (rt.resOrder.arrange m.entries).map fun e => toLex (e.2, e.1)
  | .error _ => []

theorem searchQuery_total (rt : Runtime B ID Vec Dist) (s : Segment B ID) (q : Vec) (k : Nat) :
    ∃ ans, s.index.singleSearch rt k q = .ok ans ∧
      s.searchQuery rt q k = .ok (assignAll ans ∅) := by
  obtain ⟨ans, hans, -⟩ := s.index.singleSearch_total rt k q
  refine ⟨ans, hans, ?_⟩
  unfold searchQuery
  rw [hans, ok_bind]
  rfl

theorem mem_results {rt : Runtime B ID Vec Dist} {s : Segment B ID} {q : Vec} {k : Nat}
    {ans : List (ID × Dist)} (hans : s.index.singleSearch rt k q = .ok ans) {d : Dist} {x : ID} :
    toLex (d, x) ∈ s.results rt q k ↔ (assignAll ans ∅).lookup x = some d := by
  obtain ⟨ans', hans', hq⟩ := s.searchQuery_total rt q k
  obtain rfl : ans = ans' := by rw [hans] at hans'; exact Except.ok.inj hans'
  rw [results, hq]
  simp only [List.mem_map, rt.resOrder.mem_arrange, toLex_inj, Prod.mk.injEq]
  rw [← Option.mem_def, AList.mem_lookup_iff]
  constructor
  · rintro ⟨⟨y, d'⟩, hmem, rfl, rfl⟩
    exact hmem
  · intro hmem
    exact ⟨⟨x, d⟩, hmem, rfl, rfl⟩

/-- A result is a live id of the segment. -/
theorem live_of_results {rt : Runtime B ID Vec Dist} {s : Segment B ID} {q : Vec} {k : Nat}
    {r : Dist ×ₗ ID} (h : r ∈ s.results rt q k) : s.index.LiveId (ofLex r).2 := by
  obtain ⟨ans, hans, hrel⟩ := s.index.singleSearch_total rt k q
  have hmem := (mem_results hans).mp (h : toLex (ofLex r) ∈ _)
  rcases mem_of_lookup_assignAll hmem with h | h
  · obtain ⟨c, hc, hcx, -⟩ := forall₂_exists_left hrel h
    obtain ⟨x, hx⟩ := FaissIndex.live_of_chosen hc
    obtain rfl : x = (ofLex r).2 := Option.some.inj (hx.1.symm.trans hcx)
    exact ⟨_, hx⟩
  · simp at h

section Exact

variable {rt : Runtime B ID Vec Dist} {metric : Vec → Vec → Dist}
  (base : ExactBase rt.faiss metric) {s : Segment B ID} (hf : s.index.Wf)
  (ha : s.index.Aligned base.toStoringBase)

/-- A result is a live row of the segment under its distance. -/
theorem row_of_results {q : Vec} {k : Nat} {r : Dist ×ₗ ID} (h : r ∈ s.results rt q k) :
    ∃ p v, s.index.LiveRow base.toStoringBase p (ofLex r).2 v ∧ (ofLex r).1 = metric q v := by
  obtain ⟨ans, hans, hrel⟩ := s.index.singleSearch_total rt k q
  rcases mem_of_lookup_assignAll ((mem_results hans).mp (h : toLex (ofLex r) ∈ _)) with h | h
  · obtain ⟨c, hc, hcx, hcd⟩ := forall₂_exists_left hrel h
    obtain ⟨x, v, hrow, hd⟩ := FaissIndex.row_of_chosen base k q hc
    obtain rfl : x = (ofLex r).2 := Option.some.inj (hrow.1.1.symm.trans hcx)
    exact ⟨_, v, hrow, hcd.trans hd⟩
  · simp at h

include base in
omit [DecidableEq ID] in
/-- When every id is live once, the answer names it once. -/
theorem nodup_answer_ids (honce : s.index.LiveOnce) {q : Vec} {k : Nat} {ans : List (ID × Dist)}
    (hrel : List.Forall₂ (fun r e => s.index.invIds.lookup (ofLex r).2 = some e.1 ∧
      e.2 = (ofLex r).1) (s.index.chosen rt k q) ans) : (ans.map Prod.fst).Nodup := by
  have hids : ans.map (fun e => some e.1) =
      ((s.index.chosen rt k q).map fun r => (ofLex r).2).map s.index.invIds.lookup := by
    rw [List.map_map]
    exact (forall₂_map_eq hrel fun r e h => h.1).symm
  have hinj : (((s.index.chosen rt k q).map fun r => (ofLex r).2).map
      s.index.invIds.lookup).Nodup := by
    refine List.Nodup.map_on ?_ (FaissIndex.nodup_chosen_pos base k q)
    intro p hp p' hp' heq
    obtain ⟨r, hr, rfl⟩ := List.mem_map.mp hp
    obtain ⟨r', hr', rfl⟩ := List.mem_map.mp hp'
    obtain ⟨x, hx⟩ := FaissIndex.live_of_chosen hr
    obtain ⟨x', hx'⟩ := FaissIndex.live_of_chosen hr'
    obtain rfl : x = x' := Option.some.inj (hx.1.symm.trans (heq.trans hx'.1))
    exact honce x _ _ hx hx'
  rw [← hids] at hinj
  exact List.Nodup.of_map some (by rwa [List.map_map])

include hf ha in
/-- When every id is live once, a live row is among the results or has `k` of them at no greater
distance. -/
theorem results_dominate (honce : s.index.LiveOnce) (q : Vec) (k : Nat) {p : Nat} {x : ID}
    {v : Vec} (hrow : s.index.LiveRow base.toStoringBase p x v) :
    toLex (metric q v, x) ∈ s.results rt q k ∨
      ∃ near : List (Dist ×ₗ ID), near.Nodup ∧ near.length = k ∧
        ∀ r ∈ near, r ∈ s.results rt q k ∧ (ofLex r).1 ≤ metric q v := by
  obtain ⟨ans, hans, hrel⟩ := s.index.singleSearch_total rt k q
  have hnodup := nodup_answer_ids base honce hrel
  have hin : ∀ e ∈ ans, toLex (e.2, e.1) ∈ s.results rt q k := fun e he =>
    (mem_results hans).mpr (lookup_assignAll_of_mem hnodup he)
  by_cases hp : p ∈ (s.index.chosen rt k q).map fun r => (ofLex r).2
  · left
    obtain ⟨r, hr, rfl⟩ := List.mem_map.mp hp
    obtain ⟨⟨y, d⟩, he, hy, hd⟩ := forall₂_exists_right hrel hr
    obtain rfl : x = y := Option.some.inj (hrow.1.1.symm.trans hy)
    obtain ⟨y, w, hw, hdw⟩ := FaissIndex.row_of_chosen base k q hr
    obtain rfl : v = w := Option.some.inj (hrow.2.symm.trans hw.2)
    have hmem := hin _ he
    rwa [show d = metric q v from hd.trans hdw] at hmem
  · right
    obtain ⟨hlen, hle⟩ := FaissIndex.chosen_nearest base hf ha k q hrow hp
    refine ⟨ans.map fun e => toLex (e.2, e.1), ?_, ?_, ?_⟩
    · exact List.Nodup.of_map (fun r => (ofLex r).2) (by rwa [List.map_map])
    · rw [List.length_map, ← hrel.length_eq, hlen]
    · intro r hr
      obtain ⟨e, he, rfl⟩ := List.mem_map.mp hr
      obtain ⟨c, hc, -, hd⟩ := forall₂_exists_left hrel he
      exact ⟨hin e he, le_of_eq_of_le hd (hle c hc)⟩

include hf base in
/-- A segment has no more results than positions. -/
theorem length_results_le (q : Vec) (k : Nat) :
    (s.results rt q k).length ≤ s.index.nextId := by
  obtain ⟨ans, hans, hq⟩ := s.searchQuery_total rt q k
  obtain ⟨ans', hans', hrel⟩ := s.index.singleSearch_total rt k q
  obtain rfl : ans = ans' := by rw [hans] at hans'; exact Except.ok.inj hans'
  have hlen := FaissIndex.length_chosen_le hf k q (FaissIndex.nodup_chosen_pos base k q)
  have hassign := length_assignAll_le ans (∅ : AList fun _ : ID => Dist)
  unfold results
  rw [hq, List.length_map, (rt.resOrder.perm _).length_eq]
  rw [hrel.length_eq] at hlen
  refine hassign.trans ?_
  rw [show (∅ : AList fun _ : ID => Dist).entries.length = 0 from rfl, Nat.zero_add]
  exact hlen

include hf ha base in
/-- Asking for as many as there are positions returns every live id. -/
theorem results_all {q : Vec} {k : Nat} (hk : s.index.nextId ≤ k) {x : ID}
    (hx : s.index.LiveId x) : ∃ d, toLex (d, x) ∈ s.results rt q k := by
  obtain ⟨ans, hans, hrel⟩ := s.index.singleSearch_total rt k q
  obtain ⟨p, hp⟩ := hx
  obtain ⟨r, hr, rfl⟩ := List.mem_map.mp (FaissIndex.chosen_all base hf ha k q hk hp)
  obtain ⟨⟨y, d⟩, he, hy, -⟩ := forall₂_exists_right hrel hr
  obtain rfl : x = y := Option.some.inj (hp.1.symm.trans hy)
  obtain ⟨d', hd'⟩ := lookup_assignAll_isSome (m := ∅) (List.mem_map_of_mem (f := Prod.fst) he)
  exact ⟨d', (mem_results hans).mpr hd'⟩

end Exact

end Segment

end Vecodex
