import Mathlib.Data.Finset.Union
import Vecodex.App.Answers
import Vecodex.Laws.Writer
import Vecodex.Lib.Ranking

/-!
# Laws of the answers of a searcher

The answer to a request without a shard is the answers of the shards in a row
(`Searcher.ExactShards.answer`). When every shard answers with its nearest documents, the whole is a
list of the nearest documents of all shards only if one shard has all the documents
(`shards_answer_iff`): of two shards with documents, either can come first, and only one has the
nearest document.
-/

namespace Vecodex

open Lib

variable {B Vec Dist : Type} [LinearOrder Dist]

/-- The nearest documents first: `ids` are the best `k` of the documents, in order of distance. -/
def NearestFirst (dist : Text → Dist) (docs : Finset Text) (k : Nat) : List Text → Prop :=
  Ranking (fun a => OrderDual.toDual (dist a)) docs k

namespace NearestFirst

variable {dist : Text → Dist} {docs : Finset Text} {k : Nat}

/-- Where something is requested and there are documents, one of them comes first. -/
theorem exists_first {ids : List Text} (h : NearestFirst dist docs k ids) (hk : 0 < k)
    (hdocs : docs.Nonempty) : ∃ a as, ids = a :: as ∧ a ∈ docs := by
  have hsome : ids ≠ [] := by
    rw [← List.length_pos_iff, h.length]
    have hcard := hdocs.card_pos
    omega
  obtain ⟨a, as, rfl⟩ := List.exists_cons_of_ne_nil hsome
  exact ⟨a, as, rfl, h.mem a List.mem_cons_self⟩

theorem first_le {a : Text} {as : List Text} (h : NearestFirst dist docs k (a :: as))
    (hk : 0 < k) : ∀ b ∈ docs, dist a ≤ dist b :=
  ((Ranking.exists_first_iff hk).mp ⟨_, h⟩).2

theorem empty_iff {ids : List Text} : NearestFirst dist ∅ k ids ↔ ids = [] := by
  constructor
  · intro h
    have hlen := h.length
    rw [Finset.card_empty, Nat.min_zero] at hlen
    exact List.eq_nil_of_length_eq_zero hlen
  · rintro rfl
    exact Ranking.nil_iff.mpr (by rw [Finset.card_empty, Nat.min_zero])

end NearestFirst

/-- A list of lists in which only one is not empty. -/
theorem flatMap_eq_of_others_nil {α β κ : Type} {key : α → κ} {f : α → List β} {l : List α} {e : α}
    (hl : (l.map key).Nodup) (he : e ∈ l) (h : ∀ x ∈ l, key x ≠ key e → f x = []) :
    l.flatMap f = f e := by
  induction l with
  | nil => cases he
  | cons x l ih =>
    obtain ⟨hx, hl⟩ := List.nodup_cons.mp hl
    rw [List.flatMap_cons]
    rcases List.mem_cons.mp he with rfl | he
    · have hrest : l.flatMap f = [] := by
        rw [List.flatMap_eq_nil_iff]
        intro y hy
        exact h y (List.mem_cons_of_mem _ hy) fun heq => hx (heq ▸ List.mem_map_of_mem hy)
      rw [hrest, List.append_nil]
    · rw [h x List.mem_cons_self fun heq => hx (heq ▸ List.mem_map_of_mem he), List.nil_append]
      exact ih hl he fun y hy => h y (List.mem_cons_of_mem _ hy)

namespace Searcher

theorem foldlM_searchShard {rt : Runtime B Text Vec Dist} {request : SearchRequest Vec}
    {answer : String → List Text} {shards : List (Σ _ : String, Index B Text)}
    (h : ∀ shard ∈ shards,
      shard.2.search rt request.vectorData request.k.toNat = .ok (answer shard.1))
    (result : List Text) :
    shards.foldlM (searchShard rt request) result =
      .ok (result ++ shards.flatMap fun shard => answer shard.1) := by
  induction shards generalizing result with
  | nil => rw [List.flatMap_nil, List.append_nil]; rfl
  | cons shard shards ih =>
    have hstep : searchShard rt request result shard = .ok (result ++ answer shard.1) := by
      rw [searchShard, h shard List.mem_cons_self, ok_bind]
      rfl
    rw [List.foldlM_cons, hstep, ok_bind, ih fun t ht => h t (List.mem_cons_of_mem _ ht),
      List.append_assoc, List.flatMap_cons]

/-- The shards of an index, each with the documents it has, answer exactly; no document is in two of
them. -/
structure ExactShards (rt : Runtime B Text Vec Dist) (s : Searcher B) (request : SearchRequest Vec)
    (docs : String → Finset Text) (dist : Text → Dist) : Prop where
  exact : ∀ shardId index, (s.table request.indexId).lookup shardId = some index →
    ∃ ids, index.search rt request.vectorData request.k.toNat = .ok ids ∧
      NearestFirst dist (docs shardId) request.k.toNat ids
  apart : ∀ t ∈ s.table request.indexId, ∀ u ∈ s.table request.indexId, t ≠ u →
    Disjoint (docs t) (docs u)

/-- The documents of all shards of an index. -/
def documents (s : Searcher B) (indexId : String) (docs : String → Finset Text) : Finset Text :=
  (s.table indexId).keys.toFinset.biUnion docs

variable {rt : Runtime B Text Vec Dist} {s : Searcher B} {request : SearchRequest Vec}
variable {docs : String → Finset Text} {dist : Text → Dist}

theorem mem_documents {indexId : String} {a : Text} :
    a ∈ s.documents indexId docs ↔ ∃ t ∈ s.table indexId, a ∈ docs t := by
  simp only [documents, Finset.mem_biUnion, List.mem_toFinset, AList.mem_keys]

/-- A request without a shard gets the answers of all shards, one after the other. -/
theorem ExactShards.answer (h : ExactShards rt s request docs dist)
    (hshard : request.shardId = none) :
    ∃ answer : String → List Text,
      (∀ t ∈ s.table request.indexId, NearestFirst dist (docs t) request.k.toNat (answer t)) ∧
      ∀ order, s.processSearchRequest rt order request = .ok
        ((order.arrange (s.table request.indexId).entries).flatMap
          fun shard => answer shard.1) := by
  have hsome : ∀ t, ∃ ids, ∀ index, (s.table request.indexId).lookup t = some index →
      index.search rt request.vectorData request.k.toNat = .ok ids ∧
        NearestFirst dist (docs t) request.k.toNat ids := by
    intro t
    cases hlookup : (s.table request.indexId).lookup t with
    | none => exact ⟨[], fun index hindex => by cases hindex⟩
    | some index =>
      obtain ⟨ids, hids⟩ := h.exact t index hlookup
      refine ⟨ids, fun index' hindex => ?_⟩
      obtain rfl := Option.some.inj hindex
      exact hids
  choose answer hanswer using hsome
  refine ⟨answer, fun t ht => ?_, fun order => ?_⟩
  · obtain ⟨index, hindex⟩ := Option.isSome_iff_exists.mp (AList.lookup_isSome.mpr ht)
    exact (hanswer t index hindex).2
  · simp only [processSearchRequest, hshard]
    have hall : ∀ shard ∈ order.arrange (s.table request.indexId).entries,
        shard.2.search rt request.vectorData request.k.toNat = .ok (answer shard.1) := by
      intro shard hshard
      have hentry := AList.mem_lookup_iff.mpr (order.mem_arrange.mp hshard)
      exact (hanswer shard.1 shard.2 hentry).1
    rw [foldlM_searchShard hall [], List.nil_append]

/-- When the answer is right for every order of the table, every shard with documents has the
nearest one of all: the shard can come first. -/
theorem ExactShards.nearest_mem (h : ExactShards rt s request docs dist) (hk : 1 ≤ request.k)
    (hshard : request.shardId = none)
    (hall : ∀ order, ∃ ids, s.processSearchRequest rt order request = .ok ids ∧
      NearestFirst dist (s.documents request.indexId docs) request.k.toNat ids) {t : String}
    (ht : t ∈ s.table request.indexId) (hdocs : (docs t).Nonempty) :
    ∃ a ∈ docs t, ∀ b ∈ s.documents request.indexId docs, dist a ≤ dist b := by
  have hpos : 0 < request.k.toNat := by omega
  obtain ⟨answer, hanswer, hprocess⟩ := h.answer hshard
  obtain ⟨a, as, has, ha⟩ := (hanswer t ht).exists_first hpos hdocs
  obtain ⟨index, hindex⟩ := Option.isSome_iff_exists.mp (AList.lookup_isSome.mpr ht)
  obtain ⟨order, horder⟩ := IterOrder.exists_first (⟨t, index⟩ : Σ _ : String, Index B Text)
  obtain ⟨rest, hrest⟩ := horder _ (AList.mem_lookup_iff.mp hindex)
  obtain ⟨ids, hids, hnearest⟩ := hall order
  rw [hprocess, hrest, List.flatMap_cons, has, List.cons_append] at hids
  obtain rfl := Except.ok.inj hids
  exact ⟨a, ha, hnearest.first_le hpos⟩

/-- The documents are those of a shard when no other shard has any. -/
theorem documents_eq {indexId : String} {t : String} (ht : t ∈ s.table indexId)
    (hothers : ∀ u ∈ s.table indexId, u ≠ t → docs u = ∅) :
    s.documents indexId docs = docs t := by
  ext a
  rw [mem_documents]
  constructor
  · rintro ⟨u, hu, ha⟩
    by_cases hut : u = t
    · rwa [← hut]
    · rw [hothers u hu hut] at ha
      exact absurd ha (Finset.notMem_empty a)
  · exact fun ha => ⟨t, ht, ha⟩

/-- When no other shard has documents, the answer of a shard is the whole answer. -/
theorem ExactShards.answer_of_others_empty (h : ExactShards rt s request docs dist)
    (hshard : request.shardId = none) {t : String} (ht : t ∈ s.table request.indexId)
    (hothers : ∀ u ∈ s.table request.indexId, u ≠ t → docs u = ∅)
    (order : IterOrder (Σ _ : String, Index B Text)) :
    ∃ ids, s.processSearchRequest rt order request = .ok ids ∧
      NearestFirst dist (s.documents request.indexId docs) request.k.toNat ids := by
  obtain ⟨answer, hanswer, hprocess⟩ := h.answer hshard
  obtain ⟨index, hindex⟩ := Option.isSome_iff_exists.mp (AList.lookup_isSome.mpr ht)
  have hentry : (⟨t, index⟩ : Σ _ : String, Index B Text) ∈
      order.arrange (s.table request.indexId).entries :=
    order.mem_arrange.mpr (AList.mem_lookup_iff.mp hindex)
  have hkeys : ((order.arrange (s.table request.indexId).entries).map Sigma.fst).Nodup :=
    ((order.perm _).map Sigma.fst).nodup_iff.mpr (s.table request.indexId).nodupKeys
  have hempty : ∀ e ∈ order.arrange (s.table request.indexId).entries, e.1 ≠ t →
      answer e.1 = [] := by
    intro e he hne
    have hmem : e.1 ∈ s.table request.indexId := List.mem_map_of_mem (order.mem_arrange.mp he)
    have hnearest := hanswer e.1 hmem
    rw [hothers e.1 hmem hne] at hnearest
    exact NearestFirst.empty_iff.mp hnearest
  refine ⟨_, hprocess order, ?_⟩
  rw [flatMap_eq_of_others_nil hkeys hentry hempty, documents_eq ht hothers]
  exact hanswer t ht

end Searcher

/-- A searcher answers every request without a shard with the nearest documents of all its shards
of the index, whatever the order of its table, if and only if at most one of the shards has
documents. -/
theorem shards_answer_iff (rt : Runtime B Text Vec Dist) (s : Searcher B)
    (request : SearchRequest Vec) (hk : 1 ≤ request.k) (hshard : request.shardId = none)
    (docs : String → Finset Text) (dist : Text → Dist)
    (h : s.ExactShards rt request docs dist)
    (hinj : Set.InjOn dist (s.documents request.indexId docs)) :
    (∀ order, ∃ ids, s.processSearchRequest rt order request = .ok ids ∧
      NearestFirst dist (s.documents request.indexId docs) request.k.toNat ids) ↔
    ∀ t ∈ s.table request.indexId, ∀ u ∈ s.table request.indexId,
      (docs t).Nonempty → (docs u).Nonempty → t = u := by
  constructor
  · intro hall t ht u hu htdocs hudocs
    obtain ⟨a, ha, hamin⟩ := h.nearest_mem hk hshard hall ht htdocs
    obtain ⟨b, hb, hbmin⟩ := h.nearest_mem hk hshard hall hu hudocs
    have ha' := Searcher.mem_documents.mpr ⟨t, ht, ha⟩
    have hb' := Searcher.mem_documents.mpr ⟨u, hu, hb⟩
    obtain rfl := hinj ha' hb' (le_antisymm (hamin b hb') (hbmin a ha'))
    by_contra hne
    exact Finset.disjoint_left.mp (h.apart t ht u hu hne) ha hb
  · intro hone order
    by_cases hshards : ∃ t, t ∈ s.table request.indexId
    · -- a shard with documents, or any shard when none has documents
      obtain ⟨t, ht, hothers⟩ : ∃ t ∈ s.table request.indexId,
          ∀ u ∈ s.table request.indexId, u ≠ t → docs u = ∅ := by
        by_cases hsome : ∃ t ∈ s.table request.indexId, (docs t).Nonempty
        · obtain ⟨t, ht, htdocs⟩ := hsome
          refine ⟨t, ht, fun u hu hne => ?_⟩
          rw [← Finset.not_nonempty_iff_eq_empty]
          exact fun hudocs => hne (hone u hu t ht hudocs htdocs)
        · obtain ⟨t, ht⟩ := hshards
          refine ⟨t, ht, fun u hu _ => ?_⟩
          rw [← Finset.not_nonempty_iff_eq_empty]
          exact fun hudocs => hsome ⟨u, hu, hudocs⟩
      exact h.answer_of_others_empty hshard ht hothers order
    · obtain ⟨answer, -, hprocess⟩ := h.answer hshard
      have hnone : (s.table request.indexId).entries = [] := by
        refine List.eq_nil_iff_forall_not_mem.mpr fun e he => ?_
        exact hshards ⟨e.1, List.mem_map_of_mem he⟩
      have hdocs : s.documents request.indexId docs = ∅ := by
        simp only [Searcher.documents, AList.keys, hnone]
        rfl
      refine ⟨_, hprocess order, ?_⟩
      rw [hdocs, NearestFirst.empty_iff, hnone, (order.perm []).eq_nil]
      rfl

/-- Points on a line; `rand()` counts. -/
def lineShards : Runtime (List Nat) Text Nat Nat := lineRuntime Text id

/-- A searcher with two shards of one index. Each has been sent one segment with the given rows. -/
def twoShardSearcher (east west : List (Text × Nat)) : Except Fault (Searcher (List Nat)) := do
  let s := Searcher.create lineShards
    [⟨"docs", "east", unitConfig false⟩, ⟨"docs", "west", unitConfig false⟩]
  let s ← s.call "docs" "east" fun index =>
    index.pushSegment ⟨10, (FaissIndex.create lineShards .flat).addBatch lineShards east⟩
  s.call "docs" "west" fun index =>
    index.pushSegment ⟨11, (FaissIndex.create lineShards .flat).addBatch lineShards west⟩

/-- What a searcher with these rows answers. -/
def twoShardAnswer (east west : List (Text × Nat)) (request : SearchRequest Nat) :
    Option (List Text) :=
  (twoShardSearcher east west >>= fun s =>
    s.processSearchRequest lineShards (.insertion _) request).toOption

/-- Either shard answers with its one document. Together they answer with two documents although
one is requested, and the farther one is the first. -/
theorem shards_answer_unmerged :
    twoShardAnswer [(letter 1, 1)] [(letter 2, 2)] ⟨0, 1, "docs", some "east"⟩ = some [letter 1] ∧
      twoShardAnswer [(letter 1, 1)] [(letter 2, 2)] ⟨0, 1, "docs", some "west"⟩ =
        some [letter 2] ∧
      twoShardAnswer [(letter 1, 1)] [(letter 2, 2)] ⟨0, 1, "docs", none⟩ =
        some [letter 2, letter 1] := by
  decide +kernel

/-- All documents are in one of the two shards. -/
def oneSided (t : String) : Finset Text :=
  if t = "east" then {letter 1, letter 2, letter 3} else ∅

theorem shards_answer_one_sided :
    ∃ s, twoShardSearcher [(letter 3, 3), (letter 1, 1), (letter 2, 2)] [] = .ok s ∧
      ∀ order, ∃ ids, s.processSearchRequest lineShards order ⟨0, 2, "docs", none⟩ = .ok ids ∧
        NearestFirst (fun a => a.values.sum) (s.documents "docs" oneSided) 2 ids := by
  obtain ⟨s, hs, hkeys, heast, hwest⟩ : ∃ s,
      twoShardSearcher [(letter 3, 3), (letter 1, 1), (letter 2, 2)] [] = .ok s ∧
        (s.table "docs").keys = ["west", "east"] ∧
        ((s.table "docs").lookup "east").map (fun index => (index.search lineShards 0 2).toOption) =
          some (some [letter 1, letter 2]) ∧
        ((s.table "docs").lookup "west").map (fun index => (index.search lineShards 0 2).toOption) =
          some (some []) :=
    exists_ok (by decide +kernel)
  refine ⟨s, hs, ?_⟩
  have hshards : ∀ t ∈ s.table "docs", t = "west" ∨ t = "east" := by
    intro t ht
    rw [AList.mem_keys, hkeys] at ht
    exact List.mem_pair.mp ht
  have hdocs : ∀ t, oneSided t ⊆ {letter 1, letter 2, letter 3} := by
    intro t
    unfold oneSided
    split
    · exact Finset.Subset.refl _
    · exact Finset.empty_subset _
  have hexact : s.ExactShards lineShards ⟨0, 2, "docs", none⟩ oneSided fun a => a.values.sum := by
    constructor
    · intro t index hindex
      rcases hshards t (AList.lookup_isSome.mp (hindex ▸ rfl)) with rfl | rfl
      · rw [hindex] at hwest
        exact ⟨[], eq_ok_of_toOption (Option.some.inj hwest), by decide, by decide, by decide,
          by decide, by decide⟩
      · rw [hindex] at heast
        exact ⟨[letter 1, letter 2], eq_ok_of_toOption (Option.some.inj heast), by decide,
          by decide, by decide, by decide, by decide⟩
    · intro t ht u hu hne
      rcases hshards t ht with rfl | rfl <;> rcases hshards u hu with rfl | rfl
      · exact absurd rfl hne
      · exact Finset.disjoint_empty_left _
      · exact Finset.disjoint_empty_right _
      · exact absurd rfl hne
  have hinj : Set.InjOn (fun a : Text => a.values.sum) (s.documents "docs" oneSided) := by
    have hthree : ∀ a ∈ ({letter 1, letter 2, letter 3} : Finset Text),
        ∀ b ∈ ({letter 1, letter 2, letter 3} : Finset Text),
          a.values.sum = b.values.sum → a = b := by decide +kernel
    intro a ha b hb heq
    obtain ⟨t, -, hat⟩ := Searcher.mem_documents.mp ha
    obtain ⟨u, -, hbu⟩ := Searcher.mem_documents.mp hb
    exact hthree a (hdocs t hat) b (hdocs u hbu) heq
  refine (shards_answer_iff lineShards s ⟨0, 2, "docs", none⟩ (by decide) rfl oneSided _ hexact
    hinj).mpr ?_
  intro t ht u hu htdocs hudocs
  have heast : ∀ t ∈ s.table "docs", (oneSided t).Nonempty → t = "east" := by
    intro t ht hsome
    rcases hshards t ht with rfl | rfl
    · exact absurd hsome Finset.not_nonempty_empty
    · rfl
  rw [heast t ht htdocs, heast u hu hudocs]

end Vecodex
