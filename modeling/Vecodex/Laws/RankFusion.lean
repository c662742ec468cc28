import Mathlib.Algebra.BigOperators.Group.List.Basic
import Mathlib.Algebra.Order.Field.Basic
import Mathlib.Tactic.Linarith
import Mathlib.Tactic.Positivity
import Vecodex.Laws.Coordinator
import Vecodex.Laws.Registry
import Vecodex.Lib.TopK

/-!
# Laws of the merging of answers

The score of an id is the sum of the scores of its positions in the answers
(`DocToScore.lookup_ofResponses`). When no id is in two answers the score says at which position
the id is, and nothing about its distance. So the coordinator finds the nearest documents of an
index whose documents are spread over shards exactly when their positions happen to tell them from
the other ones (`distributed_nearest_iff`).
-/

namespace Vecodex

open Lib

variable {ID : Type} [DecidableEq ID]

/-! ## Scores -/

theorem getScore_lt_iff {p q : Nat} : getScore q < getScore p ↔ p < q := by
  unfold getScore rffConst
  rw [one_div_lt_one_div (by positivity) (by positivity), add_lt_add_iff_right,
    add_lt_add_iff_left, Nat.cast_lt]

/-- The ids of the responses with their positions. -/
def occurrences (responses : List (List ID)) : List (ID × Nat) := responses.flatMap List.zipIdx

omit [DecidableEq ID] in
theorem map_fst_occurrences (responses : List (List ID)) :
    (occurrences responses).map Prod.fst = responses.flatten := by
  rw [occurrences, List.map_flatMap, List.flatten_eq_flatMap]
  congr 1
  funext response
  exact List.zipIdx_map_fst 0 response

/-- The score of an id: the sum over its positions. -/
def scoreIn (l : List (ID × Nat)) (id : ID) : ℚ :=
  ((l.filter fun entry => entry.1 = id).map fun entry => getScore entry.2).sum

namespace DocToScore

theorem lookup_addScore (scores : DocToScore ID) (id : ID) (score : ℚ) (x : ID) :
    (scores.addScore id score).lookup x =
      if x = id then some ((scores.lookup id).getD 0 + score) else scores.lookup x := by
  unfold addScore
  by_cases hx : x = id
  · subst hx
    rw [if_pos rfl]
    cases scores.lookup x with
    | none => simp
    | some old => simp
  · rw [if_neg hx]
    cases scores.lookup id with
    | none => exact AList.lookup_insert_ne hx
    | some old => exact AList.lookup_insert_ne hx

theorem ofResponses_eq (responses : List (List ID)) : ofResponses responses =
    (occurrences responses).foldl
      (fun scores entry => scores.addScore entry.1 (getScore entry.2)) ∅ := by
  rw [occurrences, List.foldl_flatMap]
  rfl

theorem lookup_foldl_addScore (l : List (ID × Nat)) (scores : DocToScore ID) (x : ID) :
    (l.foldl (fun scores entry => scores.addScore entry.1 (getScore entry.2)) scores).lookup x =
      if (scores.lookup x).isSome ∨ x ∈ l.map Prod.fst then
        some ((scores.lookup x).getD 0 + scoreIn l x)
      else none := by
  induction l generalizing scores with
  | nil => cases hx : scores.lookup x <;> simp [scoreIn, hx]
  | cons entry l ih =>
    rw [List.foldl_cons, ih]
    by_cases hx : x = entry.1
    · have hfound : (scores.addScore entry.1 (getScore entry.2)).lookup x =
          some ((scores.lookup x).getD 0 + getScore entry.2) := by
        rw [lookup_addScore, if_pos hx, hx]
      have hscore : scoreIn (entry :: l) x = getScore entry.2 + scoreIn l x := by
        simp [scoreIn, hx]
      rw [hfound, hscore, if_pos (.inl rfl), if_pos (.inr (hx ▸ List.mem_cons_self)),
        Option.getD_some, add_assoc]
    · have hfound : (scores.addScore entry.1 (getScore entry.2)).lookup x = scores.lookup x := by
        rw [lookup_addScore, if_neg hx]
      have hscore : scoreIn (entry :: l) x = scoreIn l x := by
        simp [scoreIn, Ne.symm hx]
      simp only [hfound, hscore, List.map_cons, List.mem_cons, hx, false_or]

/-- The table has the ids of the responses, each with its score. -/
theorem lookup_ofResponses (responses : List (List ID)) (x : ID) :
    (ofResponses responses).lookup x =
      if x ∈ responses.flatten then some (scoreIn (occurrences responses) x) else none := by
  rw [ofResponses_eq, lookup_foldl_addScore, map_fst_occurrences]
  simp

theorem mem_entries_ofResponses {responses : List (List ID)} {entry : Σ _ : ID, ℚ} :
    entry ∈ (ofResponses responses).entries ↔
      entry.1 ∈ responses.flatten ∧ entry.2 = scoreIn (occurrences responses) entry.1 := by
  rw [← AList.mem_lookup_iff, Option.mem_def, lookup_ofResponses, Option.ite_none_right_eq_some,
    Option.some.injEq, eq_comm (b := entry.2)]

end DocToScore

theorem mem_mergeSearcherAnswers {order : IterOrder (Σ _ : ID, ℚ)}
    {sorting : Sorting (@scoresAbove ID)} {responses : List (List ID)} {k : Nat} {a : ID} :
    a ∈ mergeSearcherAnswers order sorting responses k ↔
      (⟨a, scoreIn (occurrences responses) a⟩ : Σ _ : ID, ℚ) ∈
        (sorting.sort (order.arrange (DocToScore.ofResponses responses).entries)).take k := by
  show a ∈ List.map _ _ ↔ _
  rw [List.mem_map]
  constructor
  · rintro ⟨⟨a, score⟩, hmem, rfl⟩
    have hentry := order.mem_arrange.mp ((sorting.perm _).mem_iff.mp (List.mem_of_mem_take hmem))
    rwa [← (DocToScore.mem_entries_ofResponses.mp hentry).2]
  · exact fun hmem => ⟨_, hmem, rfl⟩

theorem nodup_mergeSearcherAnswers (order : IterOrder (Σ _ : ID, ℚ))
    (sorting : Sorting (@scoresAbove ID)) (responses : List (List ID)) (k : Nat) :
    (mergeSearcherAnswers order sorting responses k).Nodup := by
  have hperm := (sorting.perm _).trans (order.perm (DocToScore.ofResponses responses).entries)
  exact ((hperm.map Sigma.fst).nodup_iff.mpr (DocToScore.ofResponses responses).nodupKeys).sublist
    ((List.take_sublist k _).map Sigma.fst)

/-! ## Answers without common ids -/

section Disjoint

variable {responses : List (List ID)}

theorem filter_eq_singleton {l : List (ID × Nat)} (hl : (l.map Prod.fst).Nodup) {entry : ID × Nat}
    (hentry : entry ∈ l) : (l.filter fun other => other.1 = entry.1) = [entry] := by
  induction l with
  | nil => cases hentry
  | cons head l ih =>
    obtain ⟨hhead, hl⟩ := List.nodup_cons.mp hl
    rcases List.mem_cons.mp hentry with rfl | hentry
    · rw [List.filter_cons_of_pos (by simp), List.filter_eq_nil_iff.mpr]
      intro other hother
      rw [decide_eq_true_eq]
      exact fun heq => hhead (heq ▸ List.mem_map_of_mem hother)
    · rw [List.filter_cons_of_neg, ih hl hentry]
      rw [decide_eq_true_eq]
      exact fun heq => hhead (heq ▸ List.mem_map_of_mem hentry)

/-- The score of an id is that of its one position. -/
theorem scoreIn_eq (hnodup : responses.flatten.Nodup) {response : List ID}
    (hresponse : response ∈ responses) {p : Nat} {a : ID} (ha : response[p]? = some a) :
    scoreIn (occurrences responses) a = getScore p := by
  have hmem : (a, p) ∈ occurrences responses :=
    List.mem_flatMap.mpr ⟨response, hresponse, List.mem_zipIdx_iff_getElem?.mpr ha⟩
  have hone := filter_eq_singleton (map_fst_occurrences responses ▸ hnodup) hmem
  rw [scoreIn, hone, List.map_singleton, List.sum_singleton]

/-- The ids of a set stand at earlier positions than the other ids. -/
def StandsAhead (responses : List (List ID)) (kept : Finset ID) : Prop :=
  ∀ r ∈ responses, ∀ r' ∈ responses, ∀ (p q : Nat) (a b : ID), r[p]? = some a → a ∈ kept →
    r'[q]? = some b → b ∉ kept → p < q

theorem standsAhead_iff (hnodup : responses.flatten.Nodup) {kept : Finset ID} :
    StandsAhead responses kept ↔ ∀ a ∈ responses.flatten, a ∈ kept → ∀ b ∈ responses.flatten,
      b ∉ kept → scoreIn (occurrences responses) b < scoreIn (occurrences responses) a := by
  constructor
  · intro h a ha hakept b hb hbkept
    obtain ⟨r, hr, har⟩ := List.mem_flatten.mp ha
    obtain ⟨r', hr', hbr'⟩ := List.mem_flatten.mp hb
    obtain ⟨p, hp⟩ := List.mem_iff_getElem?.mp har
    obtain ⟨q, hq⟩ := List.mem_iff_getElem?.mp hbr'
    rw [scoreIn_eq hnodup hr hp, scoreIn_eq hnodup hr' hq, getScore_lt_iff]
    exact h r hr r' hr' p q a b hp hakept hq hbkept
  · intro h r hr r' hr' p q a b hp hakept hq hbkept
    have hlt := h a (List.mem_flatten.mpr ⟨r, hr, List.mem_of_getElem? hp⟩) hakept b
      (List.mem_flatten.mpr ⟨r', hr', List.mem_of_getElem? hq⟩) hbkept
    rwa [scoreIn_eq hnodup hr hp, scoreIn_eq hnodup hr' hq, getScore_lt_iff] at hlt

omit [DecidableEq ID] in
theorem scoresAbove_iff (first second : Σ _ : ID, ℚ) :
    scoresAbove first second = true ↔ second.2 < first.2 :=
  decide_eq_true_iff

/-- The entry of an id in the table of scores. -/
def scored (responses : List (List ID)) (a : ID) : Σ _ : ID, ℚ :=
  ⟨a, scoreIn (occurrences responses) a⟩

theorem scored_injective : Function.Injective (scored responses) :=
  fun _ _ heq => congrArg Sigma.fst heq

theorem mem_image_scored {kept : Finset ID} {a : ID} :
    scored responses a ∈ kept.image (scored responses) ↔ a ∈ kept :=
  scored_injective.mem_finset_image

theorem entries_perm (hnodup : responses.flatten.Nodup) :
    (DocToScore.ofResponses responses).entries.Perm
      (responses.flatten.map (scored responses)) := by
  rw [List.perm_ext_iff_of_nodup (DocToScore.ofResponses responses).nodupKeys.nodup
    (hnodup.map scored_injective)]
  rintro ⟨a, score⟩
  rw [DocToScore.mem_entries_ofResponses, List.mem_map]
  constructor
  · rintro ⟨ha, hscore⟩
    exact ⟨a, ha, Sigma.ext rfl (heq_of_eq hscore.symm)⟩
  · rintro ⟨b, hb, heq⟩
    cases heq
    exact ⟨hb, rfl⟩

/-- A set that stands ahead is the merged answer, whatever the orders. -/
theorem StandsAhead.mem_merge_iff {kept : Finset ID} {k : Nat} (h : StandsAhead responses kept)
    (hnodup : responses.flatten.Nodup) (hkept : ∀ a ∈ kept, a ∈ responses.flatten)
    (hcard : kept.card = min k responses.flatten.length) (order : IterOrder (Σ _ : ID, ℚ))
    (sorting : Sorting (@scoresAbove ID)) (a : ID) :
    a ∈ mergeSearcherAnswers order sorting responses k ↔ a ∈ kept := by
  have hperm := (order.perm (DocToScore.ofResponses responses).entries).trans (entries_perm hnodup)
  have hsub : ∀ e ∈ kept.image (scored responses),
      e ∈ order.arrange (DocToScore.ofResponses responses).entries := by
    intro e he
    obtain ⟨b, hb, rfl⟩ := Finset.mem_image.mp he
    exact hperm.mem_iff.mpr (List.mem_map_of_mem (hkept b hb))
  have hsize : (kept.image (scored responses)).card =
      min k (order.arrange (DocToScore.ofResponses responses).entries).length := by
    rw [Finset.card_image_of_injective _ scored_injective, hcard, hperm.length_eq, List.length_map]
  have habove : ∀ e ∈ kept.image (scored responses),
      ∀ f ∈ order.arrange (DocToScore.ofResponses responses).entries,
        f ∉ kept.image (scored responses) → f.2 < e.2 := by
    intro e he f hf hout
    obtain ⟨a, ha, rfl⟩ := Finset.mem_image.mp he
    obtain ⟨b, hb, rfl⟩ := List.mem_map.mp (hperm.mem_iff.mp hf)
    exact (standsAhead_iff hnodup).mp h a (hkept a ha) ha b hb fun hb =>
      hout (mem_image_scored.mpr hb)
  have hset := sorting.mem_take_iff scoresAbove_iff
    (hperm.nodup_iff.mpr (hnodup.map scored_injective)) hsub hsize habove (scored responses a)
  exact mem_mergeSearcherAnswers.trans (hset.trans mem_image_scored)

/-- A set that is the merged answer, whatever the ties, stands ahead. -/
theorem standsAhead_of_merge {kept : Finset ID} {k : Nat} (hnodup : responses.flatten.Nodup)
    (h : ∀ (sorting : Sorting (@scoresAbove ID)) (a : ID),
      a ∈ mergeSearcherAnswers (.insertion _) sorting responses k ↔ a ∈ kept) :
    StandsAhead responses kept := by
  rw [standsAhead_iff hnodup]
  intro a ha hakept b hb hbkept
  have hmem : ∀ (sorting : Sorting (@scoresAbove ID)) (e : Σ _ : ID, ℚ),
      e ∈ (sorting.sort (DocToScore.ofResponses responses).entries).take k ↔
        e ∈ kept.image (scored responses) := by
    intro sorting e
    constructor
    · intro he
      have hentry := (sorting.perm _).mem_iff.mp (List.mem_of_mem_take he)
      obtain ⟨c, hc, rfl⟩ := List.mem_map.mp ((entries_perm hnodup).mem_iff.mp hentry)
      exact mem_image_scored.mpr ((h sorting c).mp (mem_mergeSearcherAnswers.mpr he))
    · intro he
      obtain ⟨c, hc, rfl⟩ := Finset.mem_image.mp he
      exact mem_mergeSearcherAnswers.mp ((h sorting c).mpr hc)
  have hlt := Sorting.lt_of_forall_take scoresAbove_iff hmem (mem_image_scored.mpr hakept)
    ((entries_perm hnodup).mem_iff.mpr (List.mem_map_of_mem hb))
    fun hb => hbkept (mem_image_scored.mp hb)
  exact hlt

end Disjoint

/-! ## The nearest documents of all shards -/

section Distributed

variable {Vec Time Dist : Type} [LinearOrder Dist]

open Coordinator

/-- The documents of an index are spread over the shards that etcd lists. Each shard has one host,
which answers with the nearest of its documents in order of distance; and the coordinator does not
remember any other shard. -/
structure ExactSearchers (net : Nat → String → SearchRequest Vec → Reply Time)
    (c : Coordinator Time) (request : SearchRequest Vec) (shards : List String)
    (docs : String → Finset Text) (dist : Text → Dist) (answer : String → List Text) : Prop where
  listed : c.etcd.listShardIds request.indexId = .ok shards
  served : ∀ s ∈ shards, ∃ host, c.etcd.listSearcherHosts request.indexId (some s) = [host] ∧
    ∀ n, (net n host request).answer = some (answer s)
  cached : ∀ s ∈ c.searchers request.indexId, s ∈ shards
  apart : ∀ s ∈ shards, ∀ s' ∈ shards, s ≠ s' → Disjoint (docs s) (docs s')
  holds : ∀ s ∈ shards, ∀ a ∈ answer s, a ∈ docs s
  nearest : ∀ s ∈ shards, (answer s).map dist = topK request.k.toNat ((docs s).image dist)

theorem Etcd.nodup_of_listShardIds {e : Etcd} {i : String} {shards : List String}
    (h : e.listShardIds i = .ok shards) : shards.Nodup := by
  obtain ⟨names, -, heq⟩ := bind_eq_ok.mp h
  obtain rfl := Except.ok.inj heq
  exact Writer.nodup_setOf names

theorem foldl_askSearcher_responses [Zero Time] [Add Time] [Mul Time] [Div Time] [NatCast Time]
    (d : Doubles Time)
    (net : Nat → String → SearchRequest Vec → Reply Time) (request : SearchRequest Vec)
    (answer : String × String → List Text) (l : List (String × String))
    (h : ∀ target ∈ l, ∀ n, (net n target.2 request).answer = some (answer target))
    (s : Coordinator Time × List (List Text)) :
    (l.foldl (fun s target => askSearcher d net request target.1 s target.2) s).2 =
      s.2 ++ l.map answer := by
  induction l generalizing s with
  | nil => exact (List.append_nil _).symm
  | cons target l ih =>
    rw [List.foldl_cons, ih fun t ht => h t (List.mem_cons_of_mem _ ht)]
    show (s.2 ++ (net s.1.contacts.length target.2 request).answer.toList) ++ _ = _
    rw [h target List.mem_cons_self, List.append_assoc]
    rfl

namespace ExactSearchers

variable {d : Doubles Time} {net : Nat → String → SearchRequest Vec → Reply Time}
variable {c : Coordinator Time} {request : SearchRequest Vec} {shards : List String}
variable {docs : String → Finset Text} {dist : Text → Dist} {answer : String → List Text}

/-- The answer of a shard has the nearest of its documents. -/
theorem mem_answer_iff (h : ExactSearchers net c request shards docs dist answer)
    {s : String} (hs : s ∈ shards) (hinj : Set.InjOn dist (docs s)) {a : Text} :
    a ∈ answer s ↔ a ∈ Lib.nearest dist request.k.toNat (docs s) := by
  rw [mem_nearest_iff hinj, ← h.nearest s hs, List.mem_map]
  constructor
  · exact fun ha => ⟨h.holds s hs a ha, a, ha, rfl⟩
  · rintro ⟨ha, b, hb, heq⟩
    exact hinj (h.holds s hs b hb) ha heq ▸ hb

theorem nodup_answers (h : ExactSearchers net c request shards docs dist answer) :
    (shards.map answer).flatten.Nodup := by
  rw [List.nodup_flatten, List.forall_mem_map, List.pairwise_map]
  constructor
  · intro s hs
    exact List.Nodup.of_map dist (h.nearest s hs ▸ nodup_topK _ _)
  · refine (Etcd.nodup_of_listShardIds h.listed).imp_of_mem fun {s s'} hs hs' hne a ha ha' => ?_
    exact Finset.disjoint_left.mp (h.apart s hs s' hs' hne) (h.holds s hs a ha)
      (h.holds s' hs' a ha')

/-- The nearest documents of all shards are in the answers, and there are as many of them as the
coordinator returns. -/
theorem nearest_answered (h : ExactSearchers net c request shards docs dist answer)
    (hinj : Set.InjOn dist (shards.toFinset.biUnion docs)) :
    (∀ a ∈ Lib.nearest dist request.k.toNat (shards.toFinset.biUnion docs),
      a ∈ (shards.map answer).flatten) ∧
    (Lib.nearest dist request.k.toNat (shards.toFinset.biUnion docs)).card =
      min request.k.toNat (shards.map answer).flatten.length := by
  have hpart : ∀ s ∈ shards, docs s ⊆ shards.toFinset.biUnion docs := fun s hs =>
    Finset.subset_biUnion_of_mem docs (List.mem_toFinset.mpr hs)
  have hkept : ∀ a ∈ Lib.nearest dist request.k.toNat (shards.toFinset.biUnion docs),
      a ∈ (shards.map answer).flatten := by
    intro a ha
    obtain ⟨s, hs, has⟩ := Finset.mem_biUnion.mp (mem_nearest.mp ha).1
    have hs := List.mem_toFinset.mp hs
    refine List.mem_flatten.mpr ⟨answer s, List.mem_map_of_mem hs, ?_⟩
    rw [h.mem_answer_iff hs (hinj.mono (hpart s hs))]
    exact mem_nearest_of_subset (hpart s hs) ha has
  refine ⟨hkept, ?_⟩
  have hsub : (shards.map answer).flatten.toFinset ⊆ shards.toFinset.biUnion docs := by
    intro a ha
    obtain ⟨l, hl, hal⟩ := List.mem_flatten.mp (List.mem_toFinset.mp ha)
    obtain ⟨s, hs, rfl⟩ := List.mem_map.mp hl
    exact hpart s hs (h.holds s hs a hal)
  have hfewer := Finset.card_le_card fun a ha => List.mem_toFinset.mpr (hkept a ha)
  have hmore := Finset.card_le_card hsub
  rw [List.toFinset_card_of_nodup h.nodup_answers] at hfewer hmore
  rw [card_nearest hinj] at hfewer ⊢
  omega

variable [Zero Time] [Add Time] [Mul Time] [Div Time] [NatCast Time]

/-- The coordinator collects one answer for each shard. -/
theorem responses_perm (h : ExactSearchers net c request shards docs dist answer)
    (order : IterOrder (Σ _ : String, List String)) :
    (askSearchers d net order request
      (shards.foldl (updateWithIndexShardInfo request.indexId) c)).2.Perm (shards.map answer) := by
  choose! host hhost hanswer using h.served
  obtain ⟨-, -, hlookup⟩ := foldl_updateWithIndexShardInfo request.indexId c shards
  generalize shards.foldl (updateWithIndexShardInfo request.indexId) c = c' at hlookup
  have hentries : (c'.searchers request.indexId).entries.Perm
      (shards.map fun s => (⟨s, [host s]⟩ : Σ _ : String, List String)) := by
    have hshards : shards.Nodup := Etcd.nodup_of_listShardIds h.listed
    rw [List.perm_ext_iff_of_nodup (c'.searchers request.indexId).nodupKeys.nodup
      (hshards.map fun s s' heq => congrArg Sigma.fst heq)]
    rintro ⟨s, hosts⟩
    rw [← AList.mem_lookup_iff, Option.mem_def, hlookup, List.mem_map]
    by_cases hs : s ∈ shards
    · rw [if_pos hs, hhost s hs]
      constructor
      · intro heq
        exact ⟨s, hs, by rw [Option.some.inj heq]⟩
      · rintro ⟨s', -, heq⟩
        cases heq
        rfl
    · rw [if_neg hs]
      constructor
      · intro hold
        exact absurd (h.cached s (AList.lookup_isSome.mp (hold ▸ rfl))) hs
      · rintro ⟨s', hs', heq⟩
        cases heq
        exact absurd hs' hs
  have htargets : (c'.targets order request.indexId).Perm (shards.map fun s => (s, host s)) := by
    have hperm := ((order.perm _).trans hentries).flatMap_right
      fun entry : Σ _ : String, List String => entry.2.map fun address => (entry.1, address)
    rw [List.flatMap_map] at hperm
    exact hperm.trans (.of_eq (List.flatMap_pure_eq_map (fun s => (s, host s)) shards))
  have hall : ∀ target ∈ c'.targets order request.indexId, ∀ n,
      (net n target.2 request).answer = some (answer target.1) := by
    intro target htarget n
    obtain ⟨s, hs, rfl⟩ := List.mem_map.mp (htargets.mem_iff.mp htarget)
    exact hanswer s hs n
  rw [askSearchers_eq, foldl_askSearcher_responses d net request _ _ hall, List.nil_append]
  have hmap := htargets.map fun target => answer target.1
  rwa [List.map_map] at hmap

end ExactSearchers

variable [Zero Time] [Add Time] [Mul Time] [Div Time] [NatCast Time]

omit [DecidableEq ID] in
theorem StandsAhead.perm {responses responses' : List (List ID)} {kept : Finset ID}
    (h : StandsAhead responses kept) (hperm : responses.Perm responses') :
    StandsAhead responses' kept :=
  fun r hr r' hr' => h r (hperm.mem_iff.mpr hr) r' (hperm.mem_iff.mpr hr')

/-- The coordinator returns the nearest documents of all shards, whatever the orders of its tables
and the ties of its sort, if and only if the nearest documents stand in the answers of their shards
at earlier positions than the other documents in the answers. -/
theorem distributed_nearest_iff (d : Doubles Time)
    (net : Nat → String → SearchRequest Vec → Reply Time) (c : Coordinator Time)
    (request : SearchRequest Vec) (hk : 1 ≤ request.k) (hint : request.k < 2 ^ 31)
    (hshard : request.shardId = none) (shards : List String) (docs : String → Finset Text)
    (dist : Text → Dist) (answer : String → List Text)
    (h : ExactSearchers net c request shards docs dist answer)
    (hinj : Set.InjOn dist (shards.toFinset.biUnion docs)) :
    (∀ choices, ∃ ids c', c.processSearchRequest d net choices request = .ok (ids, c') ∧
      ids.Nodup ∧
      ∀ a, a ∈ ids ↔ a ∈ nearest dist request.k.toNat (shards.toFinset.biUnion docs)) ↔
    StandsAhead (shards.map answer)
      (nearest dist request.k.toNat (shards.toFinset.biUnion docs)) := by
  have hrequested : requestedShards c.etcd request = .ok shards := by
    rw [requestedShards, hshard]
    exact h.listed
  have hsize : sizeT request.k = request.k.toNat := by
    unfold sizeT
    omega
  obtain ⟨hkept, hcard⟩ := h.nearest_answered hinj
  constructor
  · intro hall
    have hperm := h.responses_perm (d := d) (.insertion _)
    have hnodup := hperm.flatten.nodup_iff.mpr h.nodup_answers
    refine (standsAhead_of_merge (k := request.k.toNat) hnodup ?_).perm hperm
    intro sorting a
    obtain ⟨ids, c', hprocess, -, hids⟩ := hall ⟨.insertion _, .insertion _, sorting⟩
    rw [processSearchRequest_of_ok d net hrequested, hsize] at hprocess
    obtain ⟨rfl, -⟩ := Prod.mk.inj (Except.ok.inj hprocess)
    exact hids a
  · intro hahead choices
    have hperm := h.responses_perm (d := d) choices.shardOrder
    refine ⟨_, _, processSearchRequest_of_ok d net hrequested,
      nodup_mergeSearcherAnswers _ _ _ _, fun a => ?_⟩
    rw [hsize]
    refine (hahead.perm hperm.symm).mem_merge_iff (hperm.flatten.nodup_iff.mpr h.nodup_answers)
      (fun a ha => hperm.flatten.mem_iff.mpr (hkept a ha)) ?_ _ _ a
    rw [hcard, hperm.flatten.length_eq]

end Distributed

/-- The sum of the bytes, as the distance of a document. -/
def byteSum (id : Text) : Nat := (id.bytes.map UInt8.toNat).sum

/-- The documents of two shards, in order of distance. -/
def twoLists (east west : List Text) (s : String) : List Text := if s = "east" then east else west

@[simp] theorem twoLists_east (east west : List Text) : twoLists east west "east" = east :=
  if_pos rfl

@[simp] theorem twoLists_west (east west : List Text) : twoLists east west "west" = west :=
  if_neg (by decide)

/-- The hosts of the two shards answer with all their documents. -/
def twoSearchers (east west : List Text) : Nat → String → SearchRequest Unit → Reply Nat :=
  fun _ a _ => ⟨some (if a = "a" then east else west), 0⟩

/-- What etcd lists for the two shards. -/
theorem twoShards_lists : twoShards.listShardIds "docs" = .ok ["east", "west"] ∧
    twoShards.listSearcherHosts "docs" (some "east") = ["a"] ∧
    twoShards.listSearcherHosts "docs" (some "west") = ["b"] := by
  decide +kernel

theorem exactSearchers_two {east west : List Text} {k : Int}
    (heast : (east.map byteSum).Pairwise (· < ·)) (hwest : (west.map byteSum).Pairwise (· < ·))
    (hle : east.length ≤ k.toNat) (hle' : west.length ≤ k.toNat) (hapart : ∀ a ∈ east, a ∉ west) :
    ExactSearchers (twoSearchers east west) (Coordinator.create twoShards)
      ⟨(), k, "docs", none⟩ ["east", "west"] (fun s => (twoLists east west s).toFinset) byteSum
      (twoLists east west) where
  listed := twoShards_lists.1
  served := by
    intro s hs
    rcases List.mem_pair.mp hs with rfl | rfl
    · exact ⟨"a", twoShards_lists.2.1, fun _ => by simp [twoSearchers]⟩
    · exact ⟨"b", twoShards_lists.2.2, fun _ => by simp [twoSearchers]⟩
  cached := fun s hs => absurd hs (AList.notMem_empty s)
  apart := by
    intro s hs s' hs' hne
    rw [List.disjoint_toFinset_iff_disjoint]
    rcases List.mem_pair.mp hs with rfl | rfl <;> rcases List.mem_pair.mp hs' with rfl | rfl
    · exact absurd rfl hne
    · rw [twoLists_east, twoLists_west]
      exact fun a ha => hapart a ha
    · rw [twoLists_east, twoLists_west]
      exact fun a ha hb => hapart a hb ha
    · exact absurd rfl hne
  holds := fun s _ a ha => List.mem_toFinset.mpr ha
  nearest := by
    have hall : ∀ l : List Text, (l.map byteSum).Pairwise (· < ·) → l.length ≤ k.toNat →
        l.map byteSum = topK k.toNat (l.toFinset.image byteSum) := by
      intro l hl hlen
      have hsort : l.map byteSum = (l.toFinset.image byteSum).sort :=
        eq_sort_of_pairwise hl fun x => by simp
      rw [topK, ← hsort, List.take_of_length_le (by rwa [List.length_map])]
    intro s hs
    rcases List.mem_pair.mp hs with rfl | rfl
    · rw [twoLists_east]
      exact hall east heast hle
    · rw [twoLists_west]
      exact hall west hwest hle'

/-- Both nearest documents are in one shard, and the coordinator returns one from each. -/
theorem distributed_nearest_missed :
    ExactSearchers (twoSearchers [letter 1, letter 2] [letter 10, letter 20])
        (Coordinator.create twoShards) ⟨(), 2, "docs", none⟩ ["east", "west"]
        (fun s => (twoLists [letter 1, letter 2] [letter 10, letter 20] s).toFinset) byteSum
        (twoLists [letter 1, letter 2] [letter 10, letter 20]) ∧
      ((Coordinator.create twoShards).processSearchRequest strokes
          (twoSearchers [letter 1, letter 2] [letter 10, letter 20]) plainChoices
          ⟨(), 2, "docs", none⟩).toOption.map Prod.fst = some [letter 1, letter 10] ∧
      letter 2 ∈ nearest byteSum 2 (["east", "west"].toFinset.biUnion fun s =>
        (twoLists [letter 1, letter 2] [letter 10, letter 20] s).toFinset) := by
  refine ⟨exactSearchers_two (by decide) (by decide) (by decide) (by decide) (by decide), ?_, ?_⟩
  · decide +kernel
  · decide +kernel

/-- Each shard has one of the two nearest documents, and they are found. -/
theorem distributed_nearest_found :
    (nearest byteSum 2 (["east", "west"].toFinset.biUnion fun s =>
        (twoLists [letter 1, letter 20] [letter 2, letter 10] s).toFinset) =
      {letter 1, letter 2}) ∧
    ∀ choices, ∃ ids c', (Coordinator.create twoShards).processSearchRequest strokes
        (twoSearchers [letter 1, letter 20] [letter 2, letter 10]) choices
        ⟨(), 2, "docs", none⟩ = .ok (ids, c') ∧
      ids.Nodup ∧ ∀ a, a ∈ ids ↔ a ∈ nearest byteSum 2 (["east", "west"].toFinset.biUnion fun s =>
        (twoLists [letter 1, letter 20] [letter 2, letter 10] s).toFinset) := by
  refine ⟨by decide +kernel, ?_⟩
  have hdocs :
      ExactSearchers (twoSearchers [letter 1, letter 20] [letter 2, letter 10]) _ _ _ _ _ _ :=
    exactSearchers_two (k := 2) (by decide) (by decide) (by decide) (by decide) (by decide)
  refine (distributed_nearest_iff strokes _ _ _ (by decide) (by decide) rfl _ _ _ _ hdocs ?_).mpr ?_
  · have hinj : ∀ a ∈ ["east", "west"].toFinset.biUnion fun s =>
        (twoLists [letter 1, letter 20] [letter 2, letter 10] s).toFinset,
        ∀ b ∈ ["east", "west"].toFinset.biUnion fun s =>
          (twoLists [letter 1, letter 20] [letter 2, letter 10] s).toFinset,
        byteSum a = byteSum b → a = b := by decide +kernel
    exact fun a ha b hb => hinj a ha b hb
  · exact (standsAhead_iff hdocs.nodup_answers).mpr (by decide +kernel)

end Vecodex
