import Mathlib.Algebra.Order.BigOperators.Group.List
import Mathlib.Tactic.Ring
import Vecodex.Laws.RankFusion
import Vecodex.Lib.Ranking

/-!
# The possible answers of a merge

`MergeSearcherAnswers` reads its table of scores in an unknown order and sorts it with unknown
ties, so for one list of responses it has several possible outputs. They are exactly the rankings
of the ids by `fusedScore`, the sum of 1 / (61 + p) over all positions p of an id
(`possible_iff`). Everything below follows from this description.

An id that stands before another one in every response that has the other one scores above it
(`fusedScore_lt`), so equal responses give back their common list. A response that is there `m`
times counts `m` times (`fusedScore_replicas`): shards with more replicas come first.
-/

namespace Vecodex

open Lib

variable {ID : Type} [DecidableEq ID]

/-! ## Scores -/

/-- What one response adds to the score of an id: 1 / (61 + p) for each of its positions p. -/
def rankScore (response : List ID) (id : ID) : ℚ :=
  ((response.zipIdx.filter fun entry => entry.1 = id).map fun entry => 1 / (61 + (entry.2 : ℚ))).sum

/-- The score of an id in a list of responses. -/
def fusedScore (responses : List (List ID)) (id : ID) : ℚ :=
  (responses.map fun response => rankScore response id).sum

theorem getScore_eq (p : Nat) : getScore p = 1 / (61 + (p : ℚ)) := by
  unfold getScore rffConst
  ring

theorem scoreIn_zipIdx (response : List ID) (id : ID) :
    scoreIn response.zipIdx id = rankScore response id := by
  simp only [scoreIn, rankScore, getScore_eq]

/-- The table of the code holds these scores. -/
theorem scoreIn_occurrences (responses : List (List ID)) (id : ID) :
    scoreIn (occurrences responses) id = fusedScore responses id := by
  induction responses with
  | nil => rfl
  | cons response responses ih =>
    have hsplit : scoreIn (occurrences (response :: responses)) id =
        scoreIn response.zipIdx id + scoreIn (occurrences responses) id := by
      simp only [scoreIn, occurrences, List.flatMap_cons, List.filter_append, List.map_append,
        List.sum_append]
    rw [hsplit, ih, scoreIn_zipIdx]
    simp only [fusedScore, List.map_cons, List.sum_cons]

theorem fusedScore_perm {responses responses' : List (List ID)}
    (h : responses.Perm responses') : fusedScore responses = fusedScore responses' := by
  ext id
  exact (h.map _).sum_eq

theorem rankScore_nonneg (response : List ID) (id : ID) : 0 ≤ rankScore response id := by
  apply List.sum_nonneg
  intro score hscore
  obtain ⟨entry, -, rfl⟩ := List.mem_map.mp hscore
  positivity

theorem rankScore_of_notMem {response : List ID} {id : ID} (h : id ∉ response) :
    rankScore response id = 0 := by
  have hnone : (response.zipIdx.filter fun entry => entry.1 = id) = [] := by
    rw [List.filter_eq_nil_iff]
    intro entry hentry
    rw [decide_eq_true_eq]
    rintro rfl
    exact h (List.fst_mem_of_mem_zipIdx hentry)
  rw [rankScore, hnone, List.map_nil, List.sum_nil]

/-- An id at one position gets the score of this position. -/
theorem rankScore_of_getElem? {response : List ID} (hnodup : response.Nodup) {p : Nat} {id : ID}
    (h : response[p]? = some id) : rankScore response id = 1 / (61 + (p : ℚ)) := by
  have hkeys : (response.zipIdx.map Prod.fst).Nodup := by rwa [List.zipIdx_map_fst]
  have hentry : (id, p) ∈ response.zipIdx := List.mem_zipIdx_iff_getElem?.mpr h
  have hone := filter_eq_singleton hkeys hentry
  rw [rankScore, hone, List.map_singleton, List.sum_singleton]

theorem positionScore_lt {p q : Nat} (h : p < q) : 1 / (61 + (q : ℚ)) < 1 / (61 + (p : ℚ)) := by
  have hcast : (p : ℚ) < q := Nat.cast_lt.mpr h
  apply one_div_lt_one_div_of_lt
  · positivity
  · linarith

/-! ## The possible outputs -/

/-- The outputs a rank fusion may give: the best `n` distinct ids of the responses by their scores,
in order. -/
def Fused (responses : List (List ID)) (n : Nat) : List ID → Prop :=
  Ranking (fusedScore responses) responses.flatten.toFinset n

/-- A list the code may return for the responses, as its hash table and its sort have it. -/
def Possible (responses : List (List ID)) (n : Nat) (out : List ID) : Prop :=
  ∃ order sorting, mergeSearcherAnswers order sorting responses n = out

/-- The stable sort. -/
def byScore : Sorting (@scoresAbove ID) :=
  Sorting.ofKey (fun e => e.2) fun _ _ hle => decide_eq_false (not_lt.mpr hle)

theorem fused_mergeSearcherAnswers (order : IterOrder (Σ _ : ID, ℚ))
    (sorting : Sorting (@scoresAbove ID)) (responses : List (List ID)) (n : Nat) :
    Fused responses n (mergeSearcherAnswers order sorting responses n) := by
  have hperm := (sorting.perm _).trans (order.perm (DocToScore.ofResponses responses).entries)
  have hsorted := sorting.sorted (order.arrange (DocToScore.ofResponses responses).entries)
  show Fused responses n (((sorting.sort _).take n).map Sigma.fst)
  generalize sorting.sort _ = sorted at hperm hsorted ⊢
  have hscore : ∀ e ∈ sorted, e.2 = fusedScore responses e.1 := by
    intro e he
    rw [← scoreIn_occurrences]
    exact (DocToScore.mem_entries_ofResponses.mp (hperm.mem_iff.mp he)).2
  rw [List.map_take]
  apply Ranking.of_sorted
  · exact (hperm.map Sigma.fst).nodup_iff.mpr (DocToScore.ofResponses responses).nodupKeys
  · intro a
    rw [(hperm.map Sigma.fst).mem_iff, List.mem_toFinset]
    constructor
    · intro ha
      obtain ⟨e, he, rfl⟩ := List.mem_map.mp ha
      exact (DocToScore.mem_entries_ofResponses.mp he).1
    · intro ha
      exact List.mem_map.mpr ⟨scored responses a,
        DocToScore.mem_entries_ofResponses.mpr ⟨ha, rfl⟩, rfl⟩
  · rw [List.pairwise_map]
    apply hsorted.imp_of_mem
    intro e f he hf hbefore
    rw [← hscore e he, ← hscore f hf]
    exact not_lt.mp (of_decide_eq_false hbefore)

/-- Every ranking is what the code returns for some order and some ties. -/
theorem Fused.possible {responses : List (List ID)} {n : Nat} {out : List ID}
    (h : Fused responses n out) : Possible responses n out := by
  obtain ⟨l, hnodup, hmem, hsorted, rfl⟩ := Ranking.exists_extension h
  have hperm : (l.map (scored responses)).Perm (DocToScore.ofResponses responses).entries := by
    rw [List.perm_ext_iff_of_nodup (hnodup.map scored_injective)
      (DocToScore.ofResponses responses).nodupKeys.nodup]
    intro e
    rw [DocToScore.mem_entries_ofResponses, List.mem_map]
    constructor
    · rintro ⟨a, ha, rfl⟩
      exact ⟨List.mem_toFinset.mp ((hmem a).mp ha), rfl⟩
    · rintro ⟨he, hscore⟩
      exact ⟨e.1, (hmem e.1).mpr (List.mem_toFinset.mpr he), Sigma.ext rfl (heq_of_eq hscore.symm)⟩
  have hordered : (l.map (scored responses)).Pairwise fun e f => scoresAbove f e = false := by
    rw [List.pairwise_map]
    apply hsorted.imp
    intro a b hle
    apply decide_eq_false
    rw [gt_iff_lt, not_lt]
    simp only [scored, scoreIn_occurrences]
    exact hle
  obtain ⟨sorting, hsort⟩ := byScore.exists_sort_eq hperm hordered
  refine ⟨.insertion _, sorting, ?_⟩
  show ((sorting.sort (DocToScore.ofResponses responses).entries).take n).map Sigma.fst = l.take n
  rw [hsort, ← List.map_take, List.map_map]
  exact List.map_id _

theorem possible_iff {responses : List (List ID)} {n : Nat} {out : List ID} :
    Possible responses n out ↔ Fused responses n out := by
  constructor
  · rintro ⟨order, sorting, rfl⟩
    exact fused_mergeSearcherAnswers order sorting responses n
  · exact Fused.possible

/-- The merge returns a ranking by the fused scores; each such ranking is a possible output; and
the rankings do not depend on the order of the responses. -/
theorem fusion_spec (responses : List (List ID)) (n : Nat) :
    (∀ order sorting, Fused responses n (mergeSearcherAnswers order sorting responses n)) ∧
      (∀ out, Fused responses n out → Possible responses n out) ∧
      ∀ responses', responses.Perm responses' →
        ∀ out, Fused responses n out ↔ Fused responses' n out := by
  refine ⟨fun order sorting => fused_mergeSearcherAnswers order sorting responses n,
    fun out => Fused.possible, ?_⟩
  intro responses' hperm out
  have hids : responses.flatten.toFinset = responses'.flatten.toFinset := by
    ext a
    simp only [List.mem_toFinset, hperm.flatten.mem_iff]
  simp only [Fused, fusedScore_perm hperm, hids]

theorem fusion_spec_swapped :
    [[1, 2], [2, 3]].Perm [[2, 3], [1, 2]] ∧ Fused [[2, 3], [1, 2]] 2 [2, 1] := by
  have hperm : [[1, 2], [2, 3]].Perm [[2, 3], [1, 2]] := .swap _ _ _
  obtain ⟨hall, -, hsame⟩ := fusion_spec [[1, 2], [2, 3]] 2
  refine ⟨hperm, (hsame _ hperm _).mp ?_⟩
  have hmerged : mergeSearcherAnswers (.insertion _) byScore [[1, 2], [2, 3]] 2 = [2, 1] := by
    decide +kernel
  exact hmerged ▸ hall _ _

/-! ## Unanimous responses -/

/-- `a` stands in a response at an earlier position than `b`. -/
def StandsBefore (response : List ID) (a b : ID) : Prop :=
  ∃ i j : Nat, i < j ∧ response[i]? = some a ∧ response[j]? = some b

/-- An id that stands before another one wherever the other one stands scores above it. -/
theorem fusedScore_lt {responses : List (List ID)} (hnodup : ∀ r ∈ responses, r.Nodup) {a b : ID}
    (hb : ∃ r ∈ responses, b ∈ r)
    (hbefore : ∀ r ∈ responses, b ∈ r → StandsBefore r a b) :
    fusedScore responses b < fusedScore responses a := by
  have hstep : ∀ r ∈ responses, b ∈ r → rankScore r b < rankScore r a := by
    intro r hr hbr
    obtain ⟨i, j, hij, hi, hj⟩ := hbefore r hr hbr
    rw [rankScore_of_getElem? (hnodup r hr) hi, rankScore_of_getElem? (hnodup r hr) hj]
    exact positionScore_lt hij
  obtain ⟨r, hr, hbr⟩ := hb
  apply List.sum_lt_sum
  · intro r hr
    by_cases hbr : b ∈ r
    · exact (hstep r hr hbr).le
    · rw [rankScore_of_notMem hbr]
      exact rankScore_nonneg r a
  · exact ⟨r, hr, hstep r hr hbr⟩

/-- When `a` stands before `b` in every response with `b`, no output has `b` without `a` before it.
Equal responses give back their common list. -/
theorem unanimous_preference (order : IterOrder (Σ _ : ID, ℚ)) (sorting : Sorting (@scoresAbove ID))
    (responses : List (List ID)) (n : Nat) (hnodup : ∀ r ∈ responses, r.Nodup) :
    (∀ a b, (∃ r ∈ responses, b ∈ r) →
      (∀ r ∈ responses, b ∈ r → StandsBefore r a b) →
      b ∈ mergeSearcherAnswers order sorting responses n →
        StandsBefore (mergeSearcherAnswers order sorting responses n) a b) ∧
    ∀ m l, responses = List.replicate (m + 1) l →
      mergeSearcherAnswers order sorting responses n = l.take n := by
  have hfused := fused_mergeSearcherAnswers order sorting responses n
  constructor
  · intro a b hb hbefore hmem
    obtain ⟨r, hr, hbr⟩ := hb
    obtain ⟨i, -, -, hi, -⟩ := hbefore r hr hbr
    have ha : a ∈ responses.flatten.toFinset :=
      List.mem_toFinset.mpr (List.mem_flatten.mpr ⟨r, hr, List.mem_of_getElem? hi⟩)
    obtain ⟨q, hq⟩ := List.mem_iff_getElem?.mp hmem
    obtain ⟨p, hlt, hp⟩ :=
      Ranking.ahead hfused ha (fusedScore_lt hnodup ⟨r, hr, hbr⟩ hbefore) hq
    exact ⟨p, q, hlt, hp, hq⟩
  · rintro m l rfl
    have hl : l.Nodup := hnodup l (List.mem_replicate.mpr ⟨Nat.succ_ne_zero m, rfl⟩)
    refine Ranking.eq_take (fun a => ?_) ?_ hfused
    · simp
    · rw [List.pairwise_iff_getElem]
      intro i j hi hj hij
      apply fusedScore_lt hnodup
      · exact ⟨l, List.mem_replicate.mpr ⟨Nat.succ_ne_zero m, rfl⟩, List.getElem_mem hj⟩
      · intro r hr _
        obtain ⟨-, rfl⟩ := List.mem_replicate.mp hr
        exact ⟨i, j, hij, List.getElem?_eq_getElem hi, List.getElem?_eq_getElem hj⟩

/-- Both searchers rank 1 before 2, and one of them ranks 3 before both; two replicas with the same
list. -/
theorem unanimous_preference_pair :
    StandsBefore (mergeSearcherAnswers (.insertion _) byScore [[1, 2], [3, 1, 2]] 3) 1 2 ∧
      mergeSearcherAnswers (.insertion _) byScore [[3, 1, 2], [3, 1, 2]] 2 = [3, 1] := by
  constructor
  · obtain ⟨hahead, -⟩ := unanimous_preference (.insertion _) byScore [[1, 2], [3, 1, 2]] 3
      (by decide)
    refine hahead 1 2 ⟨[1, 2], by decide, by decide⟩ ?_ (by decide +kernel)
    intro r hr _
    rcases List.mem_pair.mp hr with rfl | rfl
    · exact ⟨0, 1, by decide, rfl, rfl⟩
    · exact ⟨1, 2, by decide, rfl, rfl⟩
  · exact (unanimous_preference (.insertion _) byScore [[3, 1, 2], [3, 1, 2]] 2
      (by decide)).2 1 [3, 1, 2] rfl

/-! ## Replicas -/

/-- The answers when shard by shard a number of replicas sends the same list. -/
def replicated (shards : List (Nat × List ID)) : List (List ID) :=
  shards.flatMap fun shard => List.replicate shard.1 shard.2

omit [DecidableEq ID] in
theorem mem_lists {shards : List (Nat × List ID)} {a : ID} :
    a ∈ (shards.map Prod.snd).flatten ↔ ∃ s ∈ shards, a ∈ s.2 := by
  simp only [List.mem_flatten, List.mem_map, exists_exists_and_eq_and]

omit [DecidableEq ID] in
theorem mem_replicated {shards : List (Nat × List ID)} (hcounts : ∀ s ∈ shards, 1 ≤ s.1) {a : ID} :
    a ∈ (replicated shards).flatten ↔ ∃ s ∈ shards, a ∈ s.2 := by
  simp only [replicated, List.mem_flatten, List.mem_flatMap, List.mem_replicate]
  constructor
  · rintro ⟨r, ⟨s, hs, -, rfl⟩, ha⟩
    exact ⟨s, hs, ha⟩
  · rintro ⟨s, hs, ha⟩
    have hpos := hcounts s hs
    exact ⟨s.2, ⟨s, hs, by omega, rfl⟩, ha⟩

theorem fusedScore_replicated (shards : List (Nat × List ID)) (id : ID) :
    fusedScore (replicated shards) id = (shards.map fun s => s.1 * rankScore s.2 id).sum := by
  induction shards with
  | nil => rfl
  | cons s shards ih =>
    simp only [fusedScore, replicated] at ih
    simp only [fusedScore, replicated, List.flatMap_cons, List.map_append, List.sum_append, ih,
      List.map_replicate, List.sum_replicate, nsmul_eq_mul, List.map_cons, List.sum_cons]

omit [DecidableEq ID] in
/-- What only the shard of an id adds to a sum is the sum. -/
theorem sum_of_shard {shards : List (Nat × List ID)}
    (hnodup : (shards.map Prod.snd).flatten.Nodup) {s : Nat × List ID} (hs : s ∈ shards) {id : ID}
    (hid : id ∈ s.2) {f : Nat × List ID → ℚ} (hf : ∀ t, id ∉ t.2 → f t = 0) :
    (shards.map f).sum = f s := by
  induction shards with
  | nil => cases hs
  | cons t shards ih =>
    rw [List.map_cons, List.flatten_cons, List.nodup_append] at hnodup
    obtain ⟨-, hrest, hapart⟩ := hnodup
    rw [List.map_cons, List.sum_cons]
    rcases List.mem_cons.mp hs with rfl | hs
    · have hzero : ∀ x ∈ shards.map f, x = 0 := by
        intro x hx
        obtain ⟨t, ht, rfl⟩ := List.mem_map.mp hx
        apply hf
        intro hidt
        exact hapart id hid id (mem_lists.mpr ⟨t, ht, hidt⟩) rfl
      rw [List.sum_eq_zero hzero, add_zero]
    · have hidt : id ∉ t.2 := fun hidt =>
        hapart id hidt id (mem_lists.mpr ⟨s, hs, hid⟩) rfl
      rw [hf t hidt, zero_add]
      exact ih hrest hs

section Replicas

variable {shards : List (Nat × List ID)} (hnodup : (shards.map Prod.snd).flatten.Nodup)
include hnodup

/-- A replica more counts once more. -/
theorem fusedScore_replicas {s : Nat × List ID} (hs : s ∈ shards) {id : ID} (hid : id ∈ s.2) :
    fusedScore (replicated shards) id = s.1 * fusedScore (shards.map Prod.snd) id := by
  have honce : fusedScore (shards.map Prod.snd) id = rankScore s.2 id := by
    rw [fusedScore, List.map_map]
    exact sum_of_shard hnodup hs hid fun t ht => rankScore_of_notMem ht
  rw [fusedScore_replicated, honce]
  apply sum_of_shard hnodup hs hid (f := fun t => (t.1 : ℚ) * rankScore t.2 id)
  intro t ht
  rw [rankScore_of_notMem ht, mul_zero]

/-- When every list is there once, an id has the score of its position. -/
theorem fusedScore_at {s : Nat × List ID} (hs : s ∈ shards) {p : Nat} {id : ID}
    (hp : s.2[p]? = some id) : fusedScore (shards.map Prod.snd) id = 1 / (61 + (p : ℚ)) := by
  have hlist : s.2.Nodup := (List.nodup_flatten.mp hnodup).1 s.2 (List.mem_map_of_mem hs)
  rw [← rankScore_of_getElem? hlist hp, fusedScore, List.map_map]
  exact sum_of_shard hnodup hs (List.mem_of_getElem? hp) fun t ht => rankScore_of_notMem ht

theorem fusedScore_first {s : Nat × List ID} (hs : s ∈ shards) {id : ID} {rest : List ID}
    (hfirst : s.2 = id :: rest) : fusedScore (shards.map Prod.snd) id = 1 / 61 := by
  have hscore := fusedScore_at hnodup hs (p := 0) (by rw [hfirst]; rfl : _ = some id)
  rwa [Nat.cast_zero, add_zero] at hscore

theorem fusedScore_le {id : ID} (hid : id ∈ (shards.map Prod.snd).flatten) :
    fusedScore (shards.map Prod.snd) id ≤ 1 / 61 := by
  obtain ⟨s, hs, hmem⟩ := mem_lists.mp hid
  obtain ⟨p, hp⟩ := List.mem_iff_getElem?.mp hmem
  have hpos : (0 : ℚ) ≤ p := Nat.cast_nonneg p
  rw [fusedScore_at hnodup hs hp]
  apply one_div_le_one_div_of_le (by norm_num)
  linarith

/-- When the outputs are the same, no shard with results has fewer replicas than another: its first
id can come first when every list is there once, so it has to be able to with the replicas. -/
theorem count_le_of_same {n : Nat} (hn : 0 < n)
    (hsame : ∀ out,
      Ranking (fusedScore (replicated shards)) (shards.map Prod.snd).flatten.toFinset n out ↔
        Ranking (fusedScore (shards.map Prod.snd)) (shards.map Prod.snd).flatten.toFinset n out)
    {s t : Nat × List ID} (hs : s ∈ shards) (ht : t ∈ shards) (hsome : s.2 ≠ [])
    (htsome : t.2 ≠ []) : t.1 ≤ s.1 := by
  obtain ⟨a, as, ha⟩ := List.exists_cons_of_ne_nil hsome
  obtain ⟨b, bs, hb⟩ := List.exists_cons_of_ne_nil htsome
  have has : a ∈ s.2 := ha ▸ List.mem_cons_self
  have hbt : b ∈ t.2 := hb ▸ List.mem_cons_self
  obtain ⟨rest, hrest⟩ : ∃ rest, Ranking (fusedScore (shards.map Prod.snd))
      (shards.map Prod.snd).flatten.toFinset n (a :: rest) := by
    rw [Ranking.exists_first_iff hn, fusedScore_first hnodup hs ha]
    refine ⟨List.mem_toFinset.mpr (mem_lists.mpr ⟨s, hs, has⟩), fun c hc => ?_⟩
    exact fusedScore_le hnodup (List.mem_toFinset.mp hc)
  have hmax := ((Ranking.exists_first_iff hn).mp ⟨rest, (hsame _).mpr hrest⟩).2 b
    (List.mem_toFinset.mpr (mem_lists.mpr ⟨t, ht, hbt⟩))
  rw [fusedScore_replicas hnodup hs has, fusedScore_replicas hnodup ht hbt,
    fusedScore_first hnodup hs ha, fusedScore_first hnodup ht hb] at hmax
  have hcast : (t.1 : ℚ) ≤ s.1 := by linarith
  exact_mod_cast hcast

/-- With one factor for all ids, the replicas leave the order of the scores as it is. -/
theorem fusedScore_replicated_le (hcounts : ∀ s ∈ shards, 1 ≤ s.1)
    (hequal : ∀ s ∈ shards, ∀ t ∈ shards, s.2 ≠ [] → t.2 ≠ [] → s.1 = t.1) {a b : ID}
    (ha : a ∈ (shards.map Prod.snd).flatten) (hb : b ∈ (shards.map Prod.snd).flatten) :
    fusedScore (replicated shards) b ≤ fusedScore (replicated shards) a ↔
      fusedScore (shards.map Prod.snd) b ≤ fusedScore (shards.map Prod.snd) a := by
  obtain ⟨s, hs, has⟩ := mem_lists.mp ha
  obtain ⟨t, ht, hbt⟩ := mem_lists.mp hb
  have hcount := hequal s hs t ht (List.ne_nil_of_mem has) (List.ne_nil_of_mem hbt)
  have hpos : (0 : ℚ) < s.1 := Nat.cast_pos.mpr (hcounts s hs)
  rw [fusedScore_replicas hnodup hs has, fusedScore_replicas hnodup ht hbt, ← hcount]
  exact mul_le_mul_iff_right₀ hpos

end Replicas

/-- The possible outputs are the same for the given numbers of replicas as for one replica of every
shard, if and only if nothing is requested or all shards with results have equally many replicas. -/
theorem replica_counts_iff (shards : List (Nat × List ID)) (n : Nat)
    (hcounts : ∀ s ∈ shards, 1 ≤ s.1) (hnodup : (shards.map Prod.snd).flatten.Nodup) :
    (∀ out, Possible (replicated shards) n out ↔ Possible (shards.map Prod.snd) n out) ↔
      n = 0 ∨ ∀ s ∈ shards, ∀ t ∈ shards, s.2 ≠ [] → t.2 ≠ [] → s.1 = t.1 := by
  have hids : (replicated shards).flatten.toFinset = (shards.map Prod.snd).flatten.toFinset := by
    ext a
    rw [List.mem_toFinset, List.mem_toFinset, mem_replicated hcounts, mem_lists]
  simp only [possible_iff, Fused, hids]
  constructor
  · intro hsame
    rw [or_iff_not_imp_left]
    intro hn s hs t ht hsome htsome
    apply Nat.le_antisymm
    · exact count_le_of_same hnodup (Nat.pos_of_ne_zero hn) hsame ht hs htsome hsome
    · exact count_le_of_same hnodup (Nat.pos_of_ne_zero hn) hsame hs ht hsome htsome
  · rintro (rfl | hequal) out
    · rw [Ranking.zero_iff, Ranking.zero_iff]
    · have horder : ∀ a ∈ (shards.map Prod.snd).flatten.toFinset,
          ∀ b ∈ (shards.map Prod.snd).flatten.toFinset,
          (fusedScore (replicated shards) b ≤ fusedScore (replicated shards) a ↔
            fusedScore (shards.map Prod.snd) b ≤ fusedScore (shards.map Prod.snd) a) :=
        fun a ha b hb => fusedScore_replicated_le hnodup hcounts hequal (List.mem_toFinset.mp ha)
          (List.mem_toFinset.mp hb)
      constructor
      · exact Ranking.congr fun a ha b hb => (horder a ha b hb).mp
      · exact Ranking.congr fun a ha b hb => (horder a ha b hb).mpr

/-- Two replicas of one shard push its second id before the first id of the other shard. -/
theorem replicas_change_answer :
    Possible (replicated [(2, [1, 2]), (1, [3])]) 2 [1, 2] ∧ ¬ Possible [[1, 2], [3]] 2 [1, 2] := by
  constructor
  · exact ⟨.insertion _, byScore, by decide +kernel⟩
  · intro h
    have hbest := (possible_iff.mp h).best 2 (by decide) 3 (by decide) (by decide)
    exact absurd hbest (by decide +kernel)

theorem replica_counts_iff_equal :
    (∀ out, Possible (replicated [(2, [1, 2]), (2, [3]), (5, [])]) 2 out ↔
      Possible [[1, 2], [3], []] 2 out) ∧
    Possible (replicated [(2, [1, 2]), (2, [3]), (5, [])]) 2 [3, 1] := by
  have hsame := (replica_counts_iff [(2, [1, 2]), (2, [3]), (5, [])] 2 (by decide) (by decide)).mpr
    (.inr (by decide))
  exact ⟨hsame, .insertion _, byScore, by decide +kernel⟩

end Vecodex
