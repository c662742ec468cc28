import Vecodex.App.Coordinator

/-!
# Laws of the coordinator

Two things a coordinator should do: ask the hosts that etcd lists for a request, and take a host
out of etcd when the host fails.

What it asks is what its table of clients has for the index. A request brings the shards it is for
up to date and leaves the others as earlier requests left them, so it asks the right hosts exactly
when the others have no host besides (`contacted_iff`).

What it takes out is decided by the errors of the whole shard before the call
(`Watched.evicted`). The host that causes the first error stays, and the next one goes, so no run
with an error is as it should be (`evictions_iff`).
-/

namespace Vecodex

open Lib

variable {Vec Time : Type}

namespace Coordinator

/-! ## The table of clients -/

section Refresh

variable [Zero Time]

@[simp] theorem updateWithIndexShardInfo_etcd (i : String) (c : Coordinator Time) (s : String) :
    (updateWithIndexShardInfo i c s).etcd = c.etcd := by
  unfold updateWithIndexShardInfo
  dsimp only
  split <;> rfl

@[simp] theorem updateWithIndexShardInfo_contacts (i : String) (c : Coordinator Time)
    (s : String) : (updateWithIndexShardInfo i c s).contacts = c.contacts := by
  unfold updateWithIndexShardInfo
  dsimp only
  split <;> rfl

theorem updateWithIndexShardInfo_searchers (i : String) (c : Coordinator Time) (s : String) :
    (updateWithIndexShardInfo i c s).searchers i =
      (c.searchers i).insert s (c.etcd.listSearcherHosts i (some s)) := by
  unfold updateWithIndexShardInfo
  dsimp only
  split <;> simp [searchers, setStats]

/-- The shards of the request are read from etcd, the others stay. -/
theorem foldl_updateWithIndexShardInfo (i : String) (c : Coordinator Time) (shards : List String) :
    (shards.foldl (updateWithIndexShardInfo i) c).etcd = c.etcd ∧
      (shards.foldl (updateWithIndexShardInfo i) c).contacts = c.contacts ∧
      ∀ s, ((shards.foldl (updateWithIndexShardInfo i) c).searchers i).lookup s =
        if s ∈ shards then some (c.etcd.listSearcherHosts i (some s))
        else (c.searchers i).lookup s := by
  induction shards generalizing c with
  | nil => exact ⟨rfl, rfl, fun s => rfl⟩
  | cons shard shards ih =>
    obtain ⟨hetcd, hcontacts, hlookup⟩ := ih (updateWithIndexShardInfo i c shard)
    rw [List.foldl_cons]
    refine ⟨by rw [hetcd, updateWithIndexShardInfo_etcd],
      by rw [hcontacts, updateWithIndexShardInfo_contacts], fun s => ?_⟩
    rw [hlookup, updateWithIndexShardInfo_etcd, updateWithIndexShardInfo_searchers]
    by_cases hs : s = shard
    · subst hs
      simp
    · simp [hs, AList.lookup_insert_ne hs]

end Refresh

/-- The clients to ask, each with its shard. -/
def targets (order : IterOrder (Σ _ : String, List String)) (c : Coordinator Time)
    (indexId : String) : List (String × String) :=
  (order.arrange (c.searchers indexId).entries).flatMap fun entry =>
    entry.2.map fun address => (entry.1, address)

theorem mem_targets {order : IterOrder (Σ _ : String, List String)} {c : Coordinator Time}
    {i : String} {target : String × String} : target ∈ c.targets order i ↔
      ∃ hosts, (c.searchers i).lookup target.1 = some hosts ∧ target.2 ∈ hosts := by
  obtain ⟨s, a⟩ := target
  unfold targets
  rw [List.mem_flatMap]
  constructor
  · rintro ⟨⟨s', hosts⟩, hentry, hmem⟩
    obtain ⟨a', ha, heq⟩ := List.mem_map.mp hmem
    obtain ⟨rfl, rfl⟩ := Prod.mk.inj heq
    exact ⟨hosts, AList.mem_lookup_iff.mpr (order.mem_arrange.mp hentry), ha⟩
  · rintro ⟨hosts, hlookup, ha⟩
    exact ⟨⟨s, hosts⟩, order.mem_arrange.mpr (AList.mem_lookup_iff.mp hlookup),
      List.mem_map_of_mem ha⟩

section Requests

variable [Zero Time] [Add Time] [Mul Time] [Div Time] [NatCast Time]
variable (d : Doubles Time) (net : Nat → String → SearchRequest Vec → Reply Time)

/-! ## The calls of a request -/

/-- The two loops are one over the clients. -/
theorem askSearchers_eq (order : IterOrder (Σ _ : String, List String))
    (request : SearchRequest Vec) (c : Coordinator Time) :
    askSearchers d net order request c =
      (c.targets order request.indexId).foldl
        (fun s target => askSearcher d net request target.1 s target.2) (c, []) := by
  unfold askSearchers targets
  rw [List.foldl_flatMap]
  congr 1
  funext s entry
  rw [List.foldl_map]
  rfl

/-- Every client is called once, in the order of the loops. -/
theorem foldl_askSearcher_contacts (request : SearchRequest Vec) (l : List (String × String))
    (s : Coordinator Time × List (List Text)) :
    ∃ made, (l.foldl (fun s target => askSearcher d net request target.1 s target.2) s).1.contacts =
        s.1.contacts ++ made ∧
      made.map (fun contact => (contact.shardId, contact.address)) = l := by
  induction l generalizing s with
  | nil => exact ⟨[], (List.append_nil _).symm, rfl⟩
  | cons target l ih =>
    obtain ⟨made, hmade, hl⟩ := ih (askSearcher d net request target.1 s target.2)
    refine ⟨s.1.contact net request target.1 target.2 :: made, ?_, by rw [List.map_cons, hl]; rfl⟩
    rw [List.foldl_cons, hmade]
    exact List.append_assoc _ [_] _

theorem processSearchRequest_of_ok {choices : Choices} {c : Coordinator Time}
    {request : SearchRequest Vec} {shards : List String}
    (hshards : requestedShards c.etcd request = .ok shards) :
    c.processSearchRequest d net choices request =
      .ok (mergeSearcherAnswers choices.scoreOrder choices.sorting
          (askSearchers d net choices.shardOrder request
            (shards.foldl (updateWithIndexShardInfo request.indexId) c)).2 (sizeT request.k),
        (askSearchers d net choices.shardOrder request
          (shards.foldl (updateWithIndexShardInfo request.indexId) c)).1) := by
  unfold processSearchRequest updateSearchersState
  rw [hshards]
  rfl

theorem processSearchRequest_of_error {choices : Choices} {c : Coordinator Time}
    {request : SearchRequest Vec} {fault : EtcdFault}
    (hshards : requestedShards c.etcd request = .error fault) :
    c.processSearchRequest d net choices request = .error fault := by
  unfold processSearchRequest updateSearchersState
  rw [hshards]
  rfl

/-! ## Whom a request reaches -/

/-- The addresses a request is sent to. -/
def contacted (choices : Choices) (c : Coordinator Time) (request : SearchRequest Vec) :
    List String :=
  match c.processSearchRequest d net choices request with
  | .ok (_, c') => (c'.contacts.drop c.contacts.length).map Contact.address
  | .error _ => []

/-- The addresses that etcd lists for a request. -/
def listed (e : Etcd) (request : SearchRequest Vec) : List String :=
  match requestedShards e request with
  | .ok shards => shards.flatMap fun s => e.listSearcherHosts request.indexId (some s)
  | .error _ => []

theorem contacted_eq {choices : Choices} {c : Coordinator Time} {request : SearchRequest Vec}
    {shards : List String} (hshards : requestedShards c.etcd request = .ok shards) :
    contacted d net choices c request =
      ((shards.foldl (updateWithIndexShardInfo request.indexId) c).targets choices.shardOrder
        request.indexId).map Prod.snd := by
  rw [contacted, processSearchRequest_of_ok d net hshards]
  dsimp only
  rw [askSearchers_eq]
  obtain ⟨made, hmade, hl⟩ := foldl_askSearcher_contacts d net request
    ((shards.foldl (updateWithIndexShardInfo request.indexId) c).targets choices.shardOrder
      request.indexId) (shards.foldl (updateWithIndexShardInfo request.indexId) c, [])
  rw [hmade, (foldl_updateWithIndexShardInfo request.indexId c shards).2.1, List.drop_left, ← hl,
    List.map_map]
  rfl

/-- A request that cannot list its shards reaches nobody. -/
theorem contacted_of_error {choices : Choices} {c : Coordinator Time}
    {request : SearchRequest Vec} {fault : EtcdFault}
    (hshards : requestedShards c.etcd request = .error fault) :
    contacted d net choices c request = [] := by
  rw [contacted, processSearchRequest_of_error d net hshards]

theorem listed_eq {e : Etcd} {request : SearchRequest Vec} {shards : List String}
    (hshards : requestedShards e request = .ok shards) :
    listed e request = shards.flatMap fun s => e.listSearcherHosts request.indexId (some s) := by
  rw [listed, hshards]

/-- A request reaches the hosts etcd lists for it and those the table still has for the other
shards. -/
theorem mem_contacted {choices : Choices} {c : Coordinator Time} {request : SearchRequest Vec}
    {shards : List String} (hshards : requestedShards c.etcd request = .ok shards) {a : String} :
    a ∈ contacted d net choices c request ↔ a ∈ listed c.etcd request ∨
      ∃ s hosts, (c.searchers request.indexId).lookup s = some hosts ∧ s ∉ shards ∧ a ∈ hosts := by
  obtain ⟨-, -, hlookup⟩ := foldl_updateWithIndexShardInfo request.indexId c shards
  rw [contacted_eq d net hshards, listed_eq hshards, List.mem_map, List.mem_flatMap]
  constructor
  · rintro ⟨⟨s, a⟩, htarget, rfl⟩
    obtain ⟨hosts, hhosts, ha⟩ := mem_targets.mp htarget
    rw [hlookup] at hhosts
    split at hhosts
    · next hs =>
      obtain rfl := Option.some.inj hhosts
      exact .inl ⟨s, hs, ha⟩
    · next hs => exact .inr ⟨s, hosts, hhosts, hs, ha⟩
  · rintro (⟨s, hs, ha⟩ | ⟨s, hosts, hhosts, hs, ha⟩)
    · exact ⟨(s, a), mem_targets.mpr ⟨_, (hlookup s).trans (if_pos hs), ha⟩, rfl⟩
    · exact ⟨(s, a), mem_targets.mpr ⟨hosts, (hlookup s).trans ((if_neg hs).trans hhosts), ha⟩, rfl⟩

end Requests

end Coordinator

open Coordinator

section Contacted

variable [Zero Time] [Add Time] [Mul Time] [Div Time] [NatCast Time]

/-- After any requests and changes of etcd, a request reaches exactly the hosts etcd lists for it
if and only if the hosts the table still has for the other shards of the index are among them. A
request whose shards cannot be listed fails and reaches nobody. -/
theorem contacted_iff (d : Doubles Time) (net : Nat → String → SearchRequest Vec → Reply Time)
    (e : Etcd) (events : List (CoordinatorEvent Vec)) (choices : Choices)
    (request : SearchRequest Vec) :
    (∀ a, a ∈ contacted d net choices ((create e).run d net events) request ↔
      a ∈ listed ((create e).run d net events).etcd request) ↔
    ∀ shards, requestedShards ((create e).run d net events).etcd request = .ok shards →
      ∀ s hosts, (((create e).run d net events).searchers request.indexId).lookup s = some hosts →
        s ∉ shards → ∀ a ∈ hosts, a ∈ listed ((create e).run d net events).etcd request := by
  generalize (create e).run d net events = c
  constructor
  · intro h shards hshards s hosts hhosts hs a ha
    exact (h a).mp ((mem_contacted d net hshards).mpr (.inr ⟨s, hosts, hhosts, hs, ha⟩))
  · intro h a
    cases hshards : requestedShards c.etcd request with
    | error fault => rw [contacted_of_error d net hshards, listed, hshards]
    | ok shards =>
      rw [mem_contacted d net hshards, or_iff_left_of_imp]
      rintro ⟨s, hosts, hhosts, hs, ha⟩
      exact h shards hshards s hosts hhosts hs a ha

end Contacted

/-- Times as numbers of strokes. -/
def strokes : Doubles Nat where
  zero := 0
  toString n := String.ofList (List.replicate n '1')
  stod := String.length

/-- Tables in order of insertion, ties as they come. -/
def plainChoices : Choices where
  shardOrder := .insertion _
  scoreOrder := .insertion _
  sorting := .ofKey Sigma.snd fun _ _ hle => decide_eq_false hle.not_gt

/-- Two shards with one host each. -/
def twoShards : Etcd :=
  ((Etcd.empty (.insertion _)).addSearcherHost "docs" "east" "a").addSearcherHost "docs" "west" "b"

/-- A request for one shard reaches a host of the other one after a request for both. -/
theorem contacted_other_shard :
    listed (((create twoShards).run strokes (fun _ _ _ => ⟨some [], 0⟩)
        [.search plainChoices ⟨(), 1, "docs", none⟩]).etcd)
        (⟨(), 1, "docs", some "east"⟩ : SearchRequest Unit) = ["a"] ∧
      "b" ∈ contacted strokes (fun _ _ _ => ⟨some [], 0⟩) plainChoices
        ((create twoShards).run strokes (fun _ _ _ => ⟨some [], 0⟩)
          [.search plainChoices ⟨(), 1, "docs", none⟩])
        (⟨(), 1, "docs", some "east"⟩ : SearchRequest Unit) := by
  decide +kernel

/-! ## Whom the coordinator takes out of etcd -/

namespace Contact

/-- The call was one of the shard and failed. -/
def failedIn (i s : String) (contact : Contact Time) : Bool :=
  contact.failed && decide (contact.indexId = i ∧ contact.shardId = s)

/-- The call was one of the host, for the shard, and failed. -/
def failedAt (i s a : String) (contact : Contact Time) : Bool :=
  contact.failedIn i s && decide (contact.address = a)

/-- The host was taken out of the shard after the call. -/
def evicted (contact : Contact Time) : Bool :=
  contact.updates.any fun
    | .removeSearcherHost i s a =>
      decide (i = contact.indexId ∧ s = contact.shardId ∧ a = contact.address)
    | _ => false

theorem countP_failedIn_eq_zero {l : List (Contact Time)} {i s : String}
    (h : ∀ contact ∈ l, contact.failed = false) : l.countP (failedIn i s) = 0 := by
  refine List.countP_eq_zero.mpr fun contact hmem => ?_
  rw [failedIn, h contact hmem]
  exact Bool.false_ne_true

theorem countP_failedAt_eq_zero {l : List (Contact Time)} {i s a : String}
    (h : ∀ contact ∈ l, contact.failed = false) : l.countP (failedAt i s a) = 0 :=
  Nat.le_zero.mp ((List.countP_mono_left fun _ _ hat => (Bool.and_eq_true_iff.mp hat).1).trans
    (countP_failedIn_eq_zero h).le)

end Contact

theorem StatsManager.aggregateStats_errorsCnt [Add Time] [Mul Time] [Div Time] [NatCast Time]
    (m : StatsManager Time) (respTime : Option Time) :
    (m.aggregateStats respTime).errorsCnt = m.errorsCnt + if respTime.isNone then 1 else 0 := by
  cases respTime <;> rfl

namespace Coordinator

variable [Zero Time]

theorem stats_setStats (c : Coordinator Time) (i s : String) (m : StatsManager Time)
    (i' s' : String) : (c.setStats i s m).stats i' s' =
      if i' = i ∧ s' = s then m else c.stats i' s' := by
  unfold stats setStats
  dsimp only
  by_cases hi : i' = i
  · subst hi
    by_cases hs : s' = s
    · subst hs
      simp
    · simp [hs, AList.lookup_insert_ne hs]
  · simp [hi, AList.lookup_insert_ne hi]

/-- The counters of a shard stay as they are when its hosts are read. -/
theorem stats_updateWithIndexShardInfo (i : String) (c : Coordinator Time) (s i' s' : String) :
    (updateWithIndexShardInfo i c s).stats i' s' = c.stats i' s' := by
  unfold updateWithIndexShardInfo
  dsimp only
  split
  · rfl
  · next hout =>
    rw [stats_setStats]
    split
    · next heq =>
      obtain ⟨rfl, rfl⟩ := heq
      have hnone : c.searchersStats.lookup i' = none := AList.lookup_eq_none.mpr hout
      simp [stats, hnone]
    · rfl

/-- The host goes when the counters say that there were errors. -/
theorem contact_evicted (net : Nat → String → SearchRequest Vec → Reply Time)
    (request : SearchRequest Vec) (s : String) (c : Coordinator Time) (a : String) :
    (c.contact net request s a).evicted = true ↔
      kHostErrorsLimit ≤ (c.stats request.indexId s).errorsCnt := by
  unfold contact Contact.evicted updateStateIfNeeded
  dsimp only
  split
  · next hlimit => simp [hlimit]
  · next hlimit =>
    refine iff_of_false ?_ hlimit
    split <;> simp

/-- The errors of a shard are those of its calls, and after a call the host goes when there was an
error in the shard before. -/
structure Watched (c : Coordinator Time) : Prop where
  errors : ∀ i s, (c.stats i s).errorsCnt = c.contacts.countP (Contact.failedIn i s)
  evicted : ∀ n contact, c.contacts[n]? = some contact → (contact.evicted = true ↔
    kHostErrorsLimit ≤
      (c.contacts.take n).countP (Contact.failedIn contact.indexId contact.shardId))

namespace Watched

variable {c : Coordinator Time}

theorem create (e : Etcd) : (create e : Coordinator Time).Watched where
  errors := fun _ _ => rfl
  evicted := fun _ _ h => by cases h

theorem of_etcd (h : c.Watched) (e : Etcd) : { c with etcd := e }.Watched :=
  ⟨h.errors, h.evicted⟩

theorem refresh (h : c.Watched) (i s : String) : (updateWithIndexShardInfo i c s).Watched where
  errors := fun i' s' => by
    rw [stats_updateWithIndexShardInfo, updateWithIndexShardInfo_contacts, h.errors]
  evicted := fun n contact => by
    rw [updateWithIndexShardInfo_contacts]
    exact h.evicted n contact

end Watched

variable [Add Time] [Mul Time] [Div Time] [NatCast Time]

theorem askSearcher_contacts (d : Doubles Time)
    (net : Nat → String → SearchRequest Vec → Reply Time) (request : SearchRequest Vec) (s : String)
    (c : Coordinator Time) (responses : List (List Text)) (a : String) :
    (askSearcher d net request s (c, responses) a).1.contacts =
      c.contacts ++ [c.contact net request s a] :=
  rfl

theorem askSearcher_stats (d : Doubles Time)
    (net : Nat → String → SearchRequest Vec → Reply Time) (request : SearchRequest Vec) (s : String)
    (c : Coordinator Time) (responses : List (List Text)) (a i' s' : String) :
    (askSearcher d net request s (c, responses) a).1.stats i' s' =
      if i' = request.indexId ∧ s' = s then
        (c.stats request.indexId s).aggregateStats
          ((net c.contacts.length a request).answer.map fun _ =>
            (net c.contacts.length a request).respTime)
      else c.stats i' s' := by
  unfold askSearcher
  dsimp only
  rw [stats_setStats]
  rfl

namespace Watched

variable {d : Doubles Time} {net : Nat → String → SearchRequest Vec → Reply Time}
variable {c : Coordinator Time}

theorem ask (h : c.Watched) (request : SearchRequest Vec) (s : String)
    (responses : List (List Text)) (a : String) :
    (askSearcher d net request s (c, responses) a).1.Watched where
  errors := fun i' s' => by
    rw [askSearcher_contacts, List.countP_append, List.countP_singleton, ← h.errors,
      askSearcher_stats]
    by_cases hshard : i' = request.indexId ∧ s' = s
    · obtain ⟨rfl, rfl⟩ := hshard
      rw [if_pos ⟨rfl, rfl⟩, StatsManager.aggregateStats_errorsCnt, Option.isNone_map]
      simp [Contact.failedIn, contact]
    · have hother : (c.contact net request s a).failedIn i' s' = false := by
        rw [Contact.failedIn, Bool.and_eq_false_iff, decide_eq_false_iff_not]
        exact .inr fun heq => hshard ⟨heq.1.symm, heq.2.symm⟩
      rw [if_neg hshard, hother]
      rfl
  evicted := fun n contact' hn => by
    rw [askSearcher_contacts] at hn ⊢
    rcases Nat.lt_trichotomy n c.contacts.length with hlt | rfl | hgt
    · rw [List.getElem?_append_left hlt] at hn
      rw [List.take_append_of_le_length hlt.le]
      exact h.evicted n contact' hn
    · rw [List.getElem?_concat_length] at hn
      obtain rfl := Option.some.inj hn
      rw [List.take_left]
      show _ ↔ kHostErrorsLimit ≤ c.contacts.countP (Contact.failedIn request.indexId s)
      rw [← h.errors, contact_evicted]
    · rw [List.getElem?_eq_none (by rw [List.length_append]; exact hgt)] at hn
      cases hn

end Watched

section Runs

variable {d : Doubles Time} {net : Nat → String → SearchRequest Vec → Reply Time}

/-- What the reading of a shard, a call and a change of etcd keep, every event keeps. -/
theorem step_invariant {P : Coordinator Time → Prop}
    (hrefresh : ∀ c i s, P c → P (updateWithIndexShardInfo i c s))
    (hask : ∀ c request s responses a, P c → P (askSearcher d net request s (c, responses) a).1)
    (hetcd : ∀ c e, P c → P { c with etcd := e }) {c : Coordinator Time} (h : P c)
    (event : CoordinatorEvent Vec) : P (c.step d net event) := by
  cases event with
  | etcdChanged e => exact hetcd c e h
  | search choices request =>
    cases hshards : requestedShards c.etcd request with
    | error fault =>
      rw [step, processSearchRequest_of_error d net hshards]
      exact h
    | ok shards =>
      rw [step, processSearchRequest_of_ok d net hshards]
      dsimp only
      rw [askSearchers_eq]
      have hshards : P (shards.foldl (updateWithIndexShardInfo request.indexId) c) :=
        List.foldlRecOn shards _ h fun c hc s _ => hrefresh c _ s hc
      refine List.foldlRecOn (motive := fun s : Coordinator Time × List (List Text) => P s.1) _ _
        hshards fun s hs target _ => ?_
      exact hask s.1 request target.1 s.2 target.2 hs

theorem run_invariant {P : Coordinator Time → Prop}
    (hrefresh : ∀ c i s, P c → P (updateWithIndexShardInfo i c s))
    (hask : ∀ c request s responses a, P c → P (askSearcher d net request s (c, responses) a).1)
    (hetcd : ∀ c e, P c → P { c with etcd := e }) {c : Coordinator Time} (h : P c)
    (events : List (CoordinatorEvent Vec)) : P (c.run d net events) :=
  List.foldlRecOn events _ h fun _ hc event _ => step_invariant hrefresh hask hetcd hc event

theorem watched_run (e : Etcd) (events : List (CoordinatorEvent Vec)) :
    ((create e).run d net events).Watched :=
  run_invariant (fun _ i s h => h.refresh i s) (fun _ request s responses a h =>
    h.ask request s responses a) (fun _ e h => h.of_etcd e) (Watched.create e) events

end Runs

end Coordinator

variable [Zero Time] [Add Time] [Mul Time] [Div Time] [NatCast Time]

/-- In a run, the hosts taken out of etcd are the ones that have failed, each right after its first
failed call, if and only if no call fails at all. -/
theorem evictions_iff (d : Doubles Time) (net : Nat → String → SearchRequest Vec → Reply Time)
    (e : Etcd) (events : List (CoordinatorEvent Vec)) :
    (∀ n contact, ((create e).run d net events).contacts[n]? = some contact →
      (contact.evicted = true ↔ kHostErrorsLimit ≤
        (((create e).run d net events).contacts.take (n + 1)).countP
          (Contact.failedAt contact.indexId contact.shardId contact.address))) ↔
    ∀ contact ∈ ((create e).run d net events).contacts, contact.failed = false := by
  have hwatched : ((create e).run d net events).Watched := watched_run e events
  generalize (create e).run d net events = c at hwatched
  constructor
  · -- the first failed call finds no error, so the host stays
    intro h
    cases hfind : c.contacts.find? Contact.failed with
    | none =>
      intro contact hmem
      exact Bool.eq_false_iff.mpr (List.find?_eq_none.mp hfind contact hmem)
    | some contact =>
      obtain ⟨hfailed, before, rest, hcontacts, hbefore⟩ := List.find?_eq_some_iff_append.mp hfind
      have hn : c.contacts[before.length]? = some contact := by
        rw [hcontacts, List.getElem?_append_right le_rfl, Nat.sub_self, List.getElem?_cons_zero]
      have hmem : contact ∈ c.contacts.take (before.length + 1) :=
        List.mem_of_getElem? ((List.getElem?_take_of_lt (Nat.lt_succ_self _)).trans hn)
      have hgoes := (h _ contact hn).mpr (List.countP_pos_iff.mpr ⟨contact, hmem, by
        simp [Contact.failedAt, Contact.failedIn, hfailed]⟩)
      have hseen := (hwatched.evicted _ contact hn).mp hgoes
      rw [hcontacts, List.take_left, Contact.countP_failedIn_eq_zero fun other hother =>
        (Bool.not_eq_true' _).mp (hbefore other hother)] at hseen
      exact absurd hseen (by decide)
  · intro h n contact hn
    rw [hwatched.evicted n contact hn]
    have hfine : ∀ k, ∀ other ∈ c.contacts.take k, other.failed = false :=
      fun k other hother => h other (List.mem_of_mem_take hother)
    rw [Contact.countP_failedIn_eq_zero (hfine n), Contact.countP_failedAt_eq_zero (hfine (n + 1))]

/-- Two hosts of a shard. -/
def twoHosts : Etcd :=
  ((Etcd.empty (.insertion _)).addSearcherHost "docs" "east" "a").addSearcherHost "docs" "east" "b"

/-- The calls of the host fails. -/
def failing (address : String) : Nat → String → SearchRequest Unit → Reply Nat :=
  fun _ a _ => ⟨if a = address then none else some [], 0⟩

/-- The host that does not fail goes, and the one that does stays. -/
theorem healthy_host_evicted :
    ((create twoHosts).run strokes (failing "b")
        [.search plainChoices ⟨(), 1, "docs", none⟩]).contacts.map
          (fun contact => (contact.address, contact.failed, contact.evicted)) =
        [("b", true, false), ("a", false, true)] ∧
      ((create twoHosts).run strokes (failing "b")
        [.search plainChoices ⟨(), 1, "docs", none⟩]).etcd.listSearcherHosts "docs" (some "east") =
        ["b"] := by
  decide +kernel

end Vecodex
