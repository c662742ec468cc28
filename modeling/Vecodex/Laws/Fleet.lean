import Mathlib.Data.List.TakeWhile
import Vecodex.App.Fleet
import Vecodex.Laws.Coordinator
import Vecodex.Laws.Registry
import Vecodex.Lib.Since

/-!
# Laws of the fleet

What etcd says about a shard can be told from what happened to the shard, for every interleaving of
the searchers' constructors and destructors with the calls of the coordinator (`Kept`).

A host is listed since it registered, unless it deregistered or was asked at a time when some call
of the shard had already failed (`host_listed_iff`). It does not matter whose call failed: once one
has, every host that is asked is taken out, and a host that registers again is listed until it is
asked the next time. A request that reads the hosts of such a shard therefore leaves none behind
(`failed_shard_drained`).

The stored response time is the average before the last call that found no failure
(`response_time_stored`). It is one call behind, and it does not change any more after the first
failure.
-/

namespace Vecodex

open Lib

variable {Vec Time : Type}

/-! ## Histories of a shard -/

namespace FleetEntry

/-- The response, if the entry is a call of the shard. -/
def response (i s : String) : FleetEntry Time → Option (Option Time)
  | asked i' s' _ respTime => if i' = i ∧ s' = s then some respTime else none
  | _ => none

/-- The entry takes the host out of the shard. -/
def Removes (i s a : String) (before : List (FleetEntry Time)) (entry : FleetEntry Time) : Prop :=
  entry = left i s a ∨
    ∃ respTime, entry = asked i s a respTime ∧ none ∈ before.filterMap (response i s)

end FleetEntry

namespace Fleet

open FleetEntry

/-- The responses of a shard, in order. -/
def responses (i s : String) (log : List (FleetEntry Time)) : List (Option Time) :=
  log.filterMap (response i s)

/-- The host has registered for the shard, and nothing has taken it out since. -/
def Listed (i s a : String) (log : List (FleetEntry Time)) : Prop :=
  Since (· = joined i s a) (Removes i s a) log

theorem responses_concat (i s : String) (log : List (FleetEntry Time)) (e : FleetEntry Time) :
    responses i s (log ++ [e]) = responses i s log ++ (e.response i s).toList := by
  unfold responses
  rw [List.filterMap_append]
  cases h : e.response i s with
  | none => simp [h]
  | some r => simp [h]

theorem responses_asked (i s a : String) (log : List (FleetEntry Time)) (r : Option Time)
    (i' s' : String) : responses i' s' (log ++ [asked i s a r]) =
      if i = i' ∧ s = s' then responses i' s' log ++ [r] else responses i' s' log := by
  rw [responses_concat, response]
  split
  · rfl
  · exact List.append_nil _

theorem listed_joined (i s a : String) (log : List (FleetEntry Time)) (i' s' a' : String) :
    Listed i' s' a' (log ++ [joined i s a]) ↔ (i', s', a') = (i, s, a) ∨ Listed i' s' a' log := by
  simp only [Listed, since_concat, Removes, joined.injEq, reduceCtorEq, false_and, exists_false,
    or_self, not_false_eq_true, and_true, Prod.mk.injEq]
  grind

theorem listed_left (i s a : String) (log : List (FleetEntry Time)) (i' s' a' : String) :
    Listed i' s' a' (log ++ [left i s a]) ↔ (i', s', a') ≠ (i, s, a) ∧ Listed i' s' a' log := by
  simp only [Listed, since_concat, Removes, left.injEq, reduceCtorEq, false_and, exists_false,
    or_false, false_or, ne_eq, Prod.mk.injEq]
  grind

theorem listed_asked (i s a : String) (log : List (FleetEntry Time)) (r : Option Time)
    (i' s' a' : String) : Listed i' s' a' (log ++ [asked i s a r]) ↔
      Listed i' s' a' log ∧ ¬((i', s', a') = (i, s, a) ∧ none ∈ responses i s log) := by
  simp only [Listed, since_concat, Removes, reduceCtorEq, false_or, asked.injEq, responses,
    Prod.mk.injEq]
  grind

theorem isSome_of_not_mem {rs : List (Option Time)} (h : none ∉ rs) :
    ∀ r ∈ rs, r.isSome = true := by
  intro r hr
  cases r with
  | none => exact absurd hr h
  | some t => rfl

/-- What comes after a failure does not matter. -/
theorem takeWhile_isSome_of_mem {rs : List (Option Time)} (h : none ∈ rs) (r : Option Time) :
    (rs ++ [r]).takeWhile Option.isSome = rs.takeWhile Option.isSome := by
  induction rs with
  | nil => cases h
  | cons r' rs ih =>
    rw [List.cons_append]
    cases r' with
    | none => rw [List.takeWhile_cons_of_neg Bool.false_ne_true,
        List.takeWhile_cons_of_neg Bool.false_ne_true]
    | some t =>
      rw [List.takeWhile_cons_of_pos rfl, List.takeWhile_cons_of_pos rfl, ih]
      exact (List.mem_cons.mp h).resolve_left (Option.some_ne_none t).symm

section Times

variable [Zero Time] [Add Time] [Mul Time] [Div Time] [NatCast Time]

/-- A manager that has seen the responses. -/
def statsOf (rs : List (Option Time)) : StatsManager Time :=
  rs.foldl StatsManager.aggregateStats .new

/-- The average before the last response that found no failure. -/
def storedTime (rs : List (Option Time)) : Option Time :=
  if rs = [] then none
  else some (statsOf (rs.dropLast.takeWhile Option.isSome)).averageResponseTime

theorem statsOf_concat (rs : List (Option Time)) (r : Option Time) :
    statsOf (rs ++ [r]) = (statsOf rs).aggregateStats r := by
  simp only [statsOf, List.foldl_append, List.foldl_cons, List.foldl_nil]

theorem statsOf_errorsCnt (rs : List (Option Time)) :
    (statsOf rs).errorsCnt = rs.countP Option.isNone := by
  induction rs using List.reverseRecOn with
  | nil => rfl
  | append_singleton rs r ih =>
    rw [statsOf_concat, StatsManager.aggregateStats_errorsCnt, ih, List.countP_append,
      List.countP_singleton]

/-- A response that finds no failure has the average so far stored. -/
theorem storedTime_concat_of_not_mem {rs : List (Option Time)} (h : none ∉ rs) (r : Option Time) :
    storedTime (rs ++ [r]) = some (statsOf rs).averageResponseTime := by
  rw [storedTime, if_neg (List.append_ne_nil_of_right_ne_nil _ (List.cons_ne_nil r [])),
    List.dropLast_concat, List.takeWhile_eq_self_iff.mpr (isSome_of_not_mem h)]

/-- A response after a failure has nothing stored. -/
theorem storedTime_concat_of_mem {rs : List (Option Time)} (h : none ∈ rs) (r : Option Time) :
    storedTime (rs ++ [r]) = storedTime rs := by
  have hne : rs ≠ [] := List.ne_nil_of_mem h
  rw [storedTime, storedTime, if_neg (List.append_ne_nil_of_left_ne_nil hne _), if_neg hne,
    List.dropLast_concat]
  obtain ⟨init, last, rfl⟩ := (List.eq_nil_or_concat rs).resolve_left hne
  rw [List.concat_eq_append] at h ⊢
  rw [List.dropLast_concat]
  by_cases hinit : none ∈ init
  · rw [takeWhile_isSome_of_mem hinit]
  · obtain rfl : none = last :=
      List.mem_singleton.mp ((List.mem_append.mp h).resolve_left hinit)
    rw [List.takeWhile_append_of_pos (isSome_of_not_mem hinit),
      List.takeWhile_cons_of_neg Bool.false_ne_true, List.append_nil,
      List.takeWhile_eq_self_iff.mpr (isSome_of_not_mem hinit)]

theorem kHostErrorsLimit_le_statsOf {rs : List (Option Time)} :
    (statsOf rs).errorsCnt ≥ Coordinator.kHostErrorsLimit ↔ none ∈ rs := by
  rw [statsOf_errorsCnt]
  show 0 < rs.countP Option.isNone ↔ _
  rw [List.countP_pos_iff]
  constructor
  · rintro ⟨r, hr, hnone⟩
    exact Option.isNone_iff_eq_none.mp hnone ▸ hr
  · exact fun h => ⟨none, h, rfl⟩

/-- What the coordinator does to etcd after a call that finds a failure. -/
theorem updateStateIfNeeded_of_mem (i s a : String) {rs : List (Option Time)} (h : none ∈ rs) :
    Coordinator.updateStateIfNeeded i s a (statsOf rs) = [.removeSearcherHost i s a] :=
  if_pos (kHostErrorsLimit_le_statsOf.mpr h)

/-- What the coordinator does to etcd after a call that finds none. -/
theorem updateStateIfNeeded_of_not_mem (i s a : String) {rs : List (Option Time)}
    (h : none ∉ rs) : Coordinator.updateStateIfNeeded i s a (statsOf rs) =
      [.updateAverageResponseTime i s (statsOf rs).averageResponseTime] :=
  (if_neg (mt kHostErrorsLimit_le_statsOf.mp h)).trans (if_pos (Nat.mod_one _))

end Times

end Fleet

/-! ## Ids without slashes -/

/-- The names contain no slash. -/
def PlainNames (names : List (String × String)) : Prop :=
  ∀ name ∈ names, NoSlash name.1 ∧ NoSlash name.2

def Member.Plain : Member → Prop
  | .up names todo => PlainNames names ∧ PlainNames todo
  | .closing todo => PlainNames todo

def SearchRequest.Plain (request : SearchRequest Vec) : Prop :=
  NoSlash request.indexId ∧ ∀ s ∈ request.shardId, NoSlash s

def SearchStage.Plain : SearchStage Vec → Prop
  | .idle => True
  | .reading _ request shards => NoSlash request.indexId ∧ ∀ s ∈ shards, NoSlash s
  | .asking _ request calls _ => NoSlash request.indexId ∧ ∀ call ∈ calls, NoSlash call.1

/-- The ids that come with the event contain no slash. -/
def FleetEvent.Plain : FleetEvent Vec Time → Prop
  | .construct _ names => PlainNames names
  | .beginSearch _ request => request.Plain
  | _ => True

instance (names : List (String × String)) : Decidable (PlainNames names) :=
  inferInstanceAs (Decidable (∀ name ∈ names, NoSlash name.1 ∧ NoSlash name.2))

instance (request : SearchRequest Vec) : Decidable request.Plain :=
  inferInstanceAs (Decidable (_ ∧ ∀ s ∈ request.shardId, NoSlash s))

instance : ∀ e : FleetEvent Vec Time, Decidable e.Plain
  | .construct _ names => inferInstanceAs (Decidable (PlainNames names))
  | .beginSearch _ request => inferInstanceAs (Decidable request.Plain)
  | .destruct _ | .proceed _ | .crash _ | .readShard | .askNext _ | .endSearch => isTrue trivial

theorem Coordinator.searchers_updateWithIndexShardInfo [Zero Time] (i : String)
    (c : Coordinator Time) (s i' : String) : (updateWithIndexShardInfo i c s).searchers i' =
      if i' = i then (c.searchers i).insert s (c.etcd.listSearcherHosts i (some s))
      else c.searchers i' := by
  split
  · next heq => rw [heq, updateWithIndexShardInfo_searchers]
  · next hne =>
    unfold updateWithIndexShardInfo
    dsimp only
    split <;> simp [searchers, setStats, AList.lookup_insert_ne hne]

/-! ## What etcd says -/

namespace Fleet

open FleetEntry

variable [Zero Time] [Add Time] [Mul Time] [Div Time] [NatCast Time]

/-- Etcd holds the registry that the log tells of, and the counters of the coordinator are those of
the responses. -/
structure Kept (d : Doubles Time) (f : Fleet Vec Time) (r : Registry Time) : Prop where
  represents : Represents d f.coordinator.etcd r
  hosts : ∀ i s a, (i, s, a) ∈ r.hosts ↔ Listed i s a f.log
  times : ∀ i s, r.times (i, s) = storedTime (responses i s f.log)
  stats : ∀ i s, f.coordinator.stats i s = statsOf (responses i s f.log)
  table : ∀ i s, s ∈ f.coordinator.searchers i → NoSlash s
  members : ∀ a m, f.members a = some m → m.Plain
  handler : f.handler.Plain

namespace Kept

variable {d : Doubles Time} {f : Fleet Vec Time} {r : Registry Time}

theorem start (d : Doubles Time) (order : IterOrder (Σ _ : String, String)) :
    Kept d (start order : Fleet Vec Time) Registry.empty where
  represents := .empty d order
  hosts i s a := iff_of_false (Finset.notMem_empty _) not_since_nil
  times i s := rfl
  stats i s := rfl
  table i s hs := absurd hs (AList.notMem_empty s)
  members a m hm := by cases hm
  handler := trivial

theorem setMember (h : Kept d f r) (address : String) {member : Option Member}
    (hmember : ∀ m, member = some m → m.Plain) : Kept d (f.setMember address member) r where
  represents := h.represents
  hosts := h.hosts
  times := h.times
  stats := h.stats
  table := h.table
  members a m hm := by
    replace hm : Function.update f.members address member a = some m := hm
    by_cases ha : a = address
    · subst ha
      rw [Function.update_self] at hm
      exact hmember m hm
    · rw [Function.update_of_ne ha] at hm
      exact h.members a m hm
  handler := h.handler

theorem of_handler (h : Kept d f r) {handler : SearchStage Vec} (hhandler : handler.Plain)
    (answers : List (SearchRequest Vec × List Text)) :
    Kept d { f with handler := handler, answers := answers } r :=
  ⟨h.represents, h.hosts, h.times, h.stats, h.table, h.members, hhandler⟩

theorem joined (h : Kept d f r) {i s : String} (hi : NoSlash i) (hs : NoSlash s) (a : String) :
    Kept d (f.callEtcd d (.addSearcherHost i s a) (.joined i s a))
      (r.apply (.addSearcherHost i s a)) where
  represents := by
    have hcall : (RegistryCall.addSearcherHost i s a : RegistryCall Time).NoSlashes := ⟨hi, hs⟩
    exact h.represents.exec hcall
  hosts i' s' a' := by
    show (i', s', a') ∈ insert (i, s, a) r.hosts ↔ Listed i' s' a' (f.log ++ _)
    rw [Finset.mem_insert, listed_joined, h.hosts]
  times i' s' := by
    rw [callEtcd, responses_concat]
    exact (h.times i' s').trans (congrArg storedTime (List.append_nil _).symm)
  stats i' s' := by
    rw [callEtcd, responses_concat]
    exact (h.stats i' s').trans (congrArg statsOf (List.append_nil _).symm)
  table := h.table
  members := h.members
  handler := h.handler

theorem left (h : Kept d f r) {i s : String} (hi : NoSlash i) (hs : NoSlash s) (a : String) :
    Kept d (f.callEtcd d (.removeSearcherHost i s a) (.left i s a))
      (r.apply (.removeSearcherHost i s a)) where
  represents := by
    have hcall : (RegistryCall.removeSearcherHost i s a : RegistryCall Time).NoSlashes := ⟨hi, hs⟩
    exact h.represents.exec hcall
  hosts i' s' a' := by
    show (i', s', a') ∈ r.hosts.erase (i, s, a) ↔ Listed i' s' a' (f.log ++ _)
    rw [Finset.mem_erase, listed_left, h.hosts]
  times i' s' := by
    rw [callEtcd, responses_concat]
    exact (h.times i' s').trans (congrArg storedTime (List.append_nil _).symm)
  stats i' s' := by
    rw [callEtcd, responses_concat]
    exact (h.stats i' s').trans (congrArg statsOf (List.append_nil _).symm)
  table := h.table
  members := h.members
  handler := h.handler

theorem destruct (h : Kept d f r) (address : String) : Kept d (f.destruct address) r := by
  unfold Fleet.destruct
  split
  · next names hmember =>
    refine h.setMember address fun m hm => ?_
    cases hm
    exact (h.members address _ hmember).1
  · exact h

theorem proceed (h : Kept d f r) (address : String) :
    ∃ r', Kept d (f.proceed d address) r' := by
  unfold Fleet.proceed
  split
  · next names i s todo hmember =>
    obtain ⟨hnames, htodo⟩ := h.members address _ hmember
    obtain ⟨hi, hs⟩ := htodo (i, s) List.mem_cons_self
    refine ⟨_, (h.joined hi hs address).setMember address fun m hm => ?_⟩
    cases hm
    exact ⟨hnames, fun name hname => htodo name (List.mem_cons_of_mem _ hname)⟩
  · next i s todo hmember =>
    have htodo : PlainNames ((i, s) :: todo) := h.members address _ hmember
    obtain ⟨hi, hs⟩ := htodo (i, s) List.mem_cons_self
    refine ⟨_, (h.left hi hs address).setMember address fun m hm => ?_⟩
    cases hm
    exact fun name hname => htodo name (List.mem_cons_of_mem _ hname)
  · exact ⟨r, h.setMember address fun m hm => by cases hm⟩
  · exact ⟨r, h⟩

/-- The shards of a request contain no slash: the request names one, or they come from etcd. -/
theorem requestedShards (h : Kept d f r) {request : SearchRequest Vec} (hrequest : request.Plain)
    {shards : List String}
    (hshards : Coordinator.requestedShards f.coordinator.etcd request = .ok shards) :
    ∀ s ∈ shards, NoSlash s := by
  unfold Coordinator.requestedShards at hshards
  split at hshards
  · next s hs =>
    cases hshards
    intro s' hs'
    rw [List.mem_singleton.mp hs']
    exact hrequest.2 s hs
  · obtain ⟨listed, hlisted, -, hmem⟩ := h.represents.listShardIds_eq hrequest.1
    obtain rfl : listed = shards := Except.ok.inj (hlisted.symm.trans hshards)
    intro s hs
    rcases (hmem s).mp hs with ⟨a, ha⟩ | htime
    · exact (h.represents.free (.host request.indexId s a)
        (by rw [Registry.text, if_pos ha]; exact Option.some_ne_none _)).2
    · exact (h.represents.free (.time request.indexId s)
        (by rwa [Registry.text, ne_eq, Option.map_eq_none_iff])).2

theorem beginSearch (h : Kept d f r) (choices : Choices) {request : SearchRequest Vec}
    (hrequest : request.Plain) : Kept d (f.beginSearch choices request) r := by
  unfold Fleet.beginSearch
  split
  · next shards hidle hshards =>
    have hreading : (SearchStage.reading choices request shards).Plain :=
      ⟨hrequest.1, h.requestedShards hrequest hshards⟩
    exact h.of_handler hreading f.answers
  · exact h

theorem readShard (h : Kept d f r) : Kept d f.readShard r := by
  have hplain := h.handler
  unfold Fleet.readShard
  split
  · next choices request s shards hreading =>
    rw [hreading] at hplain
    obtain ⟨hi, hshards⟩ := hplain
    constructor
    · show Represents d (Coordinator.updateWithIndexShardInfo _ _ _).etcd r
      rw [Coordinator.updateWithIndexShardInfo_etcd]
      exact h.represents
    · exact h.hosts
    · exact h.times
    · intro i' s'
      show (Coordinator.updateWithIndexShardInfo _ _ _).stats i' s' = _
      rw [Coordinator.stats_updateWithIndexShardInfo]
      exact h.stats i' s'
    · intro i' s' hs'
      replace hs' : s' ∈ (Coordinator.updateWithIndexShardInfo _ _ _).searchers i' := hs'
      rw [Coordinator.searchers_updateWithIndexShardInfo] at hs'
      split at hs'
      · next heq =>
        rcases (AList.mem_insert _).mp hs' with rfl | hs'
        · exact hshards s' List.mem_cons_self
        · exact h.table _ s' hs'
      · exact h.table i' s' hs'
    · exact h.members
    · exact ⟨hi, fun s' hs' => hshards s' (List.mem_cons_of_mem _ hs')⟩
  · next choices request hreading =>
    rw [hreading] at hplain
    have hasking : (SearchStage.asking choices request
        (f.coordinator.targets choices.shardOrder request.indexId) []).Plain := by
      refine ⟨hplain.1, fun call hcall => ?_⟩
      obtain ⟨hosts, hhosts, -⟩ := Coordinator.mem_targets.mp hcall
      exact h.table request.indexId call.1 (AList.lookup_isSome.mp (hhosts ▸ rfl))
    exact h.of_handler hasking f.answers
  · exact h

section Ask

variable (request : SearchRequest Vec) {s : String} (a : String) (reply : Reply Time)
variable (searchResponses : List (List Text))

/-- The response is counted. -/
theorem ask_stats (h : Kept d f r) (i' s' : String) :
    (Coordinator.askSearcher d (fun _ _ _ => reply) request s
      (f.coordinator, searchResponses) a).1.stats i' s' = statsOf (responses i' s'
        (f.log ++ [.asked request.indexId s a (reply.answer.map fun _ => reply.respTime)])) := by
  rw [Coordinator.askSearcher_stats, responses_asked]
  by_cases hshard : i' = request.indexId ∧ s' = s
  · obtain ⟨rfl, rfl⟩ := hshard
    rw [if_pos ⟨rfl, rfl⟩, if_pos ⟨rfl, rfl⟩, statsOf_concat, h.stats]
  · rw [if_neg hshard, if_neg fun heq => hshard ⟨heq.1.symm, heq.2.symm⟩, h.stats]

/-- Etcd is changed by what the counters were before the call. -/
theorem ask_etcd (h : Kept d f r) {update : RegistryCall Time}
    (hupdate : Coordinator.updateStateIfNeeded request.indexId s a
      (statsOf (responses request.indexId s f.log)) = [update]) (hplain : update.NoSlashes) :
    Represents d (Coordinator.askSearcher d (fun _ _ _ => reply) request s
      (f.coordinator, searchResponses) a).1.etcd (r.apply update) := by
  show Represents d (f.coordinator.etcd.run d (Coordinator.updateStateIfNeeded request.indexId s a
    (f.coordinator.stats request.indexId s))) _
  rw [h.stats, hupdate]
  exact h.represents.exec hplain

/-- A call of a searcher: after a failure in the shard the host goes, otherwise the average is
stored. -/
theorem ask (h : Kept d f r) (hi : NoSlash request.indexId) (hs : NoSlash s)
    {handler : SearchStage Vec} (hhandler : handler.Plain) :
    ∃ r', Kept d { f with
      coordinator := (Coordinator.askSearcher d (fun _ _ _ => reply) request s
        (f.coordinator, searchResponses) a).1
      handler := handler
      log := f.log ++ [.asked request.indexId s a (reply.answer.map fun _ => reply.respTime)] }
      r' := by
  have hstats := h.ask_stats request (s := s) a reply searchResponses
  by_cases hfailed : none ∈ responses request.indexId s f.log
  · refine ⟨_, h.ask_etcd request a reply searchResponses
      (updateStateIfNeeded_of_mem _ _ _ hfailed) ⟨hi, hs⟩, fun i' s' a' => ?_, fun i' s' => ?_,
      hstats, h.table, h.members, hhandler⟩
    · show (i', s', a') ∈ r.hosts.erase (request.indexId, s, a) ↔ _
      rw [Finset.mem_erase, listed_asked, h.hosts]
      simp only [hfailed, and_true]
      exact and_comm
    · show r.times (i', s') = _
      rw [h.times, responses_asked]
      split
      · next hshard =>
        obtain ⟨rfl, rfl⟩ := hshard
        rw [storedTime_concat_of_mem hfailed]
      · rfl
  · refine ⟨_, h.ask_etcd request a reply searchResponses
      (updateStateIfNeeded_of_not_mem _ _ _ hfailed) ⟨hi, hs⟩, fun i' s' a' => ?_,
      fun i' s' => ?_, hstats, h.table, h.members, hhandler⟩
    · show (i', s', a') ∈ r.hosts ↔ _
      rw [listed_asked, h.hosts]
      simp only [hfailed, and_false, not_false_eq_true, and_true]
    · show Function.update r.times _ _ (i', s') = _
      rw [responses_asked]
      by_cases hshard : request.indexId = i' ∧ s = s'
      · obtain ⟨rfl, rfl⟩ := hshard
        rw [Function.update_self, if_pos ⟨rfl, rfl⟩, storedTime_concat_of_not_mem hfailed]
      · rw [if_neg hshard, Function.update_of_ne, h.times]
        exact fun heq => hshard ⟨(Prod.mk.inj heq).1.symm, (Prod.mk.inj heq).2.symm⟩

end Ask

theorem askNext (h : Kept d f r) (reply : Reply Time) : ∃ r', Kept d (f.askNext d reply) r' := by
  have hplain := h.handler
  unfold Fleet.askNext
  split
  · next choices request s a calls searchResponses hasking =>
    rw [hasking] at hplain
    obtain ⟨hi, hcalls⟩ := hplain
    have hs : NoSlash s := hcalls (s, a) List.mem_cons_self
    have hrest : (SearchStage.asking choices request calls (Coordinator.askSearcher d
        (fun _ _ _ => reply) request s (f.coordinator, searchResponses) a).2).Plain :=
      ⟨hi, fun call hcall => hcalls call (List.mem_cons_of_mem _ hcall)⟩
    exact h.ask request a reply searchResponses hi hs hrest
  · exact ⟨r, h⟩

theorem endSearch (h : Kept d f r) : Kept d f.endSearch r := by
  unfold Fleet.endSearch
  split
  · exact h.of_handler (show SearchStage.idle.Plain from trivial) _
  · exact h

theorem exec (h : Kept d f r) {event : FleetEvent Vec Time} (hplain : event.Plain) :
    ∃ r', Kept d (f.exec d event) r' := by
  cases event with
  | construct address names =>
    refine ⟨r, h.setMember address fun m hm => ?_⟩
    cases hm
    exact ⟨hplain, hplain⟩
  | destruct address => exact ⟨r, h.destruct address⟩
  | proceed address => exact h.proceed address
  | crash address => exact ⟨r, h.setMember address fun m hm => by cases hm⟩
  | beginSearch choices request => exact ⟨r, h.beginSearch choices hplain⟩
  | readShard => exact ⟨r, h.readShard⟩
  | askNext reply => exact h.askNext reply
  | endSearch => exact ⟨r, h.endSearch⟩

theorem run (h : Kept d f r) {events : List (FleetEvent Vec Time)}
    (hplain : ∀ e ∈ events, e.Plain) : ∃ r', Kept d (f.run d events) r' :=
  List.foldlRecOn (motive := fun f : Fleet Vec Time => ∃ r, Kept d f r) events (Fleet.exec d)
    ⟨r, h⟩ fun _ hf e he => hf.elim fun _ h => h.exec (hplain e he)

end Kept

theorem run_append (d : Doubles Time) (f : Fleet Vec Time)
    (events events' : List (FleetEvent Vec Time)) :
    f.run d (events ++ events') = (f.run d events).run d events' :=
  List.foldl_append

/-- After every run of searchers that come and go and of searches, with ids without slashes, etcd
lists a host for a shard, once, if and only if the host has registered for it and since then has
neither deregistered nor been asked when a call of the shard had already failed. -/
theorem host_listed_iff (d : Doubles Time) (order : IterOrder (Σ _ : String, String))
    (events : List (FleetEvent Vec Time)) (hplain : ∀ e ∈ events, e.Plain) (i s : String)
    (hi : NoSlash i) (hs : NoSlash s) :
    (((start order).run d events).coordinator.etcd.listSearcherHosts i (some s)).Nodup ∧
      ∀ a, a ∈ ((start order).run d events).coordinator.etcd.listSearcherHosts i (some s) ↔
        Since (· = joined i s a)
          (fun before entry => entry = left i s a ∨
            ∃ respTime, entry = asked i s a respTime ∧ none ∈ responses i s before)
          ((start order).run d events).log := by
  obtain ⟨r, h⟩ := (Kept.start d order).run hplain
  refine ⟨h.represents.nodup_listSearcherHosts hi hs, fun a => ?_⟩
  exact (h.represents.mem_listSearcherHosts hi hs).trans (h.hosts i s a)

/-- Two searchers of one shard, and a search in which the first call fails. -/
def firstSearch : List (FleetEvent Unit Nat) :=
  [.construct "a" [("docs", "east")], .proceed "a", .construct "b" [("docs", "east")],
    .proceed "b", .beginSearch plainChoices ⟨(), 1, "docs", none⟩, .readShard, .readShard,
    .askNext ⟨none, 0⟩, .askNext ⟨some [], 4⟩, .endSearch]

theorem host_listed_iff_first :
    ((start (.insertion _)).run strokes firstSearch).coordinator.etcd.listSearcherHosts "docs"
        (some "east") = ["b"] ∧
      Since (· = joined "docs" "east" "b")
        (fun before entry => entry = left "docs" "east" "b" ∨
          ∃ respTime, entry = asked "docs" "east" "b" respTime ∧
            none ∈ responses "docs" "east" before)
        ((start (.insertion _)).run strokes firstSearch).log := by
  have hlisted : ((start (.insertion _)).run strokes
      firstSearch).coordinator.etcd.listSearcherHosts "docs" (some "east") = ["b"] := by
    decide +kernel
  refine ⟨hlisted, ?_⟩
  have hiff := (host_listed_iff strokes (.insertion _) firstSearch (by decide) "docs" "east"
    (by decide) (by decide)).2 "b"
  exact hiff.mp (hlisted ▸ List.mem_singleton_self _)

/-- After every such run, the response time that etcd has for a shard is the average of the
responses before the last call that found no failure: one call behind, and unchanged since the
first failure. -/
theorem response_time_stored (d : Doubles Time) (order : IterOrder (Σ _ : String, String))
    (events : List (FleetEvent Vec Time)) (hplain : ∀ e ∈ events, e.Plain) (i s : String)
    (hi : NoSlash i) (hs : NoSlash s) :
    ((start order).run d events).coordinator.etcd.getSearcherAverageResponseTime d i s =
      if responses i s ((start order).run d events).log = [] then d.zero
      else d.stod (d.toString (statsOf ((responses i s
        ((start order).run d events).log).dropLast.takeWhile
          Option.isSome)).averageResponseTime) := by
  obtain ⟨r, h⟩ := (Kept.start d order).run hplain
  rw [h.represents.getSearcherAverageResponseTime_eq hi hs, h.times, storedTime]
  split
  · next hnone =>
    split at hnone
    · next hempty => rw [if_pos hempty]
    · cases hnone
  · next time hsome =>
    split at hsome
    · cases hsome
    · next hne =>
      cases hsome
      rw [if_neg hne]

/-- A search that asks one host. -/
def searchOnce (reply : Reply Nat) : List (FleetEvent Unit Nat) :=
  [.beginSearch plainChoices ⟨(), 1, "docs", none⟩, .readShard, .readShard, .askNext reply,
    .endSearch]

/-- The third of four calls fails: the average of the first two is what stays. -/
theorem response_time_stored_behind :
    ((start (.insertion _)).run strokes ([.construct "a" [("docs", "east")], .proceed "a"] ++
      searchOnce ⟨some [], 4⟩ ++ searchOnce ⟨some [], 8⟩ ++ searchOnce ⟨none, 0⟩ ++
      searchOnce ⟨some [], 9⟩)).coordinator.etcd.getSearcherAverageResponseTime strokes "docs"
        "east" = 4 := by
  rw [response_time_stored strokes (.insertion _) _ (by decide) "docs" "east" (by decide)
    (by decide)]
  decide +kernel

end Fleet

/-! ## Shards with a failure -/

namespace Fleet

open FleetEntry

/-- The handler has the host still to ask for the shard. -/
def Pending (i s a : String) (f : Fleet Vec Time) : Prop :=
  match f.handler with
  | .idle => False
  | .reading _ request _ => request.indexId = i ∧
    ∃ hosts, (f.coordinator.searchers i).lookup s = some hosts ∧ a ∈ hosts
  | .asking _ request calls _ => request.indexId = i ∧ (s, a) ∈ calls

/-- A call of the shard has failed, and of the hosts that were listed when the log had `n` entries
those that still are will be asked. -/
structure Draining (i s : String) (n : Nat) (f : Fleet Vec Time) : Prop where
  long : n ≤ f.log.length
  failed : none ∈ responses i s f.log
  pending : (∀ a, joined i s a ∉ f.log.drop n) → ∀ a, Listed i s a f.log → f.Pending i s a

namespace Draining

variable {d : Doubles Time} {f : Fleet Vec Time} {r : Registry Time} {i s : String} {n : Nat}

theorem setMember (h : Draining i s n f) (address : String) (member : Option Member) :
    Draining i s n (f.setMember address member) :=
  ⟨h.long, h.failed, h.pending⟩

/-- One entry more in the log. -/
theorem entry (h : Draining i s n f) {f' : Fleet Vec Time} {e : FleetEntry Time}
    (hlog : f'.log = f.log ++ [e])
    (hpending : ∀ a, Listed i s a (f.log ++ [e]) → f.Pending i s a → f'.Pending i s a) :
    Draining i s n f' := by
  constructor
  · rw [hlog, List.length_append]
    exact Nat.le_add_right_of_le h.long
  · rw [hlog, responses_concat]
    exact List.mem_append_left _ h.failed
  · intro hnone a hlisted
    rw [hlog, List.drop_append_of_le_length h.long] at hnone
    rw [hlog] at hlisted
    refine hpending a hlisted (h.pending (fun a' ha' => hnone a' (List.mem_append_left _ ha')) a ?_)
    rcases since_concat.mp hlisted with rfl | ⟨hlisted, -⟩
    · exact absurd (List.mem_append_right _ List.mem_cons_self) (hnone a)
    · exact hlisted

theorem callEtcd (h : Draining i s n f) (call : RegistryCall Time) (e : FleetEntry Time) :
    Draining i s n (f.callEtcd d call e) :=
  h.entry rfl fun _ _ ha => ha

theorem proceed (h : Draining i s n f) (address : String) :
    Draining i s n (f.proceed d address) := by
  unfold Fleet.proceed
  split
  · exact (h.callEtcd _ _).setMember address _
  · exact (h.callEtcd _ _).setMember address _
  · exact h.setMember address none
  · exact h

theorem endSearch (h : Draining i s n f) : Draining i s n f.endSearch := by
  unfold Fleet.endSearch
  split
  · next choices request searchResponses hasking =>
    refine ⟨h.long, h.failed, fun hnone a hlisted => ?_⟩
    have ha := h.pending hnone a hlisted
    unfold Pending at ha
    rw [hasking] at ha
    cases ha.2
  · exact h

variable [Zero Time] [Add Time] [Mul Time] [Div Time] [NatCast Time]

/-- The hosts of the shard have just been read. -/
theorem first (hkept : Kept d f r) {choices : Choices} {request : SearchRequest Vec}
    {shards : List String} (hreading : f.handler = .reading choices request (s :: shards))
    (hi : NoSlash request.indexId) (hs : NoSlash s)
    (hfailed : none ∈ responses request.indexId s f.log) :
    Draining request.indexId s f.log.length f.readShard := by
  unfold Fleet.readShard
  rw [hreading]
  refine ⟨Nat.le_refl _, hfailed, fun _ a hlisted => ⟨rfl, ?_⟩⟩
  show ∃ hosts, ((Coordinator.updateWithIndexShardInfo _ _ _).searchers _).lookup s = _ ∧ _
  rw [Coordinator.updateWithIndexShardInfo_searchers]
  refine ⟨_, AList.lookup_insert _, ?_⟩
  exact (hkept.represents.mem_listSearcherHosts hi hs).mpr ((hkept.hosts _ s a).mpr hlisted)

/-- The hosts that are read from etcd are those listed. -/
theorem readShard (h : Draining i s n f) (hkept : Kept d f r) (hi : NoSlash i) (hs : NoSlash s) :
    Draining i s n f.readShard := by
  have hpending := h.pending
  unfold Pending at hpending
  unfold Fleet.readShard
  split
  · next choices request s' shards hreading =>
    simp only [hreading] at hpending
    refine ⟨h.long, h.failed, fun hnone a hlisted => ?_⟩
    obtain ⟨rfl, hosts, hhosts, ha⟩ := hpending hnone a hlisted
    refine ⟨rfl, ?_⟩
    show ∃ hosts, ((Coordinator.updateWithIndexShardInfo _ _ _).searchers _).lookup s = _ ∧ _
    rw [Coordinator.updateWithIndexShardInfo_searchers]
    by_cases hshard : s = s'
    · subst hshard
      refine ⟨_, AList.lookup_insert _, ?_⟩
      exact (hkept.represents.mem_listSearcherHosts hi hs).mpr ((hkept.hosts _ s a).mpr hlisted)
    · exact ⟨hosts, (AList.lookup_insert_ne hshard).trans hhosts, ha⟩
  · next choices request hreading =>
    simp only [hreading] at hpending
    refine ⟨h.long, h.failed, fun hnone a hlisted => ?_⟩
    obtain ⟨rfl, hosts, hhosts, ha⟩ := hpending hnone a hlisted
    exact ⟨rfl, Coordinator.mem_targets.mpr ⟨hosts, hhosts, ha⟩⟩
  · exact h

/-- A host of the shard that is asked goes. -/
theorem askNext (h : Draining i s n f) (reply : Reply Time) :
    Draining i s n (f.askNext d reply) := by
  unfold Fleet.askNext
  split
  · next choices request s' a' calls searchResponses hasking =>
    refine h.entry rfl fun a hlisted ha => ?_
    unfold Pending at ha
    rw [hasking] at ha
    obtain ⟨rfl, ha⟩ := ha
    refine ⟨rfl, (List.mem_cons.mp ha).resolve_left fun heq => ?_⟩
    obtain ⟨rfl, rfl⟩ := Prod.mk.inj heq
    exact ((listed_asked ..).mp hlisted).2 ⟨rfl, h.failed⟩
  · exact h

theorem exec (h : Draining i s n f) (hkept : Kept d f r) (hi : NoSlash i) (hs : NoSlash s)
    {event : FleetEvent Vec Time}
    (hevent : ∀ choices request, event ≠ .beginSearch choices request) :
    Draining i s n (f.exec d event) := by
  cases event with
  | construct address names => exact h.setMember address _
  | destruct address =>
    show Draining i s n (f.destruct address)
    unfold Fleet.destruct
    split
    · exact h.setMember address _
    · exact h
  | proceed address => exact h.proceed address
  | crash address => exact h.setMember address none
  | beginSearch choices request => exact absurd rfl (hevent choices request)
  | readShard => exact h.readShard hkept hi hs
  | askNext reply => exact h.askNext reply
  | endSearch => exact h.endSearch

theorem run (h : Draining i s n f) (hkept : Kept d f r) (hi : NoSlash i) (hs : NoSlash s)
    {events : List (FleetEvent Vec Time)} (hplain : ∀ e ∈ events, e.Plain)
    (hevents : ∀ e ∈ events, ∀ choices request, e ≠ .beginSearch choices request) :
    Draining i s n (f.run d events) := by
  refine (List.foldlRecOn (motive := fun f : Fleet Vec Time => (∃ r, Kept d f r) ∧
    Draining i s n f) events (Fleet.exec d) ⟨⟨r, hkept⟩, h⟩ fun f hf e he => ?_).2
  obtain ⟨⟨r, hkept⟩, hdraining⟩ := hf
  exact ⟨hkept.exec (hplain e he), hdraining.exec hkept hi hs (hevents e he)⟩

end Draining

variable [Zero Time] [Add Time] [Mul Time] [Div Time] [NatCast Time]

/-- When a search reads the hosts of a shard of which some call has failed before, and no host
registers for the shard until the search has ended, then etcd lists no host for the shard any more,
whatever the calls came to and whatever else happened meanwhile. -/
theorem failed_shard_drained (d : Doubles Time) (order : IterOrder (Σ _ : String, String))
    (before after : List (FleetEvent Vec Time)) (hbefore : ∀ e ∈ before, e.Plain)
    (hafter : ∀ e ∈ after, e.Plain) (choices : Choices) (request : SearchRequest Vec) (s : String)
    (shards : List String)
    (hreading : ((start order).run d before).handler = .reading choices request (s :: shards))
    (hfailed : none ∈ responses request.indexId s ((start order).run d before).log)
    (hsearch : ∀ e ∈ after, ∀ choices request, e ≠ .beginSearch choices request)
    (hidle : ((start order).run d (before ++ .readShard :: after)).handler = .idle)
    (hjoined : ∀ a, joined request.indexId s a ∉
      ((start order).run d (before ++ .readShard :: after)).log.drop
        ((start order).run d before).log.length) :
    ((start order).run d (before ++ .readShard :: after)).coordinator.etcd.listSearcherHosts
      request.indexId (some s) = [] := by
  obtain ⟨r, hkept⟩ := (Kept.start d order).run hbefore
  have hplain := hkept.handler
  rw [hreading] at hplain
  have hi : NoSlash request.indexId := hplain.1
  have hs : NoSlash s := hplain.2 s List.mem_cons_self
  have hfirst := Draining.first hkept hreading hi hs hfailed
  rw [run_append] at hidle hjoined ⊢
  have hdraining := hfirst.run hkept.readShard hi hs hafter hsearch
  obtain ⟨r', hend⟩ := hkept.readShard.run hafter
  refine List.eq_nil_iff_forall_not_mem.mpr fun a ha => ?_
  have hlisted := (hend.hosts _ s a).mp ((hend.represents.mem_listSearcherHosts hi hs).mp ha)
  have hpending := hdraining.pending hjoined a hlisted
  unfold Pending at hpending
  rw [show (Fleet.run d (readShard _) after).handler = .idle from hidle] at hpending
  exact hpending

/-- The next search asks the host that was left, and a third searcher comes too late to be read. -/
theorem failed_shard_drained_second :
    ((start (.insertion _)).run strokes ((firstSearch ++
        [.beginSearch plainChoices ⟨(), 1, "docs", none⟩]) ++ .readShard ::
      [.readShard, .construct "c" [("docs", "west")], .proceed "c", .askNext ⟨some [], 4⟩,
        .endSearch])).coordinator.etcd.listSearcherHosts "docs" (some "east") = [] := by
  have hjoined : ∀ a : String, (joined "docs" "east" a : FleetEntry Nat) ∉
      [joined "docs" "west" "c", asked "docs" "east" "b" (some 4)] := by
    simp
  exact failed_shard_drained strokes (.insertion _) _ _ (by decide) (by decide) plainChoices
    ⟨(), 1, "docs", none⟩ "east" [] rfl (by decide +kernel) (by simp) rfl hjoined

/-! ## Searches without interruption -/

section Uninterrupted

variable (d : Doubles Time)

/-- The hosts of all shards are read. -/
theorem run_readShard (f : Fleet Vec Time) (choices : Choices) (request : SearchRequest Vec)
    (shards : List String) (h : f.handler = .reading choices request shards) :
    f.run d (List.replicate shards.length .readShard) = { f with
      coordinator := shards.foldl (Coordinator.updateWithIndexShardInfo request.indexId)
        f.coordinator
      handler := .reading choices request [] } := by
  induction shards generalizing f with
  | nil =>
    show f = _
    rw [List.foldl_nil, ← h]
  | cons s shards ih =>
    rw [List.length_cons, List.replicate_succ, List.foldl_cons]
    show (f.readShard).run d _ = _
    have hread : f.readShard = { f with
        coordinator := Coordinator.updateWithIndexShardInfo request.indexId f.coordinator s
        handler := .reading choices request shards } := by
      unfold readShard
      rw [h]
    rw [ih f.readShard (by rw [hread]), hread]

/-- All clients are asked. -/
theorem run_askNext (net : Nat → String → SearchRequest Vec → Reply Time) (f : Fleet Vec Time)
    (choices : Choices) (request : SearchRequest Vec) (calls : List (String × String))
    (searchResponses : List (List Text))
    (h : f.handler = .asking choices request calls searchResponses) :
    ∃ events log, f.run d events = { f with
      coordinator := (calls.foldl (fun s target => Coordinator.askSearcher d net request target.1 s
        target.2) (f.coordinator, searchResponses)).1
      handler := .asking choices request [] (calls.foldl (fun s target =>
        Coordinator.askSearcher d net request target.1 s target.2)
          (f.coordinator, searchResponses)).2
      log := log } := by
  induction calls generalizing f searchResponses with
  | nil =>
    refine ⟨[], f.log, ?_⟩
    show f = _
    rw [List.foldl_nil, ← h]
  | cons call calls ih =>
    obtain ⟨s, a⟩ := call
    have hask : f.askNext d (net f.coordinator.contacts.length a request) = { f with
        coordinator := (Coordinator.askSearcher d net request s
          (f.coordinator, searchResponses) a).1
        handler := .asking choices request calls (Coordinator.askSearcher d net request s
          (f.coordinator, searchResponses) a).2
        log := (f.askNext d (net f.coordinator.contacts.length a request)).log } := by
      unfold askNext
      rw [h]
      rfl
    obtain ⟨events, log, hrun⟩ := ih (f.askNext d (net f.coordinator.contacts.length a request))
      _ (by rw [hask])
    refine ⟨.askNext (net f.coordinator.contacts.length a request) :: events, log, ?_⟩
    show (f.askNext d _).run d events = _
    rw [hrun, hask]
    rfl

/-- A search that nothing interrupts is `ProcessSearchRequest`. -/
theorem run_search (net : Nat → String → SearchRequest Vec → Reply Time) (f : Fleet Vec Time)
    (hidle : f.handler = .idle) (choices : Choices) (request : SearchRequest Vec)
    {answer : List Text} {c : Coordinator Time}
    (h : f.coordinator.processSearchRequest d net choices request = .ok (answer, c)) :
    ∃ events log, f.run d events = { f with
      coordinator := c
      answers := f.answers ++ [(request, answer)]
      log := log } := by
  cases hshards : Coordinator.requestedShards f.coordinator.etcd request with
  | error fault =>
    rw [Coordinator.processSearchRequest_of_error d net hshards] at h
    cases h
  | ok shards =>
    rw [Coordinator.processSearchRequest_of_ok d net hshards, Coordinator.askSearchers_eq] at h
    cases h
    have hbegin : f.beginSearch choices request =
        { f with handler := .reading choices request shards } := by
      unfold beginSearch
      rw [hidle, hshards]
    have hread := run_readShard d (f.beginSearch choices request) choices request shards
      (by rw [hbegin])
    obtain ⟨asks, log, hasks⟩ := run_askNext d net
      ((f.beginSearch choices request).run d (List.replicate shards.length .readShard)).readShard
      choices request _ [] (by rw [hread]; rfl)
    refine ⟨.beginSearch choices request :: (List.replicate shards.length .readShard ++
      .readShard :: (asks ++ [.endSearch])), log, ?_⟩
    show (f.beginSearch choices request).run d _ = _
    rw [run_append]
    show Fleet.run d (readShard _) _ = _
    rw [run_append, hasks]
    rw [hread, hbegin, hidle]
    rfl

end Uninterrupted

end Fleet

end Vecodex
