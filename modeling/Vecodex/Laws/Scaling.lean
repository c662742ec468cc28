import Vecodex.App.Scaling
import Vecodex.Laws.Replication

/-!
# What a searcher that starts late holds

A searcher starts with empty indexes, and the writer sends a segment once, when it is sealed, and
again only after it has taken the rows of a neighbour. So a searcher that starts after the first
calls of a shard lacks the documents of the segments that were sent before, until they are merged.

What it holds follows from two facts about an index that grows. A segment that was handed over
since a certain call and has left the levels was absorbed by one that was handed over after it
(`Relayed`). And a segment does not change after the last call that hands it over, so whenever this
call is delivered the searcher gets all the rows the segment has in the end.

`late_searcher_holds` says which rows these are, for a searcher that starts, or starts again, at any
point of a run.
-/

namespace Vecodex

open Lib

variable {B Vec Dist Time : Type}

/-! ## Segments that were handed over -/

section Pending

variable {rt : Runtime B Text Vec Dist} {base : StoringBase rt.faiss} {w w' : Work B Text}
variable {rows : List (Text × Vec)}

/-- A pending segment was pending before, as it is, or a call to come hands it over. -/
theorem Growth.pending_cases (hgrowth : Growth rt rows w w') (hshape : Shape w)
    (hfeed : Feed rt w) {n p : Nat} (hn : n ≤ w.index.calls.length) (h : w'.Pending n p) :
    w.Pending n p ∧ w'.index.seg p = w.index.seg p ∨
      p ∈ w'.index.current ∧ ∀ m, w'.Pending m p := by
  cases hgrowth with
  | appended _ rows =>
    refine Or.inl ⟨h, ?_⟩
    show (w.index.appendLast rt rows).seg p = _
    rw [Index.appendLast_seg, if_neg (hfeed.pending_sealed p (h.mono (Nat.zero_le n))).2]
  | quiet heap _ _ _ _ _ pending => exact Or.inl ⟨(pending n hn p).mp h, quiet_seg heap p⟩
  | sealed heap _ _ current fresh calls inserted =>
    rcases (sealed_pending fresh calls inserted n p).mp h with hold | hlast
    · have halloc := (hfeed.pending_sealed p (hold.mono (Nat.zero_le n))).1
      exact Or.inl ⟨hold, (sealed_seg heap p).trans (if_neg (Nat.ne_of_lt halloc))⟩
    · exact Or.inr ⟨(current p).mpr (Or.inr hlast),
        fun m => (sealed_pending fresh calls inserted m p).mpr (Or.inr hlast)⟩
  | @joined _ _ j a b reported left right index fresh inserted =>
    by_cases hpa : p = a
    · obtain ⟨-, -, ha, -⟩ := hshape.join_cells rt left right
      refine Or.inr ⟨?_, fun m => (joined_pending reported index fresh inserted m p).mpr
        (Or.inr hpa)⟩
      rw [index, hpa]
      exact ha
    · have hold := (joined_pending reported index fresh inserted n p).mp h
      refine Or.inl ⟨hold.resolve_right hpa, ?_⟩
      rw [index, Index.join_seg, if_neg hpa]

/-- A segment stays in the levels, or one that is to be handed over has its rows. -/
theorem Growth.current_moves (hgrowth : Growth rt rows w w') (hshape : Shape w)
    (halign : AlignedAll base w) {p : Nat} (hp : p ∈ w.index.current) {x : Text} {v : Vec}
    (hholds : (w.index.seg p).index.Holds base x v) :
    p ∈ w'.index.current ∨ ∃ q ∈ w'.index.current, (∀ m, w'.Pending m q) ∧
      (w'.index.seg q).index.Holds base x v := by
  cases hgrowth with
  | appended => exact Or.inl hp
  | quiet _ _ _ current => exact Or.inl ((current p).mpr hp)
  | sealed _ _ _ current => exact Or.inl ((current p).mpr (Or.inl hp))
  | @joined _ _ j a b reported left right index fresh inserted =>
    obtain ⟨-, -, ha, -⟩ := hshape.join_cells rt left right
    by_cases hpb : p = b
    · subst hpb
      refine Or.inr ⟨a, index ▸ ha, fun m =>
        (joined_pending reported index fresh inserted m a).mpr (Or.inr rfl), ?_⟩
      rw [index]
      exact (halign.join_holds hshape _ _ _ _ a x v).mpr (Or.inr ⟨rfl, hholds⟩)
    · rw [index]
      exact Or.inl ((hshape.mem_join_current rt left right).mpr ⟨hp, hpb⟩)

/-- The rows in the levels that were handed over since a call stay there. -/
theorem Growth.pending_levels (hgrowth : Growth rt rows w w') (hshape : Shape w)
    (halign : AlignedAll base w) {n : Nat} (hn : n ≤ w.index.calls.length) {x : Text} {v : Vec}
    (h : ∃ p ∈ w.index.current, w.Pending n p ∧ (w.index.seg p).index.Holds base x v) :
    ∃ p ∈ w'.index.current, w'.Pending n p ∧ (w'.index.seg p).index.Holds base x v := by
  obtain ⟨p, hp, hpending, hholds⟩ := h
  rcases hgrowth.current_moves hshape halign hp hholds with hkept | ⟨q, hq, hmoved, hrow⟩
  · exact ⟨p, hkept, hgrowth.pending_mono hn hpending,
      hgrowth.holds_mono hshape halign (hshape.current_alloc p hp) hholds⟩
  · exact ⟨q, hq, hmoved n, hrow⟩

theorem Growth.calls_le_succ (hgrowth : Growth rt rows w w') :
    w'.index.calls.length ≤ w.index.calls.length + 1 := by
  cases hgrowth with
  | appended => exact Nat.le_succ _
  | quiet _ _ _ _ _ calls =>
    rcases calls with hcalls | ⟨c, hcalls, -⟩
    · rw [hcalls]
      exact Nat.le_succ _
    · rw [hcalls, List.length_append, List.length_singleton]
  | sealed _ _ _ _ _ calls => rw [calls]; exact Nat.le_succ _
  | joined _ _ _ index => rw [index]; exact Nat.le_succ _

end Pending

/-- The rows of a segment that was handed over since some call are in the levels, in segments handed
over since. -/
structure Relayed {rt : Runtime B Text Vec Dist} (base : StoringBase rt.faiss) (w : Work B Text) :
    Prop where
  aligned : AlignedAll base w
  relayed : ∀ n ≤ w.index.calls.length, ∀ q, w.Pending n q → ∀ x v,
    (w.index.seg q).index.Holds base x v →
      ∃ p ∈ w.index.current, w.Pending n p ∧ (w.index.seg p).index.Holds base x v

namespace Relayed

variable {rt : Runtime B Text Vec Dist} {base : StoringBase rt.faiss} {platform : Platform B}
variable {w w' : Work B Text}

theorem create (base : StoringBase rt.faiss) (config : IndexConfig) (draws : Nat) :
    Relayed base (Index.create rt config true draws : Index B Text).rest where
  aligned := .create base config true draws
  relayed n _ q hq := by
    rcases (Work.pending_end (Nat.zero_le n)).mp hq with hq | hq <;> cases hq

theorem drawn {idx : Index B Text} (h : Relayed base idx.rest) (draws : Nat) :
    Relayed base ({ idx with draws := draws } : Index B Text).rest :=
  ⟨h.aligned, h.relayed⟩

theorem grow (h : Relayed base w) (hgrown : Grown rt platform w) (hshape : Shape w')
    (hfeed : Feed rt w') {rows : List (Text × Vec)} (hgrowth : Growth rt rows w w') :
    Relayed base w' := by
  refine ⟨h.aligned.grow hgrowth, fun n hn q hq x v hholds => ?_⟩
  by_cases hle : n ≤ w.index.calls.length
  · rcases hgrowth.pending_cases hgrown.shape hgrown.feed hle hq with
      ⟨hpending, hseg⟩ | ⟨hcurrent, hnew⟩
    · rw [hseg] at hholds
      exact hgrowth.pending_levels hgrown.shape h.aligned hle
        (h.relayed n hle q hpending x v hholds)
    · exact ⟨q, hcurrent, hnew n, hholds⟩
  · -- behind the call that was just made nothing has left the levels
    have hend : w'.index.calls.length ≤ n := hgrowth.calls_le_succ.trans (by omega)
    refine ⟨q, ?_, hq, hholds⟩
    rcases (Work.pending_end hend).mp hq with hq | hq
    · exact hfeed.fresh_current q hq
    · exact hshape.inserted_current q hq

end Relayed

/-! ## Delivered since the start -/

/-- The rows of a replica that started when `first` calls of an index had been delivered, and the
calls that are still to be delivered to it. -/
structure ServedSince {rt : Runtime B Text Vec Dist} (base : StoringBase rt.faiss)
    (replica : Text → Vec → Prop) (first n : Nat) (w : Work B Text) : Prop where
  started : first ≤ n
  sound : ∀ x v, replica x v →
    ∃ p ∈ w.index.current, w.Pending first p ∧ (w.index.seg p).index.Holds base x v
  complete : ∀ p ∈ w.index.current, w.Pending first p → ∀ x v,
    (w.index.seg p).index.Holds base x v →
      replica x v ∨ ∃ q, w.Pending n q ∧ (w.index.seg q).index.Holds base x v

namespace ServedSince

variable {rt : Runtime B Text Vec Dist} {base : StoringBase rt.faiss} {platform : Platform B}
variable {replica replica' : Text → Vec → Prop} {first n : Nat} {w w' : Work B Text}

/-- A replica that starts. -/
theorem start (hnone : ∀ x v, ¬ replica x v) (n : Nat) (w : Work B Text) :
    ServedSince base replica n n w :=
  ⟨Nat.le_refl n, fun x v h => absurd h (hnone x v), fun p _ hpending _ _ hholds =>
    Or.inr ⟨p, hpending, hholds⟩⟩

theorem congr (h : ServedSince base replica first n w)
    (hsame : ∀ x v, replica' x v ↔ replica x v) : ServedSince base replica' first n w :=
  ⟨h.started, fun x v hreplica => h.sound x v ((hsame x v).mp hreplica),
    fun p hp hpending x v hholds =>
      (h.complete p hp hpending x v hholds).imp_left (hsame x v).mpr⟩

theorem drawn {idx : Index B Text} (h : ServedSince base replica first n idx.rest) (draws : Nat) :
    ServedSince base replica first n ({ idx with draws := draws } : Index B Text).rest :=
  ⟨h.started, h.sound, h.complete⟩

theorem grow (h : ServedSince base replica first n w) (hgrown : Grown rt platform w)
    (halign : AlignedAll base w) (hn : n ≤ w.index.calls.length) {rows : List (Text × Vec)}
    (hgrowth : Growth rt rows w w') : ServedSince base replica first n w' := by
  have hfirst : first ≤ w.index.calls.length := h.started.trans hn
  refine ⟨h.started, fun x v hreplica =>
    hgrowth.pending_levels hgrown.shape halign hfirst (h.sound x v hreplica), ?_⟩
  intro p hp hpending x v hholds
  rcases hgrowth.pending_cases hgrown.shape hgrown.feed hfirst hpending with
    ⟨hold, hseg⟩ | ⟨-, hnew⟩
  · rcases hgrowth.current_cases hgrown.shape hp with ⟨hcurrent, -⟩ | hnew
    · rw [hseg] at hholds
      refine (h.complete p hcurrent hold x v hholds).imp_right ?_
      rintro ⟨q, hq, hrow⟩
      have halloc := (hgrown.feed.pending_sealed q (hq.mono (Nat.zero_le n))).1
      exact ⟨q, hgrowth.pending_mono hn hq, hgrowth.holds_mono hgrown.shape halign halloc hrow⟩
    · exact Or.inr ⟨p, hnew n, hholds⟩
  · exact Or.inr ⟨p, hnew n, hholds⟩

/-- A call is delivered: the replica takes the segments it hands over as they are now. -/
theorem deliver (h : ServedSince base replica first n w) (hrelayed : Relayed base w) {c : Call}
    (hc : w.index.calls[n]? = some c)
    (hreplica : ∀ x v, replica' x v ↔
      replica x v ∨ ∃ q ∈ c.inserted, (w.index.seg q).index.Holds base x v) :
    ServedSince base replica' first (n + 1) w := by
  obtain ⟨hn, -⟩ := List.getElem?_eq_some_iff.mp hc
  refine ⟨h.started.trans (Nat.le_succ n), fun x v hshows => ?_, ?_⟩
  · rcases (hreplica x v).mp hshows with hold | ⟨q, hq, hholds⟩
    · exact h.sound x v hold
    · have hpending : w.Pending n q := (Work.pending_cons hc).mpr (Or.inl hq)
      exact hrelayed.relayed first (h.started.trans hn.le) q (hpending.mono h.started) x v hholds
  · intro p hp hpending x v hholds
    rcases h.complete p hp hpending x v hholds with hold | ⟨q, hq, hrow⟩
    · exact Or.inl ((hreplica x v).mpr (Or.inl hold))
    · rcases (Work.pending_cons hc).mp hq with hq | hq
      · exact Or.inl ((hreplica x v).mpr (Or.inr ⟨q, hq, hrow⟩))
      · exact Or.inr ⟨q, hq, hrow⟩

/-- When all calls are delivered, the replica has the rows of the segments in the levels that were
handed over since it started. -/
theorem settled {idx : Index B Text} (h : ServedSince base replica first n idx.rest)
    (hn : idx.calls.length ≤ n) (x : Text) (v : Vec) :
    replica x v ↔ ∃ p ∈ idx.current, (∃ c ∈ idx.calls.drop first, p ∈ c.inserted) ∧
      (idx.seg p).index.Holds base x v := by
  have hrest : ∀ m p, idx.rest.Pending m p ↔ ∃ c ∈ idx.calls.drop m, p ∈ c.inserted := by
    intro m p
    refine or_iff_left ?_
    rintro (hp | hp) <;> cases hp
  constructor
  · intro hreplica
    obtain ⟨p, hp, hpending, hholds⟩ := h.sound x v hreplica
    exact ⟨p, hp, (hrest first p).mp hpending, hholds⟩
  · rintro ⟨p, hp, hpending, hholds⟩
    refine (h.complete p hp ((hrest first p).mpr hpending) x v hholds).resolve_right ?_
    rintro ⟨q, hq, -⟩
    rcases (Work.pending_end hn).mp hq with hq | hq <;> cases hq

end ServedSince

/-! ## Runs -/

/-- The induction over runs in which searchers come and go, from any state. The first argument of
`P` counts the events. -/
theorem System.runScaling_counts [LT Time] [DecidableLT Time] {rt : Runtime B Text Vec Dist}
    {platform : Platform B} {events : List (ScalingEvent Vec Time)} {st st' : System B} {k : Nat}
    {P : Nat → System B → Prop} (hrun : st.runScaling rt platform events = .ok st')
    (hlater : ∀ k u, P k u → P (k + 1) u)
    (htable : ∀ e, .event e ∈ events → ∀ k u w', u.writer.Linked → P k u →
      Writer.TableStep rt e.env u.writer w' → P k { u with writer := w' })
    (hgauge : ∀ k u gauge, P k u → P k { u with writer := { u.writer with vectorsCount := gauge } })
    (hedit : ∀ env request, .event (.write env request) ∈ events → ∀ k u o index,
      u.writer.Linked → P k u → u.writer.objects.Alloc o →
      ({ (u.writer.objects.get o).index with draws := u.writer.draws } : Index B Text).exec rt
        request.edit.op = .ok index → P (k + 1) { u with writer := u.writer.settle o index })
    (hdeliver : ∀ env, .event (.task env) ∈ events → ∀ k u task tasks searchers,
      u.writer.Linked → P k u → u.writer.callbackRunner = task :: tasks →
      (env.listSearcherHosts task.indexId task.shardId).foldlM
        (updateIndex platform
          (task.transfer rt platform (u.writer.objects.get task.object).index u.store)
          (task.request (u.writer.objects.get task.object).index)) u.searchers = .ok searchers →
      P (k + 1) (u.delivered rt platform task tasks searchers))
    (hrestart : ∀ host configs, .restart host configs ∈ events → ∀ k u, P k u →
      P (k + 1) (u.restart rt host configs))
    (hlinked : st.writer.Linked) (hP : P k st) :
    st'.writer.Linked ∧ P (k + events.length) st' := by
  refine foldlM_counts (P := fun k u => u.writer.Linked ∧ P k u) ?_ ⟨hlinked, hP⟩ hrun
  rintro k u v e he ⟨hlinked, hP⟩ hstep
  cases e with
  | event e =>
    exact System.exec_counts hstep hlater (htable e he) hgauge
      (fun env request heq => hedit env request (heq ▸ he))
      (fun env heq => hdeliver env (heq ▸ he)) hlinked hP
  | restart host configs =>
    obtain rfl := Except.ok.inj hstep
    exact ⟨hlinked, hrestart host configs he k u hP⟩

/-- What holds after every run that adds documents to the same shards, whatever searchers come and
go. -/
structure Steady {rt : Runtime B Text Vec Dist} (base : StoringBase rt.faiss)
    (platform : Platform B) (listShardIds : String → List String) (k : Nat) (st : System B) :
    Prop where
  tabled : st.writer.Tabled listShardIds
  orderly : Orderly rt platform k st.writer (st.sent.map Sent.task)
  rooted : ∀ host, ∀ s ∈ st.searchers host, s.Rooted
  relayed : ∀ o, st.writer.objects.Alloc o → Relayed base (st.writer.objects.get o).index.rest

namespace Steady

variable {rt : Runtime B Text Vec Dist} {base : StoringBase rt.faiss} {platform : Platform B}
variable {listShardIds : String → List String} {k : Nat} {st : System B}

theorem blank (base : StoringBase rt.faiss) (platform : Platform B)
    (listShardIds : String → List String) (indexesConfig : AList fun _ : String => IndexConfig)
    (searchersConfigs : String → Option (List ShardConfig)) :
    Steady base platform listShardIds 0 (System.blank rt indexesConfig searchersConfigs) where
  tabled o ho := absurd ho (Nat.not_lt_zero o)
  orderly := .create rt platform indexesConfig
  rooted host s hs := by
    obtain ⟨configs, -, rfl⟩ := Option.map_eq_some_iff.mp hs
    exact (Searcher.create_shows rt base configs).1
  relayed o ho := absurd ho (Nat.not_lt_zero o)

theorem later (h : Steady base platform listShardIds k st) :
    Steady base platform listShardIds (k + 1) st :=
  ⟨h.tabled, h.orderly.later, h.rooted, h.relayed⟩

theorem table (h : Steady base platform listShardIds k st) (hrand : ∀ m, rt.rand m < 256 ^ 8)
    {env : Env Time} (henv : env.listShardIds = listShardIds) {w : Writer B}
    (hstep : Writer.TableStep rt env st.writer w) (hd : rt.Distinct w.draws) :
    Steady base platform listShardIds k { st with writer := w } where
  tabled := by
    subst henv
    exact h.tabled.step hstep
  orderly := h.orderly.table hrand hstep hd
  rooted := h.rooted
  relayed := Writer.forall_objects_step (Q := fun idx => Relayed base idx.rest) hstep
    (fun config => .create base config _) h.relayed

theorem gauge (h : Steady base platform listShardIds k st)
    (gauge : AList fun _ : String × String => Nat) :
    Steady base platform listShardIds k
      { st with writer := { st.writer with vectorsCount := gauge } } :=
  ⟨h.tabled, h.orderly.gauge gauge, h.rooted, h.relayed⟩

theorem settle (h : Steady base platform listShardIds k st) (hrand : ∀ m, rt.rand m < 256 ^ 8)
    (hk : k + 1 < 256 ^ 8) {o : Nat} {index : Index B Text} {request : WriteRequest Vec}
    (hadd : "delete" ∉ request.attributes) (ho : st.writer.objects.Alloc o)
    (hexec : ({ (st.writer.objects.get o).index with draws := st.writer.draws } :
      Index B Text).exec rt request.edit.op = .ok index) (hd : rt.Distinct index.draws) :
    Steady base platform listShardIds (k + 1) { st with writer := st.writer.settle o index } where
  tabled := h.tabled.settle o index
  orderly := h.orderly.settle hrand hk hadd ho hexec hd
  rooted := h.rooted
  relayed o' ho' := by
    show Relayed base ((st.writer.settle o index).objects.get o').index.rest
    rw [Writer.settle_get]
    split
    · obtain ⟨-, -, -, hrelayed⟩ := h.orderly.call hrand hk hadd ho hexec hd
        (P := Relayed base)
        (fun rows u u' hgrown hshape hfeed _ hgrowth hu => hu.grow hgrown hshape hfeed hgrowth)
        ((h.relayed o ho).drawn st.writer.draws)
      exact hrelayed
    · exact h.relayed o' ho'

theorem delivered (h : Steady base platform listShardIds k st) {task : Task} {tasks : List Task}
    (hnext : st.writer.callbackRunner = task :: tasks) {hosts : List String}
    {searchers : String → Option (Searcher B)}
    (hupdate : hosts.foldlM (updateIndex platform
      (task.transfer rt platform (st.writer.objects.get task.object).index st.store)
      (task.request (st.writer.objects.get task.object).index)) st.searchers = .ok searchers) :
    Steady base platform listShardIds (k + 1) (st.delivered rt platform task tasks searchers) where
  tabled := h.tabled
  orderly := by
    rw [show (st.delivered rt platform task tasks searchers).sent.map Sent.task =
      st.sent.map Sent.task ++ [task] from List.map_append]
    exact (h.orderly.delivered hnext).later
  rooted := (updateIndex_spreads base hosts h.rooted hupdate).rooted
  relayed := h.relayed

theorem restart (h : Steady base platform listShardIds k st) (host : String)
    (configs : Option (List ShardConfig)) :
    Steady base platform listShardIds (k + 1) (st.restart rt host configs) where
  tabled := h.tabled
  orderly := h.orderly.later
  rooted other s hs := by
    replace hs : Function.update st.searchers host (configs.map (Searcher.create rt)) other =
      some s := hs
    by_cases heq : other = host
    · rw [heq, Function.update_self] at hs
      obtain ⟨configs, -, rfl⟩ := Option.map_eq_some_iff.mp hs
      exact (Searcher.create_shows rt base configs).1
    · rw [Function.update_of_ne heq] at hs
      exact h.rooted other s hs
  relayed := h.relayed

end Steady

/-- What holds of a shard on a host that started when the tasks of `past` had run, and that the
tasks of the shard have updated since. -/
structure ReplicatesSince {rt : Runtime B Text Vec Dist} (base : StoringBase rt.faiss)
    (host indexId shardId : String) (past : List Task) (w : Writer B) (ran : List Task)
    (searchers : String → Option (Searcher B)) : Prop where
  past_ran : ∀ t ∈ past, t ∈ ran
  served : ∀ o, w.Owns indexId shardId o →
    ServedSince base (Replica base searchers host indexId shardId) (callsOf o past).length
      (callsOf o ran).length (w.objects.get o).index.rest
  empty : (∀ o, ¬ w.Owns indexId shardId o) →
    ∀ x v, ¬ Replica base searchers host indexId shardId x v

namespace ReplicatesSince

variable {rt : Runtime B Text Vec Dist} {base : StoringBase rt.faiss} {platform : Platform B}
variable {listShardIds : String → List String} {host i sh : String} {past : List Task} {k : Nat}
variable {st : System B}

/-- A searcher that was just constructed has no documents. -/
theorem start (base : StoringBase rt.faiss) (host i sh : String)
    (configs : Option (List ShardConfig)) (st : System B) (ran : List Task) :
    ReplicatesSince base host i sh ran st.writer ran (st.restart rt host configs).searchers := by
  have hnone : ∀ x v, ¬ Replica base (st.restart rt host configs).searchers host i sh x v := by
    rintro x v ⟨s, hs, hshows⟩
    replace hs : Function.update st.searchers host (configs.map (Searcher.create rt)) host =
      some s := hs
    rw [Function.update_self] at hs
    obtain ⟨configs, -, rfl⟩ := Option.map_eq_some_iff.mp hs
    exact (Searcher.create_shows rt base configs).2 i sh x v hshows
  exact ⟨fun t ht => ht, fun o _ => .start hnone _ _, fun _ => hnone⟩

theorem table (h : ReplicatesSince base host i sh past st.writer (st.sent.map Sent.task)
      st.searchers) (hsteady : Steady base platform listShardIds k st) {env : Env Time}
    (henv : env.listShardIds = listShardIds) {w : Writer B}
    (hstep : Writer.TableStep rt env st.writer w) :
    ReplicatesSince base host i sh past w (st.sent.map Sent.task) st.searchers := by
  have htabled : w.Tabled env.listShardIds := Writer.Tabled.step (henv ▸ hsteady.tabled) hstep
  have hkeep : ∀ {o}, st.writer.Owns i sh o → w.Owns i sh o := by
    rintro o ⟨ho, hnames⟩
    obtain ⟨ho', hget⟩ := hstep.keeps ho
    exact ⟨ho', hget ▸ hnames⟩
  refine ⟨h.past_ran, fun o ho => ?_, fun hnone => h.empty fun o ho => hnone o (hkeep ho)⟩
  obtain ⟨halloc, hi, hs⟩ := ho
  rcases hstep.objects_eq with ⟨hobjects, -⟩ | ⟨i', s', config, hobjects, -⟩
  · rw [hobjects] at halloc hi hs ⊢
    exact h.served o ⟨halloc, hi, hs⟩
  · rcases Heap.alloc_cases (hobjects ▸ halloc) with ⟨hold, hget⟩ | ⟨hnew, hget⟩
    · rw [← hobjects] at hget
      rw [hget] at hi hs ⊢
      exact h.served o ⟨hold, hi, hs⟩
    · rw [← hobjects] at hget
      -- no other object has the names of the new one, and no task has handed it over
      have hnone : ∀ o', ¬ st.writer.Owns i sh o' := by
        intro o' ho'
        obtain ⟨halloc', hi', hs'⟩ := hkeep ho'
        have heq := htabled.unique halloc' halloc (hi'.trans hi.symm) (hs'.trans hs.symm)
        exact Nat.ne_of_lt ho'.1 (heq.trans hnew)
      have hunused : ∀ t ∈ st.sent.map Sent.task, t.object ≠ o := fun t ht heq =>
        Nat.ne_of_lt (hsteady.orderly.accounted.ran t ht).1 (heq.trans hnew)
      rw [hget, callsOf_eq_nil hunused, callsOf_eq_nil fun t ht => hunused t (h.past_ran t ht)]
      exact .start (h.empty hnone) _ _

theorem settle (h : ReplicatesSince base host i sh past st.writer (st.sent.map Sent.task)
      st.searchers) (hsteady : Steady base platform listShardIds k st)
    (hrand : ∀ m, rt.rand m < 256 ^ 8) (hk : k + 1 < 256 ^ 8) {o : Nat} {index : Index B Text}
    {request : WriteRequest Vec} (hadd : "delete" ∉ request.attributes)
    (ho : st.writer.objects.Alloc o)
    (hexec : ({ (st.writer.objects.get o).index with draws := st.writer.draws } :
      Index B Text).exec rt request.edit.op = .ok index) (hd : rt.Distinct index.draws) :
    ReplicatesSince base host i sh past (st.writer.settle o index) (st.sent.map Sent.task)
      st.searchers := by
  have howns : ∀ {o'}, (st.writer.settle o index).Owns i sh o' ↔ st.writer.Owns i sh o' := by
    intro o'
    unfold Writer.Owns
    rw [(st.writer.settle_names o index o').1, (st.writer.settle_names o index o').2]
    rfl
  refine ⟨h.past_ran, fun o' ho' => ?_, fun hnone =>
    h.empty fun o' ho' => hnone o' (howns.mpr ho')⟩
  have hold := h.served o' (howns.mp ho')
  rw [Writer.settle_get]
  split
  · next heq =>
    subst heq
    obtain ⟨-, -, -, -, -, hserved⟩ := hsteady.orderly.call hrand hk hadd ho hexec hd (P := fun u =>
      (callsOf o' (st.sent.map Sent.task)).length ≤ u.index.calls.length ∧ AlignedAll base u ∧
        ServedSince base (Replica base st.searchers host i sh) (callsOf o' past).length
          (callsOf o' (st.sent.map Sent.task)).length u)
      (fun rows u u' hgrown _ _ _ hgrowth hu => ⟨hu.1.trans hgrowth.calls_le,
        hu.2.1.grow hgrowth, hu.2.2.grow hgrown hu.2.1 hu.1 hgrowth⟩)
      ⟨hsteady.orderly.callsOf_le ho, (hsteady.relayed o' ho).aligned,
        hold.drawn st.writer.draws⟩
    exact hserved
  · exact hold

/-- A task of the shard reaches the host, and a task of another shard leaves it alone. -/
theorem delivered (h : ReplicatesSince base host i sh past st.writer (st.sent.map Sent.task)
      st.searchers) (hsteady : Steady base platform listShardIds k st) {task : Task}
    {tasks : List Task} (hnext : st.writer.callbackRunner = task :: tasks) {hosts : List String}
    (hhost : i = task.indexId ∧ sh = task.shardId → host ∈ hosts)
    {searchers : String → Option (Searcher B)}
    (hupdate : hosts.foldlM (updateIndex platform
      (task.transfer rt platform (st.writer.objects.get task.object).index st.store)
      (task.request (st.writer.objects.get task.object).index)) st.searchers = .ok searchers) :
    ReplicatesSince base host i sh past { st.writer with callbackRunner := tasks }
      (st.sent.map Sent.task ++ [task]) searchers := by
  obtain ⟨halloc, hi, hs⟩ :=
    hsteady.orderly.accounted.queued task (hnext ▸ List.mem_cons_self)
  have hpast : ∀ t ∈ past, t ∈ st.sent.map Sent.task ++ [task] := fun t ht =>
    List.mem_append_left _ (h.past_ran t ht)
  by_cases hshard : i = task.indexId ∧ sh = task.shardId
  · obtain ⟨rfl, rfl⟩ := hshard
    have hown : st.writer.Owns task.indexId task.shardId task.object := ⟨halloc, hi, hs⟩
    refine ⟨hpast, fun o ho => ?_, fun hnone => absurd hown (hnone task.object)⟩
    obtain rfl : o = task.object :=
      hsteady.tabled.unique ho.1 halloc (ho.2.1.trans hi.symm) (ho.2.2.trans hs.symm)
    rw [callsOf_append, callsOf_cons_self, List.length_append]
    exact (h.served task.object hown).deliver (hsteady.relayed _ halloc)
      (hsteady.orderly.accounted.next_call hnext)
      (hsteady.orderly.delivered_replica hsteady.rooted hnext hupdate (hhost ⟨rfl, rfl⟩))
  · have hsame :=
      (updateIndex_spreads base hosts hsteady.rooted hupdate).elsewhere host i sh hshard
    refine ⟨hpast, fun o ho => ?_, fun hnone x v hx => h.empty hnone x v ((hsame x v).mp hx)⟩
    have hne : ∀ t ∈ [task], t.object ≠ o := by
      rintro t ht rfl
      rw [List.mem_singleton.mp ht] at ho
      exact hshard ⟨ho.2.1.symm.trans hi, ho.2.2.symm.trans hs⟩
    rw [callsOf_append, callsOf_eq_nil hne, List.append_nil]
    exact (h.served o ho).congr hsame

/-- Another searcher starts. -/
theorem restart (h : ReplicatesSince base host i sh past st.writer (st.sent.map Sent.task)
      st.searchers) {other : String} (hne : host ≠ other) (configs : Option (List ShardConfig)) :
    ReplicatesSince base host i sh past st.writer (st.sent.map Sent.task)
      (st.restart rt other configs).searchers := by
  have hsame : ∀ x v, Replica base (st.restart rt other configs).searchers host i sh x v ↔
      Replica base st.searchers host i sh x v := by
    intro x v
    unfold Replica
    rw [show (st.restart rt other configs).searchers host = st.searchers host from
      Function.update_of_ne hne ..]
  exact ⟨h.past_ran, fun o ho => (h.served o ho).congr hsame,
    fun hnone x v hx => h.empty hnone x v ((hsame x v).mp hx)⟩

/-- When the queue is empty, the host has the rows in the levels of the shard that were handed over
since it started. -/
theorem settled (h : ReplicatesSince base host i sh past st.writer (st.sent.map Sent.task)
      st.searchers) (hsteady : Steady base platform listShardIds k st)
    (hlinked : st.writer.Linked) (hqueue : st.writer.callbackRunner = []) (x : Text) (v : Vec) :
    Replica base st.searchers host i sh x v ↔
      ∃ o ∈ (st.writer.table i).lookup sh, ∃ p ∈ (st.writer.objects.get o).index.current,
        (∃ c ∈ (st.writer.objects.get o).index.calls.drop (callsOf o past).length,
          p ∈ c.inserted) ∧ ((st.writer.objects.get o).index.seg p).index.Holds base x v := by
  have hobject : ∀ o, st.writer.Owns i sh o → (Replica base st.searchers host i sh x v ↔
      ∃ p ∈ (st.writer.objects.get o).index.current,
        (∃ c ∈ (st.writer.objects.get o).index.calls.drop (callsOf o past).length,
          p ∈ c.inserted) ∧ ((st.writer.objects.get o).index.seg p).index.Holds base x v) := by
    intro o ho
    exact (h.served o ho).settled (hsteady.orderly.all_delivered ho.1 hqueue) x v
  constructor
  · intro hshows
    by_contra hnone
    refine h.empty (fun o ho => hnone ?_) x v hshows
    obtain ⟨halloc, rfl, rfl⟩ := ho
    exact ⟨o, (hsteady.tabled o halloc).2, (hobject o ⟨halloc, rfl, rfl⟩).mp hshows⟩
  · rintro ⟨o, hlookup, hlevels⟩
    exact (hobject o (hlinked i sh o hlookup)).mpr hlevels

end ReplicatesSince

section Runs

variable [LT Time] [DecidableLT Time] {rt : Runtime B Text Vec Dist} {base : StoringBase rt.faiss}
variable {platform : Platform B} {listShardIds : String → List String}
variable {events : List (ScalingEvent Vec Time)} {st st' : System B} {k : Nat}

theorem Steady.of_start (base : StoringBase rt.faiss) (platform : Platform B)
    (hrand : ∀ m, rt.rand m < 256 ^ 8) (indexesConfig : AList fun _ : String => IndexConfig)
    (searchersConfigs : String → Option (List ShardConfig)) (env : Env Time) :
    (System.start rt indexesConfig searchersConfigs env).writer.Linked ∧
      (rt.Distinct (System.start rt indexesConfig searchersConfigs env).writer.draws →
        Steady base platform env.listShardIds 0
          (System.start rt indexesConfig searchersConfigs env)) := by
  have hrun : (System.start rt indexesConfig searchersConfigs env).run rt platform
      ([] : List (Event Vec Time)) = .ok (System.start rt indexesConfig searchersConfigs env) := rfl
  refine System.counts (P := fun k u => rt.Distinct u.writer.draws →
    Steady base platform env.listShardIds k u) hrun ?_ ?_ ?_ ?_ ?_ ?_
  · exact fun _ => .blank base platform _ indexesConfig searchersConfigs
  · exact fun k u hu hd => (hu hd).later
  · rintro env' (rfl | ⟨e, he, -⟩) k u w' - hu hstep hd
    · exact (hu (hd.mono hstep.draws_le)).table hrand rfl hstep hd
    · cases he
  · exact fun k u gauge hu hd => (hu hd).gauge gauge
  · exact fun env' request he => absurd he List.not_mem_nil
  · exact fun env' he => absurd he List.not_mem_nil

theorem Steady.of_runScaling (hrand : ∀ m, rt.rand m < 256 ^ 8)
    (hrun : st.runScaling rt platform events = .ok st')
    (hadd : ∀ env request, ScalingEvent.event (.write env request) ∈ events →
      "delete" ∉ request.attributes)
    (hfixed : ∀ e, ScalingEvent.event e ∈ events → e.env.listShardIds = listShardIds)
    (hlinked : st.writer.Linked) (hlen : k + events.length < 256 ^ 8)
    (h : rt.Distinct st.writer.draws → Steady base platform listShardIds k st) :
    st'.writer.Linked ∧ (rt.Distinct st'.writer.draws →
      Steady base platform listShardIds (k + events.length) st') := by
  have hcount := System.runScaling_counts (P := fun k u => k < 256 ^ 8 →
    rt.Distinct u.writer.draws → Steady base platform listShardIds k u) hrun ?_ ?_ ?_ ?_ ?_ ?_
    hlinked fun _ => h
  · exact ⟨hcount.1, hcount.2 hlen⟩
  · exact fun k u hu hk hd => (hu (by omega) hd).later
  · exact fun e he k u w' _ hu hstep hk hd =>
      (hu hk (hd.mono hstep.draws_le)).table hrand (hfixed e he) hstep hd
  · exact fun k u gauge hu hk hd => (hu hk hd).gauge gauge
  · intro env request he k u o index _ hu ho hexec hk hd
    have hle : u.writer.draws ≤ index.draws := draws_le_of_runs (Index.exec_runs hexec)
    exact (hu (by omega) (hd.mono hle)).settle hrand hk (hadd env request he) ho hexec hd
  · exact fun env _ k u task tasks searchers _ hu hnext hupdate hk hd =>
      (hu (by omega) hd).delivered hnext hupdate
  · exact fun host configs _ k u hu hk hd => (hu (by omega) hd).restart host configs

/-- The run after a searcher has started at the host. -/
theorem ReplicatesSince.of_runScaling (hrand : ∀ m, rt.rand m < 256 ^ 8)
    (hrun : st.runScaling rt platform events = .ok st')
    (hadd : ∀ env request, ScalingEvent.event (.write env request) ∈ events →
      "delete" ∉ request.attributes)
    (hfixed : ∀ e, ScalingEvent.event e ∈ events → e.env.listShardIds = listShardIds)
    {host i sh : String} (hstay : ∀ configs, ScalingEvent.restart host configs ∉ events)
    (hlisted : ∀ env, ScalingEvent.event (.task env) ∈ events → host ∈ env.listSearcherHosts i sh)
    {past : List Task} (hlinked : st.writer.Linked) (hlen : k + events.length < 256 ^ 8)
    (h : rt.Distinct st.writer.draws → Steady base platform listShardIds k st ∧
      ReplicatesSince base host i sh past st.writer (st.sent.map Sent.task) st.searchers) :
    st'.writer.Linked ∧ (rt.Distinct st'.writer.draws →
      Steady base platform listShardIds (k + events.length) st' ∧
        ReplicatesSince base host i sh past st'.writer (st'.sent.map Sent.task) st'.searchers) := by
  have hcount := System.runScaling_counts (P := fun k u => k < 256 ^ 8 →
    rt.Distinct u.writer.draws → Steady base platform listShardIds k u ∧
      ReplicatesSince base host i sh past u.writer (u.sent.map Sent.task) u.searchers)
    hrun ?_ ?_ ?_ ?_ ?_ ?_ hlinked fun _ => h
  · exact ⟨hcount.1, hcount.2 hlen⟩
  · intro k u hu hk hd
    obtain ⟨hsteady, hsince⟩ := hu (by omega) hd
    exact ⟨hsteady.later, hsince⟩
  · intro e he k u w' _ hu hstep hk hd
    obtain ⟨hsteady, hsince⟩ := hu hk (hd.mono hstep.draws_le)
    exact ⟨hsteady.table hrand (hfixed e he) hstep hd, hsince.table hsteady (hfixed e he) hstep⟩
  · intro k u gauge hu hk hd
    obtain ⟨hsteady, hsince⟩ := hu hk hd
    exact ⟨hsteady.gauge gauge, hsince.past_ran, hsince.served, hsince.empty⟩
  · intro env request he k u o index _ hu ho hexec hk hd
    have hle : u.writer.draws ≤ index.draws := draws_le_of_runs (Index.exec_runs hexec)
    obtain ⟨hsteady, hsince⟩ := hu (by omega) (hd.mono hle)
    have hput := hadd env request he
    exact ⟨hsteady.settle hrand hk hput ho hexec hd,
      hsince.settle hsteady hrand hk hput ho hexec hd⟩
  · intro env he k u task tasks searchers _ hu hnext hupdate hk hd
    obtain ⟨hsteady, hsince⟩ := hu (by omega) hd
    refine ⟨hsteady.delivered hnext hupdate, ?_⟩
    rw [show (u.delivered rt platform task tasks searchers).sent.map Sent.task =
      u.sent.map Sent.task ++ [task] from List.map_append]
    exact hsince.delivered hsteady hnext
      (fun hshard => hshard.1 ▸ hshard.2 ▸ hlisted env he) hupdate
  · intro other configs he k u hu hk hd
    obtain ⟨hsteady, hsince⟩ := hu (by omega) hd
    have hne : host ≠ other := fun heq => hstay configs (heq ▸ he)
    exact ⟨hsteady.restart other configs, hsince.restart hne configs⟩

end Runs

/-- A searcher starts, or starts again, at some point of a run that adds documents to the same
shards, while other searchers come and go. When all tasks have run, and all of them since its start
have listed it for a shard, it holds the rows of those segments in the levels of the shard that were
handed over by a call that had not been delivered at its start. All other rows of the levels it
lacks. -/
theorem late_searcher_holds [LT Time] [DecidableLT Time] {rt : Runtime B Text Vec Dist}
    (base : StoringBase rt.faiss) (platform : Platform B) (hrand : ∀ m, rt.rand m < 256 ^ 8)
    {indexesConfig : AList fun _ : String => IndexConfig}
    {searchersConfigs : String → Option (List ShardConfig)} {env : Env Time}
    {before after : List (ScalingEvent Vec Time)} {st st' : System B}
    (hlen : before.length + after.length + 1 < 256 ^ 8)
    (hadd : ∀ env request, ScalingEvent.event (.write env request) ∈ before ++ after →
      "delete" ∉ request.attributes)
    (hfixed : ∀ e, ScalingEvent.event e ∈ before ++ after →
      e.env.listShardIds = env.listShardIds)
    (hbefore : (System.start rt indexesConfig searchersConfigs env).runScaling rt platform before =
      .ok st)
    {host : String} {configs : Option (List ShardConfig)}
    (hafter : (st.restart rt host configs).runScaling rt platform after = .ok st')
    (hd : rt.Distinct st'.writer.draws) (hqueue : st'.writer.callbackRunner = [])
    (hstay : ∀ configs', ScalingEvent.restart host configs' ∉ after) {i sh : String}
    (hlisted : ∀ env', ScalingEvent.event (.task env') ∈ after →
      host ∈ env'.listSearcherHosts i sh) (x : Text) (v : Vec) :
    Replica base st'.searchers host i sh x v ↔
      ∃ o ∈ (st'.writer.table i).lookup sh, ∃ p ∈ (st'.writer.objects.get o).index.current,
        (∃ c ∈ (st'.writer.objects.get o).index.calls.drop
          (callsOf o (st.sent.map Sent.task)).length, p ∈ c.inserted) ∧
        ((st'.writer.objects.get o).index.seg p).index.Holds base x v := by
  obtain ⟨hlinked, hstart⟩ :=
    Steady.of_start base platform hrand indexesConfig searchersConfigs env
  obtain ⟨hlinked, hmiddle⟩ := Steady.of_runScaling hrand hbefore
    (fun env request he => hadd env request (List.mem_append_left _ he))
    (fun e he => hfixed e (List.mem_append_left _ he)) hlinked (by omega) hstart
  obtain ⟨hlinked, hend⟩ := ReplicatesSince.of_runScaling hrand hafter
    (fun env request he => hadd env request (List.mem_append_right _ he))
    (fun e he => hfixed e (List.mem_append_right _ he)) hstay hlisted hlinked (by omega)
    (fun hd => ⟨(hmiddle hd).restart host configs,
      .start base host i sh configs st (st.sent.map Sent.task)⟩)
  obtain ⟨hsteady, hsince⟩ := hend hd
  exact hsince.settled hsteady hlinked hqueue x v

/-- One document is added and delivered. -/
def addAndDeliver (b : UInt8) (v : Nat) : List (ScalingEvent Nat Nat) :=
  [.event (.write (docsEnv ["east"] ["host"]) (addRequest b v)),
    .event (.task (docsEnv ["east"] ["host"]))]

/-- The searcher starts again after the first of two documents has been delivered; nothing is
merged. -/
theorem late_searcher_holds_second :
    ∃ st st', (System.start countingRuntime (AList.singleton "docs" (unitConfig false))
        docsSearchers (docsEnv ["east"] ["host"])).runScaling countingRuntime linePlatform
          (addAndDeliver 97 10) = .ok st ∧
      (st.restart countingRuntime "host" (docsSearchers "host")).runScaling countingRuntime
        linePlatform (addAndDeliver 98 20) = .ok st' ∧ st'.writer.callbackRunner = [] ∧
      ∀ x v, Replica countingBase st'.searchers "host" "docs" "east" x v ↔
        ∃ o ∈ (st'.writer.table "docs").lookup "east",
          ∃ p ∈ (st'.writer.objects.get o).index.current,
            (∃ c ∈ (st'.writer.objects.get o).index.calls.drop
              (callsOf o (st.sent.map Sent.task)).length, p ∈ c.inserted) ∧
            ((st'.writer.objects.get o).index.seg p).index.Holds countingBase x v := by
  obtain ⟨st', hrun, hqueue, hdraws⟩ : ∃ st', ((System.start countingRuntime
      (AList.singleton "docs" (unitConfig false)) docsSearchers
      (docsEnv ["east"] ["host"])).runScaling countingRuntime linePlatform (addAndDeliver 97 10) >>=
        fun st => (st.restart countingRuntime "host" (docsSearchers "host")).runScaling
          countingRuntime linePlatform (addAndDeliver 98 20)) = .ok st' ∧
      st'.writer.callbackRunner = [] ∧ st'.writer.draws = 3 := exists_ok (by decide +kernel)
  obtain ⟨st, hbefore, hafter⟩ := bind_eq_ok.mp hrun
  have hevents : ∀ e, ScalingEvent.event e ∈ addAndDeliver 97 10 ++ addAndDeliver 98 20 →
      e.env = docsEnv ["east"] ["host"] ∧
        ∀ env request, e = .write env request → "delete" ∉ request.attributes := by
    intro e he
    simp only [addAndDeliver, List.cons_append, List.nil_append, List.mem_cons,
      ScalingEvent.event.injEq, List.not_mem_nil, or_false] at he
    rcases he with rfl | rfl | rfl | rfl
    · refine ⟨rfl, fun env request heq => ?_⟩
      obtain ⟨-, rfl⟩ := Event.write.inj heq
      decide
    · exact ⟨rfl, fun env request heq => by cases heq⟩
    · refine ⟨rfl, fun env request heq => ?_⟩
      obtain ⟨-, rfl⟩ := Event.write.inj heq
      decide
    · exact ⟨rfl, fun env request heq => by cases heq⟩
  refine ⟨st, st', hbefore, hafter, hqueue, late_searcher_holds countingBase linePlatform
    countingRuntime_lt (by decide) (fun env request he => (hevents _ he).2 env request rfl)
    (fun e he => congrArg Env.listShardIds (hevents e he).1) hbefore hafter
    (hdraws ▸ countingRuntime_distinct.mono (by decide)) hqueue (fun configs he => ?_)
    fun env' he => ?_⟩
  · simp [addAndDeliver] at he
  · have henv : env' = docsEnv ["east"] ["host"] := (hevents _ (List.mem_append_right _ he)).1
    rw [henv]
    exact List.mem_cons_self

end Vecodex
