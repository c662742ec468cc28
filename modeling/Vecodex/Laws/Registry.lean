import Vecodex.App.Etcd
import Vecodex.Laws.Writer
import Vecodex.Lib.Paths
import Mathlib.Data.Finset.Basic

/-!
# Laws of the registry

What the registry is for: it knows which addresses serve a shard, and the last response time of
every shard (`Registry`). This module relates it to the flat keys of etcd, for index and shard ids
without slashes (`Represents`). The key of an entry then determines the entry
(`Slot.key_injective`), and the prefixes the client asks for match the entries they are meant for.

So hosts and response times of different shards do not get mixed up (`registry_isolated`). But the
client takes a shard for listed when it has any entry at all, and a response time outlives the
hosts (`shard_listed_iff`).
-/

namespace Vecodex

open Lib

variable {Time : Type}

/-! ## What is registered -/

/-- The registered hosts, each with its index and shard, and the last response times. -/
structure Registry (Time : Type) where
  hosts : Finset (String × String × String)
  times : String × String → Option Time

namespace Registry

def empty : Registry Time := { hosts := ∅, times := fun _ => none }

def apply (r : Registry Time) : RegistryCall Time → Registry Time
  | .addSearcherHost i s addr => { r with hosts := insert (i, s, addr) r.hosts }
  | .removeSearcherHost i s addr => { r with hosts := r.hosts.erase (i, s, addr) }
  | .updateAverageResponseTime i s time =>
    { r with times := Function.update r.times (i, s) (some time) }

/-- What is registered after a sequence of calls. -/
def after (calls : List (RegistryCall Time)) : Registry Time := calls.foldl apply empty

end Registry

/-! ## Keys -/

/-- The id contains no slash. -/
def NoSlash (id : String) : Prop := '/' ∉ id.toList

instance (id : String) : Decidable (NoSlash id) := inferInstanceAs (Decidable (_ ∉ _))

/-- The index and shard id of a call. -/
def RegistryCall.NoSlashes : RegistryCall Time → Prop
  | .addSearcherHost i s _ => NoSlash i ∧ NoSlash s
  | .removeSearcherHost i s _ => NoSlash i ∧ NoSlash s
  | .updateAverageResponseTime i s _ => NoSlash i ∧ NoSlash s

instance : ∀ c : RegistryCall Time, Decidable c.NoSlashes
  | .addSearcherHost .. => inferInstanceAs (Decidable (_ ∧ _))
  | .removeSearcherHost .. => inferInstanceAs (Decidable (_ ∧ _))
  | .updateAverageResponseTime .. => inferInstanceAs (Decidable (_ ∧ _))

/-- The places of the registry: one for every host of a shard, and one for its response time. -/
inductive Slot
  | host (indexId shardId searcherAddr : String)
  | time (indexId shardId : String)
  deriving DecidableEq

namespace Slot

def indexId : Slot → String
  | host i _ _ => i
  | time i _ => i

def shardId : Slot → String
  | host _ s _ => s
  | time _ s => s

def key : Slot → String
  | host i s addr => i ++ "/searchers/" ++ s ++ "/hosts/" ++ addr
  | time i s => i ++ "/searchers/" ++ s ++ "/stats/average_response_time"

def Free (x : Slot) : Prop := NoSlash x.indexId ∧ NoSlash x.shardId

/-- The last words of a key. -/
def tail : Slot → List Char
  | host _ _ addr => "hosts".toList ++ '/' :: addr.toList
  | time _ _ => "stats".toList ++ '/' :: "average_response_time".toList

/-- A key is its words with slashes in between. -/
theorem key_toList (x : Slot) : x.key.toList = x.indexId.toList ++ '/' ::
    ("searchers".toList ++ '/' :: (x.shardId.toList ++ '/' :: x.tail)) := by
  cases x with
  | host i s addr =>
    show (i ++ "/searchers/" ++ s ++ "/hosts/" ++ addr).toList = _
    simp only [String.toList_append, List.append_assoc]
    rfl
  | time i s =>
    show (i ++ "/searchers/" ++ s ++ "/stats/average_response_time").toList = _
    simp only [String.toList_append, List.append_assoc]
    rfl

theorem noSlash_searchers : '/' ∉ "searchers".toList := by decide

theorem noSlash_hosts : '/' ∉ "hosts".toList := by decide

theorem noSlash_stats : '/' ∉ "stats".toList := by decide

/-- The key of an entry determines the entry. -/
theorem key_injective {x y : Slot} (hx : x.Free) (hy : y.Free) (h : x.key = y.key) : x = y := by
  have hkeys := congrArg String.toList h
  rw [key_toList, key_toList, separated_inj hx.1 hy.1,
    separated_inj noSlash_searchers noSlash_searchers, separated_inj hx.2 hy.2] at hkeys
  obtain ⟨hindex, -, hshard, htail⟩ := hkeys
  have hindex := String.ext hindex
  have hshard := String.ext hshard
  cases x with
  | host i s addr =>
    cases y with
    | host i' s' addr' =>
      have haddr := String.ext ((separated_inj noSlash_hosts noSlash_hosts).mp htail).2
      rw [show i = i' from hindex, show s = s' from hshard, haddr]
    | time i' s' =>
      exact absurd ((separated_inj noSlash_hosts noSlash_stats).mp htail).1 (by decide)
  | time i s =>
    cases y with
    | host i' s' addr' =>
      exact absurd ((separated_inj noSlash_stats noSlash_hosts).mp htail).1 (by decide)
    | time i' s' => rw [show i = i' from hindex, show s = s' from hshard]

/-- The prefix for the shards of an index matches the entries of the index. -/
theorem searchers_prefix_iff {x : Slot} (hx : x.Free) {i : String} (hi : NoSlash i) :
    (i ++ "/searchers").toList <+: x.key.toList ↔ x.indexId = i := by
  have hpath : (i ++ "/searchers").toList = i.toList ++ '/' :: "searchers".toList :=
    String.toList_append
  rw [hpath, key_toList, separated_prefix_iff hi hx.1, String.toList_inj, eq_comm]
  exact and_iff_left (List.prefix_append _ _)

/-- The prefix for the hosts of a shard matches its hosts. -/
theorem hosts_prefix_iff {x : Slot} (hx : x.Free) {i s : String} (hi : NoSlash i)
    (hs : NoSlash s) :
    (i ++ "/searchers" ++ ("/" ++ s ++ "/hosts")).toList <+: x.key.toList ↔
      ∃ addr, x = host i s addr := by
  have hpath : (i ++ "/searchers" ++ ("/" ++ s ++ "/hosts")).toList = i.toList ++ '/' ::
      ("searchers".toList ++ '/' :: (s.toList ++ '/' :: "hosts".toList)) := by
    simp only [String.toList_append, List.append_assoc]
    rfl
  rw [hpath, key_toList, separated_prefix_iff hi hx.1,
    separated_prefix_iff noSlash_searchers noSlash_searchers, separated_prefix_iff hs hx.2]
  constructor
  · rintro ⟨hindex, -, hshard, htail⟩
    obtain rfl := String.ext hindex
    obtain rfl := String.ext hshard
    cases x with
    | host i s addr => exact ⟨addr, rfl⟩
    | time i s =>
      have htail : "hosts".toList <+:
        "stats".toList ++ '/' :: "average_response_time".toList := htail
      exact absurd htail (by decide)
  · rintro ⟨addr, rfl⟩
    exact ⟨rfl, rfl, rfl, List.prefix_append _ _⟩

/-- The key of a response time matches itself only. -/
theorem time_prefix_iff {x : Slot} (hx : x.Free) {i s : String} (hi : NoSlash i)
    (hs : NoSlash s) :
    (i ++ "/searchers/" ++ s ++ "/stats/average_response_time").toList <+: x.key.toList ↔
      x = time i s := by
  have hslot : (time i s).Free := ⟨hi, hs⟩
  show (time i s).key.toList <+: x.key.toList ↔ _
  rw [key_toList, key_toList, separated_prefix_iff hslot.1 hx.1,
    separated_prefix_iff noSlash_searchers noSlash_searchers, separated_prefix_iff hslot.2 hx.2]
  constructor
  · rintro ⟨hindex, -, hshard, htail⟩
    have hindex := String.ext hindex
    have hshard := String.ext hshard
    cases x with
    | host i' s' addr =>
      exact absurd ((separated_prefix_iff noSlash_stats noSlash_hosts).mp htail).1 (by decide)
    | time i' s' => rw [show i = i' from hindex, show s = s' from hshard]
  · rintro rfl
    exact ⟨rfl, rfl, rfl, List.prefix_refl _⟩

/-- The shard of a key. -/
theorem split_key {x : Slot} (hx : x.Free) : (Etcd.split x.key)[2]? = some x.shardId := by
  unfold Etcd.split
  rw [key_toList, List.splitOn_append_cons_self_of_not_mem hx.1,
    List.splitOn_append_cons_self_of_not_mem noSlash_searchers,
    List.splitOn_append_cons_self_of_not_mem hx.2]
  show some (String.ofList x.shardId.toList) = _
  rw [String.ofList_toList]

end Slot

/-! ## The entries of etcd -/

/-- What is stored for a place, if anything is. -/
def Registry.text (d : Doubles Time) (r : Registry Time) : Slot → Option String
  | .host i s addr => if (i, s, addr) ∈ r.hosts then some addr else none
  | .time i s => (r.times (i, s)).map d.toString

/-- Etcd has the entries of the registry, and no others. -/
structure Represents (d : Doubles Time) (e : Etcd) (r : Registry Time) : Prop where
  free : ∀ x, r.text d x ≠ none → x.Free
  entry : ∀ k v, e.contents.lookup k = some v ↔ ∃ x : Slot, x.key = k ∧ r.text d x = some v

namespace Represents

variable {d : Doubles Time} {e : Etcd} {r r' : Registry Time}

theorem empty (d : Doubles Time) (order : IterOrder (Σ _ : String, String)) :
    Represents d (Etcd.empty order) (Registry.empty : Registry Time) := by
  have hnone : ∀ x, (Registry.empty : Registry Time).text d x = none := by
    intro x
    cases x <;> rfl
  constructor
  · exact fun x hx => absurd (hnone x) hx
  · intro k v
    refine iff_of_false (Option.some_ne_none _).symm ?_
    rintro ⟨x, -, hx⟩
    rw [hnone] at hx
    cases hx

/-- A place gets a text. -/
theorem write (h : Represents d e r) {x : Slot} (hx : x.Free) {v : String}
    (htext : ∀ y, r'.text d y = if y = x then some v else r.text d y) :
    Represents d (e.addElement x.key v) r' := by
  have hfree : ∀ y, r'.text d y ≠ none → y.Free := by
    intro y hy
    by_cases hyx : y = x
    · exact hyx ▸ hx
    · rw [htext, if_neg hyx] at hy
      exact h.free y hy
  refine ⟨hfree, fun k w => ?_⟩
  show (e.contents.insert x.key v).lookup k = some w ↔ _
  by_cases hk : k = x.key
  · subst hk
    rw [AList.lookup_insert]
    constructor
    · intro hv
      exact ⟨x, rfl, by rw [htext, if_pos rfl, hv]⟩
    · rintro ⟨y, hy, hw⟩
      obtain rfl : y = x := Slot.key_injective (hfree y (hw ▸ Option.some_ne_none _)) hx hy
      rwa [htext, if_pos rfl] at hw
  · rw [AList.lookup_insert_ne hk, h.entry]
    refine exists_congr fun y => and_congr_right fun hy => ?_
    rw [htext, if_neg]
    rintro rfl
    exact hk hy.symm

/-- A place is cleared. -/
theorem clear (h : Represents d e r) {x : Slot} (hx : x.Free)
    (htext : ∀ y, r'.text d y = if y = x then none else r.text d y) :
    Represents d (e.removeElement x.key) r' := by
  have hfree : ∀ y, r'.text d y ≠ none → y.Free := by
    intro y hy
    rw [htext] at hy
    split at hy
    · exact absurd rfl hy
    · exact h.free y hy
  refine ⟨hfree, fun k w => ?_⟩
  show (e.contents.erase x.key).lookup k = some w ↔ _
  by_cases hk : k = x.key
  · subst hk
    rw [AList.lookup_erase]
    refine iff_of_false (Option.some_ne_none _).symm ?_
    rintro ⟨y, hy, hw⟩
    obtain rfl : y = x := Slot.key_injective (hfree y (hw ▸ Option.some_ne_none _)) hx hy
    rw [htext, if_pos rfl] at hw
    cases hw
  · rw [AList.lookup_erase_ne hk, h.entry]
    refine exists_congr fun y => and_congr_right fun hy => ?_
    rw [htext, if_neg]
    rintro rfl
    exact hk hy.symm

/-- Every call does to etcd what it does to the registry. -/
theorem exec (h : Represents d e r) {call : RegistryCall Time} (hcall : call.NoSlashes) :
    Represents d (e.exec d call) (r.apply call) := by
  cases call with
  | addSearcherHost i s addr =>
    refine h.write (x := .host i s addr) hcall fun y => ?_
    cases y with
    | host i' s' addr' =>
      simp only [Registry.text, Registry.apply, Finset.mem_insert, Prod.mk.injEq, Slot.host.injEq]
      split <;> split <;> grind
    | time i' s' => rfl
  | removeSearcherHost i s addr =>
    refine h.clear (x := .host i s addr) hcall fun y => ?_
    cases y with
    | host i' s' addr' =>
      simp only [Registry.text, Registry.apply, Finset.mem_erase, ne_eq, Prod.mk.injEq,
        Slot.host.injEq]
      split <;> split <;> grind
    | time i' s' => rfl
  | updateAverageResponseTime i s t =>
    refine h.write (x := .time i s) hcall fun y => ?_
    cases y with
    | host i' s' addr' => rfl
    | time i' s' =>
      simp only [Registry.text, Registry.apply, Function.update_apply, Prod.mk.injEq,
        Slot.time.injEq]
      split <;> rfl

/-- After every sequence of calls. -/
theorem run (d : Doubles Time) (order : IterOrder (Σ _ : String, String))
    {calls : List (RegistryCall Time)} (hcalls : ∀ c ∈ calls, c.NoSlashes) :
    Represents d ((Etcd.empty order).run d calls) (Registry.after calls) := by
  have hfrom : ∀ e r, Represents d e r → Represents d (e.run d calls)
      (calls.foldl Registry.apply r) := by
    induction calls with
    | nil => exact fun e r h => h
    | cons c calls ih =>
      intro e r h
      exact ih (fun c hc => hcalls c (List.mem_cons_of_mem _ hc)) _ _
        (h.exec (hcalls c List.mem_cons_self))
  exact hfrom _ _ (empty d order)

/-! ### Queries -/

/-- An answer consists of the entries whose keys have the prefix. -/
theorem mem_ls (h : Represents d e r) {path : String} {entry : Σ _ : String, String} :
    entry ∈ e.ls path ↔
      ∃ x : Slot, x.key = entry.1 ∧ r.text d x = some entry.2 ∧ path.toList <+: x.key.toList := by
  obtain ⟨k, v⟩ := entry
  unfold Etcd.ls
  rw [List.mem_filter, e.order.mem_arrange, ← AList.mem_lookup_iff, Option.mem_def, h.entry,
    decide_eq_true_eq]
  constructor
  · rintro ⟨⟨x, rfl, hx⟩, hpath⟩
    exact ⟨x, rfl, hx, hpath⟩
  · rintro ⟨x, rfl, hx, hpath⟩
    exact ⟨⟨x, rfl, hx⟩, hpath⟩

theorem nodup_ls (e : Etcd) (path : String) : ((e.ls path).map Sigma.fst).Nodup := by
  have hsub : ((e.ls path).map Sigma.fst).Sublist
      ((e.order.arrange e.contents.entries).map Sigma.fst) := List.filter_sublist.map _
  exact (((e.order.perm _).map Sigma.fst).nodup_iff.mpr e.contents.nodupKeys).sublist hsub

/-- The entries found for the hosts of a shard. -/
theorem mem_ls_hosts (h : Represents d e r) {i s : String} (hi : NoSlash i) (hs : NoSlash s)
    {entry : Σ _ : String, String} :
    entry ∈ e.ls (i ++ "/searchers" ++ ("/" ++ s ++ "/hosts")) ↔
      (i, s, entry.2) ∈ r.hosts ∧ entry.1 = (Slot.host i s entry.2).key := by
  rw [h.mem_ls]
  constructor
  · rintro ⟨x, hkey, hx, hpath⟩
    have hfree := h.free x (hx ▸ Option.some_ne_none _)
    obtain ⟨addr, rfl⟩ := (Slot.hosts_prefix_iff hfree hi hs).mp hpath
    obtain ⟨hmem, hvalue⟩ := Option.ite_none_right_eq_some.mp hx
    obtain rfl := Option.some.inj hvalue
    exact ⟨hmem, hkey.symm⟩
  · rintro ⟨hmem, hkey⟩
    refine ⟨.host i s entry.2, hkey.symm, if_pos hmem, ?_⟩
    have hfree : (Slot.host i s entry.2).Free := ⟨hi, hs⟩
    exact (Slot.hosts_prefix_iff hfree hi hs).mpr ⟨_, rfl⟩

theorem mem_listSearcherHosts (h : Represents d e r) {i s : String} (hi : NoSlash i)
    (hs : NoSlash s) {addr : String} :
    addr ∈ e.listSearcherHosts i (some s) ↔ (i, s, addr) ∈ r.hosts := by
  show addr ∈ (e.ls _).map _ ↔ _
  rw [List.mem_map]
  constructor
  · rintro ⟨entry, hentry, rfl⟩
    exact ((h.mem_ls_hosts hi hs).mp hentry).1
  · intro hmem
    exact ⟨⟨(Slot.host i s addr).key, addr⟩, (h.mem_ls_hosts hi hs).mpr ⟨hmem, rfl⟩, rfl⟩

theorem nodup_listSearcherHosts (h : Represents d e r) {i s : String} (hi : NoSlash i)
    (hs : NoSlash s) : (e.listSearcherHosts i (some s)).Nodup := by
  refine (List.Nodup.of_map _ (nodup_ls e _)).map_on fun a ha b hb heq => ?_
  obtain ⟨-, hka⟩ := (h.mem_ls_hosts hi hs).mp ha
  obtain ⟨-, hkb⟩ := (h.mem_ls_hosts hi hs).mp hb
  obtain ⟨ka, va⟩ := a
  obtain ⟨kb, vb⟩ := b
  obtain rfl : va = vb := heq
  rw [show ka = _ from hka, show kb = _ from hkb]

/-- The response time of a shard is the last one stored for it. -/
theorem getSearcherAverageResponseTime_eq (h : Represents d e r) {i s : String} (hi : NoSlash i)
    (hs : NoSlash s) : e.getSearcherAverageResponseTime d i s =
      match r.times (i, s) with
      | none => d.zero
      | some time => d.stod (d.toString time) := by
  have hslot : (Slot.time i s).Free := ⟨hi, hs⟩
  have hmem : ∀ {entry : Σ _ : String, String},
      entry ∈ e.ls (i ++ "/searchers/" ++ s ++ "/stats/average_response_time") ↔
        (Slot.time i s).key = entry.1 ∧ (r.times (i, s)).map d.toString = some entry.2 := by
    intro entry
    rw [h.mem_ls]
    constructor
    · rintro ⟨x, hkey, hx, hpath⟩
      obtain rfl := (Slot.time_prefix_iff (h.free x (hx ▸ Option.some_ne_none _)) hi hs).mp hpath
      exact ⟨hkey, hx⟩
    · rintro ⟨hkey, hx⟩
      exact ⟨.time i s, hkey, hx, (Slot.time_prefix_iff hslot hi hs).mpr rfl⟩
  unfold Etcd.getSearcherAverageResponseTime Etcd.getAllValues
  generalize e.ls _ = answer at hmem
  cases htime : r.times (i, s) with
  | none =>
    cases answer with
    | nil => rfl
    | cons entry answer =>
      have hbad := (hmem.mp List.mem_cons_self).2
      rw [htime] at hbad
      cases hbad
  | some time =>
    cases answer with
    | nil =>
      have hentry : (⟨_, _⟩ : Σ _ : String, String) ∈ [] :=
        hmem.mpr ⟨rfl, by rw [htime]; rfl⟩
      cases hentry
    | cons entry answer =>
      have hvalue := (hmem.mp List.mem_cons_self).2
      rw [htime] at hvalue
      show d.stod entry.2 = d.stod (d.toString time)
      rw [← Option.some.inj hvalue]

/-- A shard is listed when it has any entry. -/
theorem listShardIds_eq (h : Represents d e r) {i : String} (hi : NoSlash i) :
    ∃ shards, e.listShardIds i = .ok shards ∧ shards.Nodup ∧
      ∀ s, s ∈ shards ↔ (∃ addr, (i, s, addr) ∈ r.hosts) ∨ r.times (i, s) ≠ none := by
  have hslot : ∀ entry ∈ e.ls (i ++ "/searchers"),
      ∃ x : Slot, x.Free ∧ x.key = entry.1 ∧ x.indexId = i ∧ r.text d x ≠ none := by
    intro entry hentry
    obtain ⟨x, hkey, hx, hpath⟩ := h.mem_ls.mp hentry
    have hsome : r.text d x ≠ none := hx ▸ Option.some_ne_none _
    have hfree := h.free x hsome
    exact ⟨x, hfree, hkey, (Slot.searchers_prefix_iff hfree hi).mp hpath, hsome⟩
  have hnames : (e.ls (i ++ "/searchers")).mapM (Etcd.nameAt 2) =
      .ok ((e.ls (i ++ "/searchers")).map fun entry => ((Etcd.split entry.1)[2]?).getD "") := by
    refine mapM_eq_map fun entry hentry => ?_
    obtain ⟨x, hfree, hkey, -, -⟩ := hslot entry hentry
    rw [Etcd.nameAt, ← hkey, Slot.split_key hfree]
    rfl
  refine ⟨_, bind_eq_ok.mpr ⟨_, hnames, rfl⟩, Writer.nodup_setOf _, fun s => ?_⟩
  rw [Writer.mem_setOf, List.mem_map]
  constructor
  · rintro ⟨entry, hentry, rfl⟩
    obtain ⟨x, hfree, hkey, rfl, hx⟩ := hslot entry hentry
    rw [← hkey, Slot.split_key hfree]
    cases x with
    | host i s addr =>
      left
      by_contra hnone
      exact hx (if_neg fun hmem => hnone ⟨addr, hmem⟩)
    | time i s =>
      right
      intro hnone
      exact hx (Option.map_eq_none_iff.mpr hnone)
  · have hlisted : ∀ x : Slot, r.text d x ≠ none → x.indexId = i →
        ∃ entry ∈ e.ls (i ++ "/searchers"), ((Etcd.split entry.1)[2]?).getD "" = x.shardId := by
      intro x hx hindex
      obtain ⟨v, hv⟩ := Option.ne_none_iff_exists'.mp hx
      refine ⟨⟨x.key, v⟩, h.mem_ls.mpr ⟨x, rfl, hv,
        (Slot.searchers_prefix_iff (h.free x hx) hi).mpr hindex⟩, ?_⟩
      rw [Slot.split_key (h.free x hx)]
      rfl
    rintro (⟨addr, hmem⟩ | htime)
    · refine hlisted (.host i s addr) ?_ rfl
      rw [Registry.text, if_pos hmem]
      exact Option.some_ne_none _
    · refine hlisted (.time i s) ?_ rfl
      rwa [Registry.text, ne_eq, Option.map_eq_none_iff]

end Represents

/-! ## What the client answers -/

/-- After any calls, the client lists for a shard the addresses added for exactly that shard and
not removed since, each once. Its response time is the last one stored for exactly that shard. -/
theorem registry_isolated (d : Doubles Time) (order : IterOrder (Σ _ : String, String))
    (calls : List (RegistryCall Time)) (hcalls : ∀ c ∈ calls, c.NoSlashes) (i s : String)
    (hi : NoSlash i) (hs : NoSlash s) :
    (((Etcd.empty order).run d calls).listSearcherHosts i (some s)).Nodup ∧
      (∀ addr, addr ∈ ((Etcd.empty order).run d calls).listSearcherHosts i (some s) ↔
        (i, s, addr) ∈ (Registry.after calls).hosts) ∧
      ((Etcd.empty order).run d calls).getSearcherAverageResponseTime d i s =
        match (Registry.after calls).times (i, s) with
        | none => d.zero
        | some time => d.stod (d.toString time) := by
  have h := Represents.run d order hcalls
  exact ⟨h.nodup_listSearcherHosts hi hs, fun _ => h.mem_listSearcherHosts hi hs,
    h.getSearcherAverageResponseTime_eq hi hs⟩

/-- Response times as the texts that are stored. -/
def texts : Doubles String where
  zero := "0"
  toString := id
  stod := id

/-- Hosts of two indexes, the id of one of which begins with the id of the other. -/
def nestedCalls : List (RegistryCall String) :=
  [.addSearcherHost "docs" "hosts" "a", .addSearcherHost "docs2" "hosts" "b",
    .addSearcherHost "docs" "hosts" "a/b", .removeSearcherHost "docs" "hosts" "a",
    .updateAverageResponseTime "docs2" "hosts" "1.5"]

theorem registry_isolated_nested :
    (((Etcd.empty (.insertion _)).run texts nestedCalls).listSearcherHosts "docs"
        (some "hosts")).Nodup ∧
      (∀ addr, addr ∈ ((Etcd.empty (.insertion _)).run texts nestedCalls).listSearcherHosts "docs"
          (some "hosts") ↔ ("docs", "hosts", addr) ∈ (Registry.after nestedCalls).hosts) ∧
      ((Etcd.empty (.insertion _)).run texts nestedCalls).getSearcherAverageResponseTime texts
        "docs" "hosts" = "0" :=
  registry_isolated texts (.insertion _) nestedCalls (by decide) "docs" "hosts" (by decide)
    (by decide)

/-- After any calls, the client lists exactly the shards that have a host if and only if every
shard a response time was ever stored for has one. -/
theorem shard_listed_iff (d : Doubles Time) (order : IterOrder (Σ _ : String, String))
    (calls : List (RegistryCall Time)) (hcalls : ∀ c ∈ calls, c.NoSlashes) (i : String)
    (hi : NoSlash i) :
    (∃ shards, ((Etcd.empty order).run d calls).listShardIds i = .ok shards ∧ shards.Nodup ∧
      ∀ s, s ∈ shards ↔ ∃ addr, (i, s, addr) ∈ (Registry.after calls).hosts) ↔
    ∀ s, (Registry.after calls).times (i, s) ≠ none →
      ∃ addr, (i, s, addr) ∈ (Registry.after calls).hosts := by
  obtain ⟨shards, hlist, hnodup, hmem⟩ := (Represents.run d order hcalls).listShardIds_eq hi
  constructor
  · rintro ⟨shards', hlist', -, hmem'⟩ s htime
    obtain rfl := Except.ok.inj (hlist.symm.trans hlist')
    exact (hmem' s).mp ((hmem s).mpr (.inr htime))
  · intro htimes
    refine ⟨shards, hlist, hnodup, fun s => (hmem s).trans ⟨?_, .inl⟩⟩
    rintro (hhost | htime)
    · exact hhost
    · exact htimes s htime

/-- The one host of a shard goes, after its response time was stored. -/
def lastHostGoes : List (RegistryCall String) :=
  [.addSearcherHost "docs" "east" "a", .updateAverageResponseTime "docs" "east" "1.5",
    .removeSearcherHost "docs" "east" "a"]

/-- The shard without hosts is still listed. -/
theorem shard_listed_without_host :
    (∀ c ∈ lastHostGoes, c.NoSlashes) ∧
      ((Etcd.empty (.insertion _)).run texts lastHostGoes).listShardIds "docs" = .ok ["east"] ∧
      ((Etcd.empty (.insertion _)).run texts lastHostGoes).listSearcherHosts "docs" (some "east") =
        [] ∧
      (Registry.after lastHostGoes).hosts = ∅ := by
  decide +kernel

theorem shard_listed_iff_nested :
    (∃ shards, ((Etcd.empty (.insertion _)).run texts nestedCalls).listShardIds "docs2" =
        .ok shards ∧ shards.Nodup ∧
      ∀ s, s ∈ shards ↔ ∃ addr, ("docs2", s, addr) ∈ (Registry.after nestedCalls).hosts) ↔
    ∀ s, (Registry.after nestedCalls).times ("docs2", s) ≠ none →
      ∃ addr, ("docs2", s, addr) ∈ (Registry.after nestedCalls).hosts :=
  shard_listed_iff texts (.insertion _) nestedCalls (by decide) "docs2" (by decide)

end Vecodex
