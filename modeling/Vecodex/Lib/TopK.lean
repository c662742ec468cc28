import Mathlib.Data.Finset.Sort
import Mathlib.Data.Finset.Card
import Mathlib.Order.Monotone.Basic

/-!
# The smallest elements of a finite set

`emplace` is the insertion of an ordered set kept as a strictly ascending list, and `keep` the
insertion followed by the removal of the last element when the list has grown past a bound.
`topK k s` is the specification: the `k` smallest elements of the finite set `s`, ascending.

Two laws carry the module. `foldl_keep` says that keeping elements one by one, in any order and
with repetitions, computes `topK` of the set of all elements seen. `topK_map_eq` compares two
sets through a monotone key: a subset that has, for every element left out, `k` elements of no
greater key lists the same `k` smallest keys.

`nearest` are the elements with the `k` smallest keys, for keys of elements that have no order of
their own.
-/

namespace Vecodex.Lib

variable {α : Type*} [LinearOrder α]

/-- Insertion into a strictly ascending list; an element already present is not repeated. -/
def emplace (x : α) : List α → List α
  | [] => [x]
  | y :: ys => if x < y then x :: y :: ys else if x = y then y :: ys else y :: emplace x ys

/-- Insertion followed by the eviction of the greatest element past the bound `k`. -/
def keep (k : Nat) (l : List α) (x : α) : List α :=
  if (emplace x l).length > k then (emplace x l).dropLast else emplace x l

/-- The `k` smallest elements of a finite set, ascending. -/
def topK (k : Nat) (s : Finset α) : List α := s.sort.take k

theorem mem_emplace {x z : α} {l : List α} : z ∈ emplace x l ↔ z = x ∨ z ∈ l := by
  induction l with
  | nil => simp [emplace]
  | cons y ys ih =>
    simp only [emplace]
    split
    · simp
    · split
      · next h => subst h; simp
      · simp only [List.mem_cons, ih]
        tauto

theorem pairwise_emplace {x : α} {l : List α} (h : l.Pairwise (· < ·)) :
    (emplace x l).Pairwise (· < ·) := by
  induction l with
  | nil => simp [emplace]
  | cons y ys ih =>
    obtain ⟨hy, hys⟩ := List.pairwise_cons.mp h
    simp only [emplace]
    split
    · next hxy =>
      refine List.pairwise_cons.mpr ⟨fun z hz => ?_, h⟩
      rcases List.mem_cons.mp hz with rfl | hz
      · exact hxy
      · exact hxy.trans (hy z hz)
    · next hxy =>
      split
      · exact h
      · next hne =>
        refine List.pairwise_cons.mpr ⟨fun z hz => ?_, ih hys⟩
        rcases mem_emplace.mp hz with rfl | hz
        · exact lt_of_le_of_ne (not_lt.mp hxy) (Ne.symm hne)
        · exact hy z hz

theorem pairwise_sort_lt (s : Finset α) : s.sort.Pairwise (· < ·) :=
  (Finset.sortedLT_sort s).pairwise

/-- A strictly ascending list is the sorted enumeration of its own elements. -/
theorem eq_sort_of_pairwise {l : List α} {s : Finset α} (h : l.Pairwise (· < ·))
    (hmem : ∀ x, x ∈ l ↔ x ∈ s) : l = s.sort := by
  have hnodup : l.Nodup := h.imp fun hab => hab.ne
  refine @List.Perm.eq_of_pairwise α (· < ·) _ _ ?_ h (pairwise_sort_lt s) ?_
  · intro a b _ _ hab hba
    exact absurd hab hba.not_gt
  · refine (List.perm_ext_iff_of_nodup hnodup (Finset.sort_nodup s _)).mpr fun x => ?_
    rw [hmem, Finset.mem_sort]

theorem emplace_sort [DecidableEq α] (x : α) (s : Finset α) :
    emplace x s.sort = (insert x s).sort := by
  refine eq_sort_of_pairwise (pairwise_emplace (pairwise_sort_lt s)) fun z => ?_
  rw [mem_emplace, Finset.mem_sort, Finset.mem_insert]

theorem length_emplace_le (x : α) (l : List α) : (emplace x l).length ≤ l.length + 1 := by
  induction l with
  | nil => simp [emplace]
  | cons y ys ih =>
    simp only [emplace]
    split
    · simp
    · split <;> simp only [List.length_cons] <;> omega

/-- Only the first `k` elements matter to the first `k` elements after an insertion. -/
theorem take_emplace_take (k : Nat) (x : α) (l : List α) :
    (emplace x (l.take k)).take k = (emplace x l).take k := by
  induction l generalizing k with
  | nil => simp
  | cons y ys ih =>
    cases k with
    | zero => simp
    | succ k =>
      simp only [List.take_succ_cons, emplace]
      split
      · rw [List.take_succ_cons, List.take_succ_cons]
        congr 1
        cases k with
        | zero => simp
        | succ k => rw [List.take_succ_cons, List.take_succ_cons, List.take_take]; simp
      · split
        · simp
        · rw [List.take_succ_cons, List.take_succ_cons, ih]

theorem keep_eq_take {k : Nat} {l : List α} (h : l.length ≤ k) (x : α) :
    keep k l x = (emplace x l).take k := by
  have hle := length_emplace_le x l
  unfold keep
  split
  · next hgt =>
    rw [List.dropLast_eq_take]
    congr 1
    omega
  · next hgt => rw [List.take_of_length_le (by omega)]

theorem length_topK (k : Nat) (s : Finset α) : (topK k s).length = min k s.card := by
  rw [topK, List.length_take, Finset.length_sort]

theorem mem_of_mem_topK {k : Nat} {s : Finset α} {x : α} (h : x ∈ topK k s) : x ∈ s :=
  (Finset.mem_sort _).mp (List.mem_of_mem_take h)

/-- A bound no set element is beyond keeps all of them. -/
theorem mem_topK_of_card_le {k : Nat} {s : Finset α} (h : s.card ≤ k) {x : α} :
    x ∈ topK k s ↔ x ∈ s := by
  rw [topK, List.take_of_length_le (by rw [Finset.length_sort]; exact h), Finset.mem_sort]

theorem pairwise_topK (k : Nat) (s : Finset α) : (topK k s).Pairwise (· < ·) :=
  (pairwise_sort_lt s).sublist (List.take_sublist _ _)

theorem nodup_topK (k : Nat) (s : Finset α) : (topK k s).Nodup :=
  (pairwise_topK k s).imp fun h => h.ne

theorem keep_topK [DecidableEq α] (k : Nat) (s : Finset α) (x : α) :
    keep k (topK k s) x = topK k (insert x s) := by
  rw [keep_eq_take (by rw [length_topK]; exact min_le_left _ _), topK, take_emplace_take,
    emplace_sort, topK]

/-- Keeping the elements of a list one by one lists the `k` smallest of all elements seen. -/
theorem foldl_keep [DecidableEq α] (k : Nat) (s : Finset α) (xs : List α) :
    xs.foldl (keep k) (topK k s) = topK k (s ∪ xs.toFinset) := by
  induction xs generalizing s with
  | nil => simp
  | cons x xs ih =>
    rw [List.foldl_cons, keep_topK, ih, List.toFinset_cons, Finset.insert_union,
      Finset.union_insert]

theorem topK_empty (k : Nat) : topK k (∅ : Finset α) = [] := by simp [topK]

/-- Whatever is left out of the `k` smallest lies above all of them, and there are `k` of them. -/
theorem topK_le_of_not_mem {k : Nat} {s : Finset α} {y : α} (hy : y ∈ s) (hny : y ∉ topK k s) :
    (topK k s).length = k ∧ ∀ x ∈ topK k s, x < y := by
  have hsplit : y ∈ s.sort.take k ++ s.sort.drop k := by
    rw [List.take_append_drop]; exact (Finset.mem_sort _).mpr hy
  have hdrop : y ∈ s.sort.drop k := by
    rcases List.mem_append.mp hsplit with h | h
    · exact absurd h hny
    · exact h
  have hlen : k < s.sort.length := by
    by_contra hle
    rw [List.drop_eq_nil_of_le (not_lt.mp hle)] at hdrop
    cases hdrop
  constructor
  · rw [topK, List.length_take]
    omega
  · intro x hx
    have hsorted : (s.sort.take k ++ s.sort.drop k).Pairwise (· < ·) := by
      rw [List.take_append_drop]; exact pairwise_sort_lt s
    exact (List.pairwise_append.mp hsorted).2.2 x hx y hdrop

/-! ## Comparison through a monotone key -/

section Key

variable {δ : Type*} [LinearOrder δ] {key : α → δ}

/-- `r` lists, for every element of `s` it leaves out, `k` elements of no greater key. -/
def Dominates (key : α → δ) (k : Nat) (r s : Finset α) : Prop :=
  ∀ y ∈ s, y ∉ r → k ≤ (r.filter fun x => key x ≤ key y).card

/-- Of a dominating subset, the `k` smallest elements have keys below everything left out. -/
theorem Dominates.key_le (hkey : Monotone key) {k : Nat} {r s : Finset α}
    (hdom : Dominates key k r s) {x y : α} (hx : x ∈ topK k r) (hy : y ∈ s)
    (hny : y ∉ topK k r) : key x ≤ key y := by
  by_cases hyr : y ∈ r
  · exact hkey ((topK_le_of_not_mem hyr hny).2 x hx).le
  · -- otherwise the `k` elements with keys below `y` all precede `x`, and `x` makes `k + 1`
    by_contra hlt
    have hbelow : (r.filter fun z => key z ≤ key y) ⊆ (topK k r).toFinset.erase x := by
      intro z hz
      obtain ⟨hzr, hzy⟩ := Finset.mem_filter.mp hz
      have hzx : key z < key x := lt_of_le_of_lt hzy (not_le.mp hlt)
      refine Finset.mem_erase.mpr ⟨fun h => absurd (h ▸ hzx) (lt_irrefl _), ?_⟩
      rw [List.mem_toFinset]
      by_contra hnz
      exact absurd (hkey ((topK_le_of_not_mem hzr hnz).2 x hx).le) (not_le.mpr hzx)
    have hcard := Finset.card_le_card hbelow
    rw [Finset.card_erase_of_mem (List.mem_toFinset.mpr hx),
      List.toFinset_card_of_nodup (nodup_topK k r), length_topK] at hcard
    have hpos : 0 < (topK k r).length := List.length_pos_of_mem hx
    rw [length_topK] at hpos
    have := hdom y hy hyr
    omega

/-- A list of elements of `s` with ascending keys below everything left out starts the sorted
enumeration of the keys of `s`. -/
theorem map_sort_eq_append (hkey : Monotone key) {s : Finset α} {l : List α} (hnodup : l.Nodup)
    (hsub : ∀ x ∈ l, x ∈ s) (hsorted : (l.map key).Pairwise (· ≤ ·))
    (hout : ∀ x ∈ l, ∀ y ∈ s, y ∉ l → key x ≤ key y) :
    s.sort.map key = l.map key ++ ((s \ l.toFinset).sort).map key := by
  have hperm : s.sort.Perm (l ++ (s \ l.toFinset).sort) := by
    refine (List.perm_ext_iff_of_nodup (Finset.sort_nodup s _) ?_).mpr fun x => ?_
    · refine List.nodup_append.mpr ⟨hnodup, Finset.sort_nodup _ _, fun a ha b hb hab => ?_⟩
      rw [Finset.mem_sort, Finset.mem_sdiff, List.mem_toFinset] at hb
      exact hb.2 (hab ▸ ha)
    · rw [Finset.mem_sort, List.mem_append, Finset.mem_sort, Finset.mem_sdiff, List.mem_toFinset]
      constructor
      · intro hx
        by_cases hl : x ∈ l
        · exact Or.inl hl
        · exact Or.inr ⟨hx, hl⟩
      · rintro (hl | ⟨hx, _⟩)
        · exact hsub x hl
        · exact hx
  rw [← List.map_append]
  have hascending : ∀ t : Finset α, (t.sort.map key).Pairwise (· ≤ ·) := fun t =>
    (pairwise_sort_lt t).map key fun _ _ hab => hkey hab.le
  refine @List.Perm.eq_of_pairwise δ (· ≤ ·) _ _ (fun a b _ _ => le_antisymm) (hascending s) ?_
    (hperm.map key)
  rw [List.map_append]
  refine List.pairwise_append.mpr ⟨hsorted, hascending _, fun a ha b hb => ?_⟩
  obtain ⟨x, hx, rfl⟩ := List.mem_map.mp ha
  obtain ⟨y, hy, rfl⟩ := List.mem_map.mp hb
  rw [Finset.mem_sort, Finset.mem_sdiff, List.mem_toFinset] at hy
  exact hout x hx y hy.1 hy.2

/-- A dominating subset has the same `k` smallest keys as the whole set. -/
theorem topK_map_eq (hkey : Monotone key) {k : Nat} {r s : Finset α} (hsub : r ⊆ s)
    (hdom : Dominates key k r s) : (topK k r).map key = (topK k s).map key := by
  have hle : r.card ≤ s.card := Finset.card_le_card hsub
  have hlen : (topK k r).length = min k s.card := by
    rw [length_topK]
    by_cases hrs : s ⊆ r
    · rw [Finset.Subset.antisymm hsub hrs]
    · obtain ⟨y, hy, hny⟩ := Finset.not_subset.mp hrs
      have h1 := hdom y hy hny
      have h2 := Finset.card_filter_le r fun x => key x ≤ key y
      omega
  have hsplit := map_sort_eq_append hkey (nodup_topK k r)
    (fun x hx => hsub (mem_of_mem_topK hx))
    ((pairwise_topK k r).map key fun _ _ hab => hkey hab.le)
    (fun x hx y hy hny => hdom.key_le hkey hx hy hny)
  have hrest : k ≤ (topK k r).length ∨ s \ (topK k r).toFinset = ∅ := by
    by_cases hk : k ≤ (topK k r).length
    · exact Or.inl hk
    · right
      have hall : (topK k r).toFinset = s := by
        refine Finset.eq_of_subset_of_card_le ?_ ?_
        · intro x hx
          exact hsub (mem_of_mem_topK (List.mem_toFinset.mp hx))
        · rw [List.toFinset_card_of_nodup (nodup_topK k r)]
          omega
      rw [hall, Finset.sdiff_self]
  rw [topK, topK, List.map_take, List.map_take, hsplit, ← List.map_take]
  change (topK k r).map key = _
  rcases hrest with hk | hempty
  · rw [List.take_append_of_le_length (by rw [List.length_map]; exact hk), ← List.map_take,
      List.take_of_length_le (by omega)]
  · rw [hempty, Finset.sort_empty, List.map_nil, List.append_nil, ← List.map_take,
      List.take_of_length_le (by omega)]

/-- Where keys tell elements apart, it has the same `k` smallest elements. -/
theorem topK_eq_of_injOn (hkey : Monotone key) {k : Nat} {r s : Finset α} (hsub : r ⊆ s)
    (hdom : Dominates key k r s)
    (hinj : ∀ x ∈ s, ∀ y ∈ s, key x = key y → x = y) : topK k r = topK k s := by
  have hsame := topK_map_eq hkey hsub hdom
  have hlen := congrArg List.length hsame
  rw [List.length_map, List.length_map] at hlen
  refine List.ext_getElem hlen fun n hn hn' => ?_
  refine hinj _ (hsub (mem_of_mem_topK (List.getElem_mem hn))) _
    (mem_of_mem_topK (List.getElem_mem hn')) ?_
  have hget : ((topK k r).map key)[n]? = ((topK k s).map key)[n]? := by rw [hsame]
  rw [List.getElem?_map, List.getElem?_map, List.getElem?_eq_getElem hn,
    List.getElem?_eq_getElem hn'] at hget
  exact Option.some.inj hget

end Key

/-- The `k` smallest elements are those with fewer than `k` elements below them. -/
theorem mem_topK_iff {k : Nat} {s : Finset α} {x : α} (hx : x ∈ s) :
    x ∈ topK k s ↔ (s.filter (· < x)).card < k := by
  constructor
  · intro hmem
    have hsub : s.filter (· < x) ⊆ (topK k s).toFinset.erase x := by
      intro y hy
      obtain ⟨hys, hlt⟩ := Finset.mem_filter.mp hy
      refine Finset.mem_erase.mpr ⟨hlt.ne, List.mem_toFinset.mpr ?_⟩
      by_contra hout
      exact lt_asymm hlt ((topK_le_of_not_mem hys hout).2 x hmem)
    have hcard := Finset.card_le_card hsub
    have hpos := List.length_pos_of_mem hmem
    rw [Finset.card_erase_of_mem (List.mem_toFinset.mpr hmem),
      List.toFinset_card_of_nodup (nodup_topK k s)] at hcard
    have hlen := length_topK k s
    omega
  · intro hfew
    by_contra hout
    obtain ⟨hlen, hlt⟩ := topK_le_of_not_mem hx hout
    have hsub : (topK k s).toFinset ⊆ s.filter (· < x) := fun y hy =>
      Finset.mem_filter.mpr ⟨mem_of_mem_topK (List.mem_toFinset.mp hy),
        hlt y (List.mem_toFinset.mp hy)⟩
    have hcard := Finset.card_le_card hsub
    rw [List.toFinset_card_of_nodup (nodup_topK k s)] at hcard
    omega

/-! ## The elements with the smallest keys -/

section Nearest

variable {β δ : Type*} [LinearOrder δ] {key : β → δ}

/-- The elements of a finite set with fewer than `k` elements of smaller key. -/
def nearest (key : β → δ) (k : Nat) (s : Finset β) : Finset β :=
  s.filter fun a => (s.filter fun b => key b < key a).card < k

theorem mem_nearest {k : Nat} {s : Finset β} {a : β} :
    a ∈ nearest key k s ↔ a ∈ s ∧ (s.filter fun b => key b < key a).card < k :=
  Finset.mem_filter

/-- An element that is among the nearest of a set is among the nearest of every part it is in. -/
theorem mem_nearest_of_subset {k : Nat} {r s : Finset β} (hsub : r ⊆ s) {a : β}
    (ha : a ∈ nearest key k s) (har : a ∈ r) : a ∈ nearest key k r :=
  mem_nearest.mpr ⟨har, (Finset.card_le_card (Finset.filter_subset_filter _ hsub)).trans_lt
    (mem_nearest.mp ha).2⟩

section InjOn

variable {s : Finset β} (hinj : Set.InjOn key s)
include hinj

/-- Where keys tell elements apart, these are the elements with the `k` smallest keys. -/
theorem mem_nearest_iff {k : Nat} {a : β} :
    a ∈ nearest key k s ↔ a ∈ s ∧ key a ∈ topK k (s.image key) := by
  rw [mem_nearest, and_congr_right_iff]
  intro ha
  have hsub : Set.InjOn key (s.filter fun b => key b < key a) :=
    hinj.mono (Finset.filter_subset _ s)
  rw [mem_topK_iff (Finset.mem_image_of_mem key ha), Finset.filter_image,
    Finset.card_image_of_injOn hsub]

/-- And there are `k` of them, as far as the set has so many. -/
theorem card_nearest (k : Nat) : (nearest key k s).card = min k s.card := by
  have himage : (nearest key k s).image key = (topK k (s.image key)).toFinset := by
    ext x
    rw [Finset.mem_image, List.mem_toFinset]
    constructor
    · rintro ⟨a, ha, rfl⟩
      exact ((mem_nearest_iff hinj).mp ha).2
    · intro hx
      obtain ⟨a, ha, rfl⟩ := Finset.mem_image.mp (mem_of_mem_topK hx)
      exact ⟨a, (mem_nearest_iff hinj).mpr ⟨ha, hx⟩, rfl⟩
  have hsub : Set.InjOn key (nearest key k s) := hinj.mono (Finset.filter_subset _ s)
  rw [← Finset.card_image_of_injOn hsub, himage, List.toFinset_card_of_nodup (nodup_topK k _),
    length_topK, Finset.card_image_of_injOn hinj]

end InjOn

end Nearest

end Vecodex.Lib
