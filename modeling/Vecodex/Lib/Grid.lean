import Mathlib.Algebra.BigOperators.Group.List.Basic
import Mathlib.Algebra.Order.Ring.Nat
import Mathlib.Data.List.Basic
import Mathlib.Data.List.Perm.Basic

/-!
# Rows of nullable cells

A grid is a list of rows whose cells may be null, as a vector of vectors of pointers is.
`Grid.items` reads the non-null cells. `Grid.promote` empties two neighbouring cells of a row
and appends the item of the first to the next row, growing the grid when there is none.

`items_promote` says that exactly the second item left. `weight_promote` bounds the growth of
the rows above by the cells the row itself lost, which is why a sweep that promotes from row to
row ends (`Grid.weight`).

`cell` and `push` are total. `cell?` and `push?` are the same accesses with their ranges checked,
as a vector that reports an index behind its end would have them.
-/

namespace Vecodex.Lib

/-- Rows of cells, each null or holding an item. -/
abbrev Grid (α : Type) := List (List (Option α))

namespace Grid

variable {α : Type}

/-- The items of the grid, row by row. -/
def items (g : Grid α) : List α := g.flatMap fun row => row.filterMap id

/-- The content of cell `j` of row `i`; a cell that does not exist reads as null. -/
def cell (g : Grid α) (i j : Nat) : Option α := (g[i]?.bind fun row => row[j]?).join

/-- The grid with `a` appended to row `i`; the row is created when it is the next one. -/
def push (g : Grid α) (i : Nat) (a : α) : Grid α :=
  (if i = g.length then g ++ [[]] else g).modify i fun row => row ++ [some a]

/-- The grid with cells `j` and `j + 1` of row `i` emptied. -/
def clearPair (g : Grid α) (i j : Nat) : Grid α :=
  g.modify i fun row => (row.set j none).set (j + 1) none

/-- Move `a` from cell `j` of row `i` to the end of the next row, emptying cell `j + 1` too. -/
def promote (g : Grid α) (i j : Nat) (a : α) : Grid α := (g.push (i + 1) a).clearPair i j

/-- The grid with its null cells removed from every row. -/
def compact (g : Grid α) : Grid α := g.map fun row => row.filter Option.isSome

theorem items_cons (row : List (Option α)) (g : Grid α) :
    items (row :: g) = row.filterMap id ++ items g := rfl

theorem items_append (g g' : Grid α) : items (g ++ g') = items g ++ items g' := by
  simp [items]

theorem mem_items {g : Grid α} {a : α} : a ∈ items g ↔ ∃ row ∈ g, some a ∈ row := by
  simp [items, List.mem_flatMap, List.mem_filterMap]

theorem cell_eq_some {g : Grid α} {i j : Nat} {a : α} :
    g.cell i j = some a ↔ ∃ row, g[i]? = some row ∧ row[j]? = some (some a) := by
  simp [cell, Option.join_eq_some_iff, Option.bind_eq_some_iff]

theorem items_compact (g : Grid α) : items (compact g) = items g := by
  induction g with
  | nil => rfl
  | cons row g ih =>
    rw [compact, List.map_cons, items_cons, items_cons]
    change _ ++ items (compact g) = _
    rw [ih, List.filterMap_filter]
    congr 1
    refine List.filterMap_congr fun x _ => ?_
    cases x <;> rfl

private theorem modify_append_cons {β : Type} (pre : List β) (x : β) (post : List β) (f : β → β) :
    (pre ++ x :: post).modify pre.length f = pre ++ f x :: post := by
  induction pre with
  | nil => simp
  | cons y pre ih => simp [ih]

private theorem set_append_cons {β : Type} (pre : List β) (x y : β) (post : List β) :
    (pre ++ x :: post).set pre.length y = pre ++ y :: post := by
  simp

/-- Pushing into an existing or the next row adds one item. -/
theorem items_push {g : Grid α} {i : Nat} (h : i ≤ g.length) (a : α) :
    (items (g.push i a)).Perm (a :: items g) := by
  have hadd : ∀ (pre : Grid α) (row : List (Option α)) (post : Grid α),
      (items (pre ++ (row ++ [some a]) :: post)).Perm (a :: items (pre ++ row :: post)) := by
    intro pre row post
    rw [items_append, items_cons, items_append, items_cons, List.filterMap_append]
    simp only [List.filterMap_cons, id_eq, List.filterMap_nil, List.append_assoc,
      List.singleton_append]
    rw [← List.append_assoc, ← List.append_assoc]
    exact List.perm_middle
  unfold push
  split
  · next heq =>
    subst heq
    have := modify_append_cons g [] [] fun row => row ++ [some a]
    rw [this]
    refine (hadd g [] []).trans ?_
    rw [items_append]
    simp [items]
  · next hne =>
    have hlt : i < g.length := by omega
    have hsplit : g = g.take i ++ g[i] :: g.drop (i + 1) := by simp
    have hlen : (g.take i).length = i := by simp; omega
    have := modify_append_cons (g.take i) g[i] (g.drop (i + 1)) fun row => row ++ [some a]
    rw [hlen, ← hsplit] at this
    rw [this]
    conv_rhs => rw [hsplit]
    exact hadd _ _ _

/-- The row of a non-null cell, split around the cell and its neighbour. -/
theorem exists_of_cells {g : Grid α} {i j : Nat} {a b : α} (ha : g.cell i j = some a)
    (hb : g.cell i (j + 1) = some b) :
    ∃ (pre : Grid α) (left right : List (Option α)) (post : Grid α),
      g = pre ++ (left ++ some a :: some b :: right) :: post ∧ pre.length = i ∧
        left.length = j := by
  obtain ⟨row, hi, ha⟩ := cell_eq_some.mp ha
  obtain ⟨row', hi', hb⟩ := cell_eq_some.mp hb
  obtain rfl : row = row' := Option.some.inj (hi.symm.trans hi')
  obtain ⟨hi, rfl⟩ := List.getElem?_eq_some_iff.mp hi
  obtain ⟨hj, ha⟩ := List.getElem?_eq_some_iff.mp ha
  obtain ⟨hj', hb⟩ := List.getElem?_eq_some_iff.mp hb
  refine ⟨g.take i, (g[i]).take j, (g[i]).drop (j + 2), g.drop (i + 1), ?_, by simp; omega,
    by simp; omega⟩
  have hrow : g[i] = (g[i]).take j ++ some a :: some b :: (g[i]).drop (j + 2) := by
    conv_lhs => rw [← List.take_append_drop j g[i]]
    rw [List.drop_eq_getElem_cons hj, ha, List.drop_eq_getElem_cons hj', hb]
  rw [← hrow]
  simp

/-- `promote` on a grid split around the two cells. -/
theorem promote_eq (pre : Grid α) (left right : List (Option α)) (post : Grid α) (a b c : α) :
    promote (pre ++ (left ++ some a :: some b :: right) :: post) pre.length left.length c =
      pre ++ (left ++ none :: none :: right) ::
        (match post with
         | [] => [[some c]]
         | row :: rows => (row ++ [some c]) :: rows) := by
  have hclear : ∀ post' : Grid α,
      clearPair (pre ++ (left ++ some a :: some b :: right) :: post') pre.length left.length =
        pre ++ (left ++ none :: none :: right) :: post' := by
    intro post'
    unfold clearPair
    rw [modify_append_cons, set_append_cons]
    have := set_append_cons (left ++ [none]) (some b) none right
    simp only [List.length_append, List.length_singleton, List.append_assoc,
      List.singleton_append] at this
    rw [this]
  unfold promote push
  cases post with
  | nil =>
    rw [if_pos (by simp)]
    have := modify_append_cons (pre ++ [left ++ some a :: some b :: right]) [] []
      fun row => row ++ [some c]
    simp only [List.length_append, List.length_singleton, List.append_assoc,
      List.singleton_append, List.nil_append] at this
    rw [List.append_assoc, List.singleton_append, this, hclear]
  | cons row rows =>
    rw [if_neg (by simp)]
    have := modify_append_cons (pre ++ [left ++ some a :: some b :: right]) row rows
      fun row => row ++ [some c]
    simp only [List.length_append, List.length_singleton, List.append_assoc,
      List.singleton_append] at this
    rw [this, hclear]

/-- Promoting the first of two neighbours removes the second and nothing else. -/
theorem items_promote {g : Grid α} {i j : Nat} {a b : α} (ha : g.cell i j = some a)
    (hb : g.cell i (j + 1) = some b) : (items g).Perm (b :: items (g.promote i j a)) := by
  obtain ⟨pre, left, right, post, rfl, rfl, rfl⟩ := exists_of_cells ha hb
  rw [promote_eq]
  have hbump : (items (match post with
      | [] => [[some a]]
      | row :: rows => (row ++ [some a]) :: rows)).Perm (a :: items post) := by
    cases post with
    | nil => simp [items]
    | cons row rows =>
      simp only [items_cons, List.filterMap_append, List.filterMap_cons, id_eq,
        List.filterMap_nil, List.append_assoc, List.singleton_append]
      exact List.perm_middle
  rw [items_append, items_cons, items_append, items_cons]
  simp only [List.filterMap_append, List.filterMap_cons, id_eq]
  have h1 : (items pre ++ (left.filterMap id ++ a :: b :: right.filterMap id ++ items post)).Perm
      (b :: (items pre ++ (left.filterMap id ++ right.filterMap id ++ a :: items post))) := by
    classical
    refine List.perm_iff_count.mpr fun x => ?_
    simp only [List.count_append, List.count_cons]
    omega
  refine h1.trans (List.Perm.cons b (List.Perm.append_left _ (List.Perm.append_left _ ?_)))
  exact hbump.symm

/-- Promoting within row `i` leaves no more in the row than was there. -/
theorem cell_of_cell_promote {g : Grid α} {i j j' : Nat} {c a : α}
    (h : (g.promote i j c).cell i j' = some a) : g.cell i j' = some a ∧ j' ≠ j := by
  obtain ⟨row, hrow, ha⟩ := cell_eq_some.mp h
  have hpush : (g.push (i + 1) c)[i]? = g[i]? := by
    unfold push
    rw [List.getElem?_modify_ne _ _ (Nat.succ_ne_self i)]
    split
    · exact List.getElem?_append_left (by omega)
    · rfl
  rw [promote, clearPair, List.getElem?_modify_eq, hpush, Option.map_eq_map,
    Option.map_eq_some_iff] at hrow
  obtain ⟨old, hold, rfl⟩ := hrow
  rw [List.getElem?_set, List.getElem?_set] at ha
  split at ha
  · split at ha <;> cases ha
  · split at ha
    · split at ha <;> cases ha
    · next hne => exact ⟨cell_eq_some.mpr ⟨old, hold, ha⟩, fun h => hne h.symm⟩

/-- A grid without repeated items has an item in one cell of a row at most. -/
theorem cell_inj {g : Grid α} (hnodup : (items g).Nodup) {i j j' : Nat} {a : α}
    (h : g.cell i j = some a) (h' : g.cell i j' = some a) : j = j' := by
  obtain ⟨row, hrow, ha⟩ := cell_eq_some.mp h
  obtain ⟨row', hrow', ha'⟩ := cell_eq_some.mp h'
  obtain rfl : row = row' := Option.some.inj (hrow.symm.trans hrow')
  have hsub : (row.filterMap id).Sublist (items g) :=
    List.sublist_flatten_of_mem (List.mem_map_of_mem (List.mem_of_getElem? hrow))
  replace hnodup := hnodup.sublist hsub
  clear hrow hrow' hsub h h'
  induction row generalizing j j' with
  | nil => cases ha
  | cons c row ih =>
    have hmem : ∀ {n}, row[n]? = some (some a) → a ∈ row.filterMap id := fun hn =>
      List.mem_filterMap.mpr ⟨_, List.mem_of_getElem? hn, rfl⟩
    cases j with
    | zero =>
      cases j' with
      | zero => rfl
      | succ j' =>
        cases ha
        exact absurd (hmem ha') (List.nodup_cons.mp hnodup).1
    | succ j =>
      cases j' with
      | zero =>
        cases ha'
        exact absurd (hmem ha) (List.nodup_cons.mp hnodup).1
      | succ j' =>
        have htail : (row.filterMap id).Nodup := by
          cases c with
          | none => exact hnodup
          | some c => exact (List.nodup_cons.mp hnodup).2
        rw [ih ha ha' htail]

/-! ## Rows -/

/-- The item stands in row `i`. -/
def InRow (g : Grid α) (i : Nat) (a : α) : Prop := ∃ row, g[i]? = some row ∧ some a ∈ row

theorem InRow.mem_items {g : Grid α} {i : Nat} {a : α} (h : g.InRow i a) : a ∈ items g := by
  obtain ⟨row, hrow, ha⟩ := h
  exact Grid.mem_items.mpr ⟨row, List.mem_of_getElem? hrow, ha⟩

theorem inRow_of_cell {g : Grid α} {i j : Nat} {a : α} (h : g.cell i j = some a) :
    g.InRow i a := by
  obtain ⟨row, hrow, ha⟩ := cell_eq_some.mp h
  exact ⟨row, hrow, List.mem_of_getElem? ha⟩

/-- A grid without repeated items has an item in one row at most. -/
theorem InRow.unique {g : Grid α} (hnodup : (items g).Nodup) {i i' : Nat} {a : α}
    (h : g.InRow i a) (h' : g.InRow i' a) : i = i' := by
  induction g generalizing i i' with
  | nil =>
    obtain ⟨row, hrow, -⟩ := h
    cases hrow
  | cons row g ih =>
    rw [items_cons, List.nodup_append] at hnodup
    obtain ⟨-, hrest, hapart⟩ := hnodup
    obtain ⟨r, hr, ha⟩ := h
    obtain ⟨r', hr', ha'⟩ := h'
    have hin : ∀ {r : List (Option α)}, some a ∈ r → a ∈ r.filterMap id := fun ha =>
      List.mem_filterMap.mpr ⟨_, ha, rfl⟩
    cases i with
    | zero =>
      cases i' with
      | zero => rfl
      | succ i' =>
        cases hr
        exact absurd rfl (hapart a (hin ha) a (InRow.mem_items ⟨r', hr', ha'⟩))
    | succ i =>
      cases i' with
      | zero =>
        cases hr'
        exact absurd rfl (hapart a (hin ha') a (InRow.mem_items ⟨r, hr, ha⟩))
      | succ i' => rw [ih hrest ⟨r, hr, ha⟩ ⟨r', hr', ha'⟩]

/-- A new empty row holds nothing. -/
theorem InRow.of_grown {g : Grid α} {i : Nat} {a : α} (h : InRow (g ++ [[]]) i a) :
    g.InRow i a := by
  obtain ⟨row, hrow, ha⟩ := h
  rw [List.getElem?_append] at hrow
  split at hrow
  · exact ⟨row, hrow, ha⟩
  · obtain rfl : row = [] := by simpa using List.mem_of_getElem? hrow
    cases ha

theorem inRow_push {g : Grid α} {i k : Nat} {a b : α} (h : (g.push i a).InRow k b) :
    k = i ∧ b = a ∨ g.InRow k b := by
  obtain ⟨row, hrow, hb⟩ := h
  rw [push, List.getElem?_modify] at hrow
  obtain ⟨old, hold, rfl⟩ := Option.map_eq_some_iff.mp hrow
  have hgrown : ∀ {c}, some c ∈ old → g.InRow k c := by
    intro c hc
    split at hold
    · exact InRow.of_grown ⟨old, hold, hc⟩
    · exact ⟨old, hold, hc⟩
  split at hb
  · next hik =>
    rcases List.mem_append.mp hb with hb | hb
    · exact Or.inr (hgrown hb)
    · exact Or.inl ⟨hik.symm, Option.some.inj (List.mem_singleton.mp hb)⟩
  · exact Or.inr (hgrown hb)

theorem InRow.of_clearPair {g : Grid α} {i j k : Nat} {b : α} (h : (g.clearPair i j).InRow k b) :
    g.InRow k b := by
  obtain ⟨row, hrow, hb⟩ := h
  rw [clearPair, List.getElem?_modify] at hrow
  obtain ⟨old, hold, rfl⟩ := Option.map_eq_some_iff.mp hrow
  refine ⟨old, hold, ?_⟩
  split at hb
  · rcases List.mem_or_eq_of_mem_set hb with hb | hb
    · rcases List.mem_or_eq_of_mem_set hb with hb | hb
      · exact hb
      · cases hb
    · cases hb
  · exact hb

theorem inRow_promote {g : Grid α} {i j k : Nat} {a b : α} (h : (g.promote i j a).InRow k b) :
    k = i + 1 ∧ b = a ∨ g.InRow k b :=
  inRow_push h.of_clearPair

theorem inRow_promote_self {g : Grid α} {i j : Nat} {a b : α} (ha : g.cell i j = some a)
    (hb : g.cell i (j + 1) = some b) (c : α) : (g.promote i j c).InRow (i + 1) c := by
  obtain ⟨pre, left, right, post, rfl, rfl, rfl⟩ := exists_of_cells ha hb
  rw [promote_eq]
  cases post with
  | nil => exact ⟨[some c], by simp, List.mem_singleton_self _⟩
  | cons row rows => exact ⟨row ++ [some c], by simp, by simp⟩

theorem InRow.of_compact {g : Grid α} {k : Nat} {b : α} (h : g.compact.InRow k b) :
    g.InRow k b := by
  obtain ⟨row, hrow, hb⟩ := h
  rw [compact, List.getElem?_map] at hrow
  obtain ⟨old, hold, rfl⟩ := Option.map_eq_some_iff.mp hrow
  exact ⟨old, hold, List.mem_of_mem_filter hb⟩

/-- Compaction leaves no null cell. -/
theorem not_null_compact (g : Grid α) : ∀ row ∈ g.compact, none ∉ row := by
  intro row hrow hnone
  obtain ⟨old, -, rfl⟩ := List.mem_map.mp hrow
  simpa using List.of_mem_filter hnone

/-! ## Grids without null cells -/

/-- No cell is null. -/
def Full (g : Grid α) : Prop := ∀ row ∈ g, none ∉ row

namespace Full

variable {g : Grid α}

theorem grow (h : g.Full) : Full (g ++ [[]]) := by
  intro row hrow
  rcases List.mem_append.mp hrow with hrow | hrow
  · exact h row hrow
  · rw [List.mem_singleton.mp hrow]
    exact List.not_mem_nil

theorem push (h : g.Full) (i : Nat) (a : α) : (g.push i a).Full := by
  have hgrown : Full (if i = g.length then g ++ [[]] else g) := by
    split
    · exact h.grow
    · exact h
  intro row hrow
  obtain ⟨k, hk⟩ := List.mem_iff_getElem?.mp hrow
  rw [Grid.push, List.getElem?_modify] at hk
  obtain ⟨old, hold, rfl⟩ := Option.map_eq_some_iff.mp hk
  have hcells := hgrown old (List.mem_of_getElem? hold)
  by_cases hik : i = k
  · simpa [hik] using hcells
  · simpa [hik] using hcells

/-- There is nothing to compact. -/
theorem compact (h : g.Full) : g.compact = g := by
  refine (List.map_congr_left fun row hrow => ?_).trans g.map_id
  refine List.filter_eq_self.mpr ?_
  intro cell hcell
  cases cell with
  | none => exact absurd hcell (h row hrow)
  | some a => rfl

end Full

/-! ## Checked accesses -/

/-- Cell `j` of row `i`, if there is one. -/
def cell? (g : Grid α) (i j : Nat) : Option (Option α) := g[i]?.bind fun row => row[j]?

/-- `push`, if row `i` exists once the grid was grown. -/
def push? (g : Grid α) (i : Nat) (a : α) : Option (Grid α) :=
  let g := if i = g.length then g ++ [[]] else g
  g[i]?.map fun row => g.set i (row ++ [some a])

/-- The number of cells of row `i`. -/
def width (g : Grid α) (i : Nat) : Nat := (g[i]?.getD []).length

theorem cell?_eq {g : Grid α} {i j : Nat} (h : j < g.width i) :
    g.cell? i j = some (g.cell i j) := by
  unfold cell? cell
  unfold width at h
  cases hrow : g[i]? with
  | none =>
    rw [hrow] at h
    cases h
  | some row =>
    rw [hrow, Option.getD_some] at h
    simp only [Option.bind_some]
    rw [List.getElem?_eq_getElem h]
    rfl

theorem push?_eq {g : Grid α} {i : Nat} (h : i ≤ g.length) (a : α) :
    g.push? i a = some (g.push i a) := by
  have hrow : i < (if i = g.length then g ++ [[]] else g).length := by
    split
    · simp only [List.length_append, List.length_singleton]
      omega
    · omega
  rw [push?, push, List.modify_eq_set_getElem?, List.getElem?_eq_getElem hrow]
  rfl

theorem lt_length_of_width {g : Grid α} {i j : Nat} (h : j < g.width i) : i < g.length := by
  by_contra hout
  rw [width, List.getElem?_eq_none (by omega)] at h
  cases h

/-- Pushing into another row leaves a row as wide as it was. -/
theorem width_push_of_ne {g : Grid α} {i k : Nat} (hne : i ≠ k) (a : α) :
    (g.push i a).width k = g.width k := by
  rw [width, width, push, List.getElem?_modify_ne _ _ hne]
  split
  · rw [List.getElem?_append]
    split
    · rfl
    · next hout =>
      rw [List.getElem?_eq_none (by omega : g.length ≤ k)]
      cases hk : ([[]] : Grid α)[k - g.length]? with
      | none => rfl
      | some row =>
        obtain rfl : row = [] := by simpa using List.mem_of_getElem? hk
        rfl
  · rfl

theorem width_clearPair (g : Grid α) (i j k : Nat) : (g.clearPair i j).width k = g.width k := by
  rw [width, width, clearPair, List.getElem?_modify]
  cases g[k]? with
  | none => rfl
  | some row =>
    by_cases hik : i = k
    · simp [hik]
    · simp [hik]

/-- A promotion out of a row leaves it as wide as it was. -/
theorem width_promote (g : Grid α) (i j : Nat) (a : α) :
    (g.promote i j a).width i = g.width i := by
  rw [promote, width_clearPair, width_push_of_ne (Nat.succ_ne_self i)]

/-! ## The measure of a sweep -/

/-- The size of the rows from row `i` on, an empty row counting one. -/
def weight (i : Nat) (g : Grid α) : Nat := ((g.drop i).map fun row => row.length + 1).sum

/-- The number of items in row `i`. -/
def load (i : Nat) (g : Grid α) : Nat := ((g[i]?.getD []).filterMap id).length

/-- What a promotion adds to the rows above, it takes twice from the row itself. -/
theorem weight_promote {g : Grid α} {i j : Nat} {a b : α} (ha : g.cell i j = some a)
    (hb : g.cell i (j + 1) = some b) (c : α) :
    weight (i + 1) (g.promote i j c) + load i (g.promote i j c) ≤ weight (i + 1) g + load i g := by
  obtain ⟨pre, left, right, post, rfl, rfl, rfl⟩ := exists_of_cells ha hb
  rw [promote_eq]
  have hweight : ∀ (row : List (Option α)) (rows : Grid α),
      weight (pre.length + 1) (pre ++ row :: rows) = (rows.map fun r => r.length + 1).sum := by
    intro row rows
    rw [weight, List.drop_append, List.drop_eq_nil_of_le (by omega)]
    simp
  have hload : ∀ (row : List (Option α)) (rows : Grid α),
      load pre.length (pre ++ row :: rows) = (row.filterMap id).length := by
    intro row rows
    simp [load]
  rw [hweight, hweight, hload, hload]
  cases post with
  | nil => simp; omega
  | cons row rows => simp; omega

/-- Leaving a row behind pays for its items. -/
theorem weight_succ_lt {g : Grid α} {i : Nat} (h : i < g.length) :
    weight (i + 1) g + load i g < weight i g := by
  have hload : load i g ≤ (g[i]).length := by
    rw [load, List.getElem?_eq_getElem h]
    exact List.length_filterMap_le _ _
  unfold weight
  rw [List.drop_eq_getElem_cons h, List.map_cons, List.sum_cons]
  omega

end Grid

end Vecodex.Lib
