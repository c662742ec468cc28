import Mathlib.Algebra.Order.Ring.Int
import Mathlib.Logic.Function.Basic
import Mathlib.Data.List.AList
import Mathlib.Data.List.Perm.Basic

/-!
# The machine under a C++ program

What the models of a C++ program share and no single program owns: `size_t` arithmetic, a heap
of mutable objects behind shared pointers, the unspecified iteration order of an unordered
container, and computations that may fail.

An object heap is total: a pointer that was never allocated reads as some object, so the facts
worth having are about allocated pointers (`Heap.Alloc`). A failing computation is an `Except`;
the rules for its binds and its left folds at the end are the only way the proofs take one
apart.
-/

namespace Vecodex.Lib

/-! ## Unsigned words -/

/-- The value an integer expression has in `size_t`: its remainder modulo 2^64. -/
def sizeT (n : Int) : Nat := (n % 2 ^ 64).toNat

/-! ## Object heaps -/

/-- Objects behind pointers. Pointers are handed out in order and never reused. -/
structure Heap (α : Type) where
  get : Nat → α
  next : Nat

namespace Heap

variable {α : Type}

/-- The pointer belongs to an object of the heap. -/
def Alloc (h : Heap α) (p : Nat) : Prop := p < h.next

/-- A heap with no object; `a` is what a wild pointer reads. -/
def empty (a : α) : Heap α := ⟨fun _ => a, 0⟩

/-- The heap with one object more, at the pointer `h.next`. -/
def alloc (h : Heap α) (a : α) : Heap α := ⟨Function.update h.get h.next a, h.next + 1⟩

/-- The heap with the object at `p` replaced. -/
def set (h : Heap α) (p : Nat) (a : α) : Heap α := ⟨Function.update h.get p a, h.next⟩

/-- The heap with the object at `p` changed in place. -/
def modify (h : Heap α) (p : Nat) (f : α → α) : Heap α := h.set p (f (h.get p))

@[simp] theorem alloc_next (h : Heap α) (a : α) : (h.alloc a).next = h.next + 1 := rfl

@[simp] theorem alloc_get_next (h : Heap α) (a : α) : (h.alloc a).get h.next = a := by
  simp [alloc]

theorem alloc_get_of_ne {h : Heap α} {p : Nat} (a : α) (hp : p ≠ h.next) :
    (h.alloc a).get p = h.get p := by
  simp [alloc, hp]

theorem alloc_get_of_alloc {h : Heap α} {p : Nat} (a : α) (hp : h.Alloc p) :
    (h.alloc a).get p = h.get p :=
  alloc_get_of_ne a (Nat.ne_of_lt hp)

/-- An object of an extended heap is an old one or the new one. -/
theorem alloc_cases {h : Heap α} {a : α} {p : Nat} (hp : (h.alloc a).Alloc p) :
    h.Alloc p ∧ (h.alloc a).get p = h.get p ∨ p = h.next ∧ (h.alloc a).get p = a := by
  rcases Nat.lt_succ_iff_lt_or_eq.mp hp with hp | rfl
  · exact Or.inl ⟨hp, alloc_get_of_alloc a hp⟩
  · exact Or.inr ⟨rfl, alloc_get_next h a⟩

@[simp] theorem set_get_self (h : Heap α) (p : Nat) (a : α) : (h.set p a).get p = a := by
  simp [set]

theorem set_get_of_ne {h : Heap α} {p q : Nat} (a : α) (hq : q ≠ p) :
    (h.set p a).get q = h.get q := by
  simp [set, hq]

@[simp] theorem modify_get_self (h : Heap α) (p : Nat) (f : α → α) :
    (h.modify p f).get p = f (h.get p) := by
  simp [modify]

theorem modify_get_of_ne {h : Heap α} {p q : Nat} (f : α → α) (hq : q ≠ p) :
    (h.modify p f).get q = h.get q :=
  set_get_of_ne _ hq

end Heap

/-! ## Iteration orders -/

/-- The order in which an unordered container hands out its entries: some rearrangement of
them, which the container's insertions determine and nothing else is known about. -/
structure IterOrder (ε : Type) where
  arrange : List ε → List ε
  perm : ∀ l, (arrange l).Perm l

/-- The order of insertion itself. -/
def IterOrder.insertion (ε : Type) : IterOrder ε := ⟨id, fun _ => List.Perm.refl _⟩

theorem IterOrder.mem_arrange {ε : Type} (o : IterOrder ε) {l : List ε} {e : ε} :
    e ∈ o.arrange l ↔ e ∈ l :=
  (o.perm l).mem_iff

/-- An entry can be the first one to be handed out. -/
theorem IterOrder.exists_first {ε : Type} (e : ε) :
    ∃ o : IterOrder ε, ∀ l, e ∈ l → ∃ rest, o.arrange l = e :: rest := by
  classical
  refine ⟨⟨fun l => if e ∈ l then e :: l.erase e else l, fun l => ?_⟩, fun l hl => ?_⟩
  · split
    · next hmem => exact (List.perm_cons_erase hmem).symm
    · exact .refl l
  · exact ⟨l.erase e, if_pos hl⟩

/-! ## Computations that may fail -/

section Except

variable {ε α β σ : Type}

/-- A bind succeeds when both halves do. -/
theorem bind_eq_ok {x : Except ε α} {f : α → Except ε β} {b : β} :
    (x >>= f) = .ok b ↔ ∃ a, x = .ok a ∧ f a = .ok b := by
  cases x with
  | error e => simp [bind, Except.bind]
  | ok a => simp [bind, Except.bind]

/-- A bind fails when its first half does, or its second after that. -/
theorem bind_eq_error {x : Except ε α} {f : α → Except ε β} {e : ε} :
    (x >>= f) = .error e ↔ x = .error e ∨ ∃ a, x = .ok a ∧ f a = .error e := by
  cases x with
  | error e' => simp [bind, Except.bind]
  | ok a => simp [bind, Except.bind]

@[simp] theorem ok_bind (a : α) (f : α → Except ε β) : (Except.ok a >>= f) = f a := rfl

@[simp] theorem error_bind (e : ε) (f : α → Except ε β) : (Except.error e >>= f) = .error e := rfl

@[simp] theorem map_ok (a : α) (f : α → β) : (Except.ok a : Except ε α).map f = .ok (f a) := rfl

@[simp] theorem map_error (e : ε) (f : α → β) : (Except.error e : Except ε α).map f = .error e :=
  rfl

/-- The result of a successful computation can be examined by evaluation. -/
theorem exists_ok {x : Except ε α} {P : α → Prop} [DecidablePred P]
    (h : (match x with | .ok a => decide (P a) | .error _ => false) = true) :
    ∃ a, x = .ok a ∧ P a := by
  cases x with
  | error e => cases h
  | ok a => exact ⟨a, rfl, of_decide_eq_true h⟩

theorem eq_ok_of_toOption {x : Except ε α} {a : α} (h : x.toOption = some a) : x = .ok a := by
  cases x with
  | error e => cases h
  | ok b => rw [Option.some.inj h]

/-- A failure can be recognised by evaluation. -/
instance decidableEqError [DecidableEq ε] (x : Except ε α) (e : ε) : Decidable (x = .error e) :=
  match x with
  | .error e' => decidable_of_iff (e' = e) ⟨congrArg _, Except.error.inj⟩
  | .ok _ => .isFalse nofun

/-- What the steps of a fold preserve, with a count of the steps, the fold preserves. -/
theorem foldlM_counts {f : σ → α → Except ε σ} {P : Nat → σ → Prop} {l : List α} {k : Nat}
    {s t : σ} (step : ∀ k s t a, a ∈ l → P k s → f s a = .ok t → P (k + 1) t) (hs : P k s)
    (h : l.foldlM f s = .ok t) : P (k + l.length) t := by
  induction l generalizing k s with
  | nil =>
    cases h
    exact hs
  | cons a l ih =>
    rw [List.foldlM_cons] at h
    obtain ⟨u, hu, htail⟩ := bind_eq_ok.mp h
    rw [List.length_cons, ← Nat.add_assoc, Nat.add_right_comm]
    exact ih (fun k s t b hb => step k s t b (List.mem_cons_of_mem _ hb))
      (step k s u a List.mem_cons_self hs hu) htail

/-- What every step of a fold preserves, the fold preserves. -/
theorem foldlM_preserves {f : σ → α → Except ε σ} {P : σ → Prop} {l : List α} {s t : σ}
    (step : ∀ s t a, a ∈ l → P s → f s a = .ok t → P t) (hs : P s)
    (h : l.foldlM f s = .ok t) : P t :=
  foldlM_counts (k := 0) (P := fun _ => P) (fun _ => step) hs h

/-- A fold fails with `e` only if one of its steps does, from a state with a preserved property. -/
theorem foldlM_ne_error {f : σ → α → Except ε σ} {P : σ → Prop} {l : List α} {s : σ} {e : ε}
    (step : ∀ s t a, a ∈ l → P s → f s a = .ok t → P t)
    (hne : ∀ s a, a ∈ l → P s → f s a ≠ .error e) (hs : P s) : l.foldlM f s ≠ .error e := by
  induction l generalizing s with
  | nil => exact nofun
  | cons a l ih =>
    rw [List.foldlM_cons]
    intro herror
    rcases bind_eq_error.mp herror with hhead | ⟨t, ht, htail⟩
    · exact hne s a List.mem_cons_self hs hhead
    · exact ih (fun s t b hb => step s t b (List.mem_cons_of_mem _ hb))
        (fun s b hb => hne s b (List.mem_cons_of_mem _ hb))
        (step s t a List.mem_cons_self hs ht) htail

/-- Folds whose steps agree on the states with a preserved property agree. -/
theorem foldlM_congr {f g : σ → α → Except ε σ} {P : σ → Prop} {l : List α} {s : σ}
    (step : ∀ s t a, a ∈ l → P s → f s a = .ok t → P t)
    (heq : ∀ s a, a ∈ l → P s → g s a = f s a) (hs : P s) : l.foldlM g s = l.foldlM f s := by
  induction l generalizing s with
  | nil => rfl
  | cons a l ih =>
    rw [List.foldlM_cons, List.foldlM_cons, heq s a List.mem_cons_self hs]
    cases hf : f s a with
    | error e => rfl
    | ok t =>
      exact ih (fun s t b hb => step s t b (List.mem_cons_of_mem _ hb))
        (fun s b hb => heq s b (List.mem_cons_of_mem _ hb)) (step s t a List.mem_cons_self hs hf)

/-- A fold all of whose steps succeed from states with a preserved property succeeds. -/
theorem foldlM_total {f : σ → α → Except ε σ} {P : σ → Prop} {l : List α} {s : σ}
    (step : ∀ s a, a ∈ l → P s → ∃ t, f s a = .ok t ∧ P t) (hs : P s) :
    ∃ t, l.foldlM f s = .ok t ∧ P t := by
  induction l generalizing s with
  | nil => exact ⟨s, rfl, hs⟩
  | cons a l ih =>
    obtain ⟨u, hu, hP⟩ := step s a List.mem_cons_self hs
    obtain ⟨t, ht, hPt⟩ := ih (fun s b hb => step s b (List.mem_cons_of_mem _ hb)) hP
    exact ⟨t, by rw [List.foldlM_cons, hu, ok_bind, ht], hPt⟩

/-- A fold over states in another form. -/
theorem foldlM_map {τ : Type} {f : σ → α → Except ε σ} {f' : τ → α → Except ε τ} {g : σ → τ}
    (step : ∀ s a, f' (g s) a = (f s a).map g) (l : List α) (s : σ) :
    l.foldlM f' (g s) = (l.foldlM f s).map g := by
  induction l generalizing s with
  | nil => rfl
  | cons a l ih =>
    rw [List.foldlM_cons, List.foldlM_cons, step]
    cases f s a with
    | error e => rfl
    | ok t => exact ih t

/-- A traversal whose function always succeeds is a map. -/
theorem mapM_eq_map {f : α → Except ε β} {g : α → β} {l : List α}
    (h : ∀ a ∈ l, f a = .ok (g a)) : l.mapM f = .ok (l.map g) := by
  induction l with
  | nil => rfl
  | cons a l ih =>
    rw [List.mapM_cons, h a List.mem_cons_self, ok_bind,
      ih fun b hb => h b (List.mem_cons_of_mem _ hb)]
    rfl

/-- A traversal all of whose elements succeed succeeds, element by element. -/
theorem mapM_total {f : α → Except ε β} {l : List α} (h : ∀ a ∈ l, ∃ b, f a = .ok b) :
    ∃ bs, l.mapM f = .ok bs ∧ List.Forall₂ (fun a b => f a = .ok b) l bs := by
  induction l with
  | nil => exact ⟨[], rfl, .nil⟩
  | cons a l ih =>
    obtain ⟨b, hb⟩ := h a List.mem_cons_self
    obtain ⟨bs, hbs, hrel⟩ := ih fun a ha => h a (List.mem_cons_of_mem _ ha)
    exact ⟨b :: bs, by rw [List.mapM_cons, hb, ok_bind, hbs]; rfl, .cons hb hrel⟩

/-! ## Conditions on the steps of a run -/

/-- Every step of a run meets its condition in the state it finds. -/
def Meets (f : σ → α → Except ε σ) (C : σ → α → Prop) (start : σ) (l : List α) : Prop :=
  ∀ part a s, part ++ [a] <+: l → part.foldlM f start = .ok s → C s a

theorem meets_nil (f : σ → α → Except ε σ) (C : σ → α → Prop) (start : σ) :
    Meets f C start [] := by
  intro part a s hpart
  have hnil : part ++ [a] = [] := List.prefix_nil.mp hpart
  cases List.append_ne_nil_of_right_ne_nil part (List.cons_ne_nil a []) hnil

theorem meets_cons {f : σ → α → Except ε σ} {C : σ → α → Prop} {start : σ} {a : α} {l : List α} :
    Meets f C start (a :: l) ↔ C start a ∧ ∀ s, f start a = .ok s → Meets f C s l := by
  constructor
  · refine fun h => ⟨h [] a start (by simp) rfl, fun s hs part b t hpart ht => ?_⟩
    refine h (a :: part) b t (List.cons_prefix_cons.mpr ⟨rfl, hpart⟩) ?_
    rw [List.foldlM_cons, hs, ok_bind]
    exact ht
  · rintro ⟨hfirst, hrest⟩ part b t hpart ht
    cases part with
    | nil =>
      cases ht
      rwa [(List.cons_prefix_cons.mp hpart).1]
    | cons c part =>
      obtain ⟨rfl, htail⟩ := List.cons_prefix_cons.mp hpart
      rw [List.foldlM_cons] at ht
      obtain ⟨s, hs, ht⟩ := bind_eq_ok.mp ht
      exact hrest s hs part b t htail ht

/-- Whether the steps of a run meet their conditions can be seen by running it. -/
instance decidableMeets {f : σ → α → Except ε σ} {C : σ → α → Prop} [∀ s a, Decidable (C s a)] :
    ∀ (start : σ) (l : List α), Decidable (Meets f C start l)
  | start, [] => .isTrue (meets_nil f C start)
  | start, a :: l =>
    match hs : f start a with
    | .error _ => decidable_of_iff (C start a) (by simp [meets_cons, hs])
    | .ok s =>
      have := decidableMeets (f := f) (C := C) s l
      decidable_of_iff (C start a ∧ Meets f C s l) (by simp [meets_cons, hs])

/-- What the steps preserve that meet their condition, such a run preserves. -/
theorem Meets.preserves {f : σ → α → Except ε σ} {C : σ → α → Prop} {P : σ → Prop} {start t : σ}
    {l : List α} (h : Meets f C start l)
    (step : ∀ s s' a, C s a → P s → f s a = .ok s' → P s') (hstart : P start)
    (hrun : l.foldlM f start = .ok t) : P t := by
  induction l generalizing start with
  | nil =>
    cases hrun
    exact hstart
  | cons a l ih =>
    obtain ⟨hfirst, hrest⟩ := meets_cons.mp h
    rw [List.foldlM_cons] at hrun
    obtain ⟨s, hs, hrun⟩ := bind_eq_ok.mp hrun
    exact ih (hrest s hs) (step start s a hfirst hstart hs) hrun

/-- A property holds in every state of a run exactly when every step meets its condition, where the
condition says of a state with the invariant whether the next one has the property. -/
theorem foldlM_prefixes_iff {f : σ → α → Option σ} {l : List α} {start : σ} {I P : σ → Prop}
    {C : σ → α → Prop} (hstart : I start) (hP : ∀ s, I s → P s)
    (hstep : ∀ s s', ∀ a ∈ l, I s → f s a = some s' → (P s' ↔ C s a) ∧ (C s a → I s'))
    (hok : ∃ s, l.foldlM f start = some s) :
    (∀ part s, part <+: l → part.foldlM f start = some s → P s) ↔
      ∀ part a s, part ++ [a] <+: l → part.foldlM f start = some s → C s a := by
  induction l generalizing start with
  | nil =>
    refine ⟨fun _ part a s hpart _ => ?_, fun _ part s hpart hs => ?_⟩
    · have hnil : part ++ [a] = [] := List.prefix_nil.mp hpart
      cases List.append_ne_nil_of_right_ne_nil part (List.cons_ne_nil a []) hnil
    · rw [List.prefix_nil.mp hpart] at hs
      cases hs
      exact hP _ hstart
  | cons a l ih =>
    obtain ⟨last, hlast⟩ := hok
    rw [List.foldlM_cons] at hlast
    obtain ⟨s₁, hs₁, hrest⟩ := Option.bind_eq_some_iff.mp hlast
    obtain ⟨hiff, hkeep⟩ := hstep start s₁ a List.mem_cons_self hstart hs₁
    have hnext := fun hI => ih hI (fun s s' b hb => hstep s s' b (List.mem_cons_of_mem _ hb))
      ⟨last, hrest⟩
    have hcons : ∀ part, (a :: part).foldlM f start = part.foldlM f s₁ := by
      intro part
      rw [List.foldlM_cons, hs₁]
      rfl
    constructor
    · intro hall
      have hC : C start a := hiff.mp (hall [a] s₁ (by simp) (hcons []))
      have htail := (hnext (hkeep hC)).mp fun part s hpart hs =>
        hall (a :: part) s (List.cons_prefix_cons.mpr ⟨rfl, hpart⟩) ((hcons part).trans hs)
      intro part b s hpart hs
      cases part with
      | nil =>
        cases hs
        rwa [(List.cons_prefix_cons.mp hpart).1]
      | cons c part =>
        obtain ⟨rfl, hrest⟩ := List.cons_prefix_cons.mp hpart
        exact htail part b s hrest ((hcons part).symm.trans hs)
    · intro hall part s hpart hs
      have hC : C start a := hall [] a start (by simp) rfl
      cases part with
      | nil =>
        cases hs
        exact hP _ hstart
      | cons c part =>
        obtain ⟨rfl, hrest⟩ := List.cons_prefix_cons.mp hpart
        refine (hnext (hkeep hC)).mpr (fun part b s hpart hs => ?_) part s hrest
          ((hcons part).symm.trans hs)
        exact hall (c :: part) b s (List.cons_prefix_cons.mpr ⟨rfl, hpart⟩)
          ((hcons part).trans hs)

/-- The same for steps that do not fail and a property that is its own invariant. -/
theorem foldl_prefixes_iff {g : σ → α → σ} {l : List α} {start : σ} {I : σ → Prop}
    {C : σ → α → Prop} (hstart : I start) (hstep : ∀ s, ∀ a ∈ l, I s → (I (g s a) ↔ C s a)) :
    (∀ part, part <+: l → I (part.foldl g start)) ↔
      ∀ part a, part ++ [a] <+: l → C (part.foldl g start) a := by
  have hpure : ∀ part : List α,
      part.foldlM (fun s a => some (g s a)) start = some (part.foldl g start) :=
    fun part => List.foldlM_pure
  have hiff := foldlM_prefixes_iff (C := C) (f := fun s a => some (g s a)) hstart (fun _ h => h)
    (fun s s' a ha hs heq => by
      cases heq
      exact ⟨hstep s a ha hs, (hstep s a ha hs).mpr⟩) ⟨_, hpure l⟩
  constructor
  · intro hall part a hpart
    refine hiff.mp (fun part s hpart hs => ?_) part a _ hpart (hpure part)
    rw [← Option.some.inj ((hpure part).symm.trans hs)]
    exact hall part hpart
  · intro hall part hpart
    refine hiff.mpr (fun part a s hpart hs => ?_) part _ hpart (hpure part)
    rw [← Option.some.inj ((hpure part).symm.trans hs)]
    exact hall part a hpart

/-! ## Tables of tables -/

/-- What `m[i][k] = x` does to the lookups, where a missing table counts as an empty one. -/
theorem lookup_insert_insert {κ ν : Type} [DecidableEq κ]
    (m : AList fun _ : κ => AList fun _ : κ => ν) (i k : κ) (x : ν) (j l : κ) :
    (((m.insert i (((m.lookup i).getD ∅).insert k x)).lookup j).getD ∅).lookup l =
      if j = i ∧ l = k then some x else ((m.lookup j).getD ∅).lookup l := by
  by_cases hj : j = i
  · subst hj
    rw [AList.lookup_insert, Option.getD_some]
    by_cases hl : l = k
    · subst hl
      rw [if_pos ⟨rfl, rfl⟩, AList.lookup_insert]
    · rw [if_neg fun h => hl h.2, AList.lookup_insert_ne hl]
  · rw [AList.lookup_insert_ne hj, if_neg fun h => hj h.1]

/-! ## Loops that keep what a failure leaves -/

/-- A loop that stops at the first failure, in the state the failure leaves. -/
def foldStop (f : σ → α → Except ε Unit × σ) : List α → σ → Except ε Unit × σ
  | [], s => (.ok (), s)
  | a :: l, s =>
    match f s a with
    | (.ok (), t) => foldStop f l t
    | (.error e, t) => (.error e, t)

theorem foldStop_cons_ok {f : σ → α → Except ε Unit × σ} {s t : σ} {a : α}
    (h : f s a = (.ok (), t)) (l : List α) : foldStop f (a :: l) s = foldStop f l t := by
  rw [foldStop, h]

theorem foldStop_cons_error {f : σ → α → Except ε Unit × σ} {s t : σ} {a : α} {e : ε}
    (h : f s a = (.error e, t)) (l : List α) : foldStop f (a :: l) s = (.error e, t) := by
  rw [foldStop, h]

/-- A loop that went through has gone through its first round. -/
theorem foldStop_cons_eq_ok {f : σ → α → Except ε Unit × σ} {s t : σ} {a : α} {l : List α}
    (h : foldStop f (a :: l) s = (.ok (), t)) :
    ∃ u, f s a = (.ok (), u) ∧ foldStop f l u = (.ok (), t) := by
  rcases hf : f s a with ⟨_ | _, u⟩
  · rw [foldStop_cons_error hf] at h
    cases h
  · rw [foldStop_cons_ok hf] at h
    exact ⟨u, rfl, h⟩

/-- What every round keeps, a failed one included, the loop keeps. -/
theorem foldStop_keeps {f : σ → α → Except ε Unit × σ} {P : σ → Prop} {l : List α} {s : σ}
    (step : ∀ s, ∀ a ∈ l, P s → P (f s a).2) (hs : P s) : P (foldStop f l s).2 := by
  induction l generalizing s with
  | nil => exact hs
  | cons a l ih =>
    have hround := step s a List.mem_cons_self hs
    rcases hf : f s a with ⟨_ | _, t⟩
    · rw [foldStop_cons_error hf]
      rwa [hf] at hround
    · rw [foldStop_cons_ok hf]
      rw [hf] at hround
      exact ih (fun s b hb => step s b (List.mem_cons_of_mem _ hb)) hround

/-- What a computation that keeps its state leaves: `P` when it succeeds, `Q` when it fails. -/
def Outcome (P : σ → Prop) (Q : ε → σ → Prop) (result : Except ε Unit × σ) : Prop :=
  match result.1 with
  | .ok _ => P result.2
  | .error e => Q e result.2

/-- A loop leaves what its rounds leave. -/
theorem foldStop_outcome {f : σ → α → Except ε Unit × σ} {P : σ → Prop} {Q : ε → σ → Prop}
    {l : List α} {s : σ} (step : ∀ s, ∀ a ∈ l, P s → Outcome P Q (f s a)) (hs : P s) :
    Outcome P Q (foldStop f l s) := by
  induction l generalizing s with
  | nil => exact hs
  | cons a l ih =>
    have hround := step s a List.mem_cons_self hs
    rcases hf : f s a with ⟨_ | _, t⟩
    · rw [foldStop_cons_error hf]
      rwa [hf] at hround
    · rw [foldStop_cons_ok hf]
      rw [hf] at hround
      exact ih (fun s b hb => step s b (List.mem_cons_of_mem _ hb)) hround

/-- The outcome of a computation that keeps its state, against one that loses it on failure. -/
def Simulates (R : σ → τ → Prop) (left : Except ε Unit × σ) (right : Except ε τ) : Prop :=
  match right with
  | .ok t => left.1 = .ok () ∧ R left.2 t
  | .error e => left.1 = .error e

theorem Simulates.mono {R R' : σ → τ → Prop} {left : Except ε Unit × σ} {right : Except ε τ}
    (h : Simulates R left right) (hR : ∀ t, R left.2 t → R' left.2 t) :
    Simulates R' left right := by
  cases right with
  | error e => exact h
  | ok t => exact ⟨h.1, hR t h.2⟩

/-- Loops whose rounds go together go together. -/
theorem foldStop_simulates {R : σ → τ → Prop} {f : σ → α → Except ε Unit × σ}
    {g : τ → α → Except ε τ} {l : List α} {s : σ} {t : τ}
    (step : ∀ s t, ∀ a ∈ l, R s t → Simulates R (f s a) (g t a)) (h : R s t) :
    Simulates R (foldStop f l s) (l.foldlM g t) := by
  induction l generalizing s t with
  | nil => exact ⟨rfl, h⟩
  | cons a l ih =>
    have hround := step s t a List.mem_cons_self h
    rw [List.foldlM_cons]
    rcases hf : f s a with ⟨result, s'⟩
    cases hg : g t a with
    | error e =>
      rw [hf, hg] at hround
      obtain rfl : result = .error e := hround
      rw [foldStop_cons_error hf]
      exact rfl
    | ok t' =>
      rw [hf, hg] at hround
      obtain ⟨rfl, hnext⟩ : result = .ok () ∧ R s' t' := hround
      rw [foldStop_cons_ok hf]
      exact ih (fun s t b hb => step s t b (List.mem_cons_of_mem _ hb)) hnext

end Except

end Vecodex.Lib
