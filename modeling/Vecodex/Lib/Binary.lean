import Mathlib.Algebra.Order.Ring.Nat
import Mathlib.Data.Finset.Card
import Mathlib.Data.List.AList
import Mathlib.Data.List.Lex
import Mathlib.Data.List.Sort

/-!
# Binary files

What a C++ program writes with `fwrite` and reads back with `fread`: integers of a fixed width,
least byte first, strings after their length, and the entries of a container after their number.

A file is the list of the bytes that are still to be read. A read from a file that is too short
is no failure: an integer keeps the bytes it had behind those that were read, a string is filled up
with zeros, and the file is empty afterwards. A string fails only when the length in front of it is
more than a string can have. Every pair of a write and a read has its law (`readWord_word`,
`readText_text`, `readLoop_flatMap`): what was written is read, and what follows stays unread. A
read that only ever meets a part of what was written does not fail (`Tolerates`).

An unordered container is written in its iteration order and rebuilt entry by entry. The rebuilt
map has the entries of the old one, whatever the order (`perm_rebuild`).
-/

namespace Vecodex.Lib

abbrev Bytes := List UInt8

/-! ## Integers -/

/-- The `w` bytes of an integer, least byte first. -/
def word : Nat → Nat → Bytes
  | 0, _ => []
  | w + 1, n => UInt8.ofNat (n % 256) :: word w (n / 256)

/-- The integer behind its bytes. -/
def wordValue : Bytes → Nat
  | [] => 0
  | b :: bs => b.toNat + 256 * wordValue bs

@[simp] theorem word_length (w n : Nat) : (word w n).length = w := by
  induction w generalizing n with
  | zero => rfl
  | succ w ih => rw [word, List.length_cons, ih]

theorem toNat_ofNat_mod (n : Nat) : (UInt8.ofNat (n % 256)).toNat = n % 256 := by
  rw [UInt8.toNat_ofNat']
  omega

theorem wordValue_word {w n : Nat} (h : n < 256 ^ w) : wordValue (word w n) = n := by
  induction w generalizing n with
  | zero =>
    rw [Nat.pow_zero, Nat.lt_one_iff] at h
    rw [h]
    rfl
  | succ w ih =>
    rw [Nat.pow_succ] at h
    rw [word, wordValue, toNat_ofNat_mod, ih (by omega)]
    omega

/-- `fread` of an integer of `w` bytes into a variable that holds `old`. The bytes that are there
are stored; the variable keeps those the file is too short for. -/
def readWord (w old : Nat) (bs : Bytes) : Nat × Bytes :=
  (wordValue (bs.take w ++ (word w old).drop bs.length), bs.drop w)

theorem readWord_word {w n : Nat} (h : n < 256 ^ w) (old : Nat) (rest : Bytes) :
    readWord w old (word w n ++ rest) = (n, rest) := by
  have hnone : (word w old).drop (word w n ++ rest).length = [] := by
    apply List.drop_eq_nil_of_le
    rw [List.length_append, word_length, word_length]
    exact Nat.le_add_right _ _
  rw [readWord, hnone, List.append_nil, List.take_left' (word_length w n),
    List.drop_left' (word_length w n), wordValue_word h]

/-- Nothing is left behind a short read. -/
theorem readWord_rest_nil {w : Nat} (old : Nat) {bs : Bytes} (h : bs.length ≤ w) :
    (readWord w old bs).2 = [] := List.drop_eq_nil_of_le h

/-- An integer that is cut off and filled up with zeros is not larger. -/
theorem wordValue_take_word (w n k m : Nat) :
    wordValue ((word w n).take k ++ List.replicate m 0) ≤ n := by
  have hzeros : wordValue (List.replicate m 0) = 0 := by
    induction m with
    | zero => rfl
    | succ m ih => rw [List.replicate_succ, wordValue, ih]; rfl
  induction w generalizing n k with
  | zero => simp [word, hzeros]
  | succ w ih =>
    cases k with
    | zero => simp [hzeros]
    | succ k =>
      have hrest := ih (n / 256) k
      rw [word, List.take_succ_cons, List.cons_append, wordValue, toNat_ofNat_mod]
      omega

theorem word_zero (w : Nat) : word w 0 = List.replicate w 0 := by
  induction w with
  | zero => rfl
  | succ w ih => rw [word, List.replicate_succ, Nat.zero_div, ih]; rfl

/-- A part of an integer reads as no larger integer into a variable that holds zero. -/
theorem readWord_le_of_cut {w n : Nat} {bs rest : Bytes} (h : bs <+: word w n ++ rest) :
    (readWord w 0 bs).1 ≤ n := by
  have htake : bs.take w = (word w n).take bs.length := by
    have hword : word w n = (word w n ++ rest).take w := (List.take_left' (word_length w n)).symm
    rw [List.prefix_iff_eq_take] at h
    rw [hword, List.take_take, Nat.min_comm, ← List.take_take, ← h]
  rw [readWord, htake, word_zero, List.drop_replicate]
  exact wordValue_take_word w n bs.length (w - bs.length)

/-- A part of two sections ends inside the first one or behind it. -/
theorem prefix_append_cases {bs front rest : Bytes} (h : bs <+: front ++ rest) :
    (bs <+: front ∧ bs.length < front.length) ∨ ∃ tail, bs = front ++ tail ∧ tail <+: rest := by
  cases List.prefix_or_prefix_of_prefix h (List.prefix_append front rest) with
  | inl hfront =>
    by_cases heq : bs = front
    · exact .inr ⟨[], by simpa only [List.append_nil] using heq, List.nil_prefix⟩
    · refine .inl ⟨hfront, lt_of_le_of_ne hfront.length_le fun hlen => ?_⟩
      exact heq (hfront.eq_of_length hlen)
  | inr hbs =>
    obtain ⟨tail, rfl⟩ := hbs
    exact .inr ⟨tail, rfl, (List.prefix_append_right_inj front).mp h⟩

/-! ## Strings -/

/-- `max_size()` of `std::string` in the C++ library of 64-bit Linux. -/
def maxSize : Nat := 2 ^ 62 - 1

/-- A `std::string`: bytes, at most `max_size()` of them. -/
structure Text where
  bytes : Bytes
  short : bytes.length ≤ maxSize
  deriving DecidableEq

namespace Text

/-- The bytes of a string as unsigned numbers. -/
def values (s : Text) : List Nat := s.bytes.map UInt8.toNat

theorem values_injective : Function.Injective values := by
  rintro ⟨bytes, short⟩ ⟨bytes', short'⟩ heq
  obtain rfl : bytes = bytes' :=
    List.map_injective_iff.mpr (fun _ _ h => UInt8.toNat_inj.mp h) heq
  rfl

/-- `operator<` of `std::string` compares the bytes in lexicographic order. -/
instance : LinearOrder Text :=
  { PartialOrder.lift values values_injective with
    le_total := fun s t => le_total s.values t.values
    toDecidableLE := fun s t => inferInstanceAs (Decidable (s.values ≤ t.values))
    toDecidableLT := fun s t => inferInstanceAs (Decidable (s.values < t.values))
    toDecidableEq := inferInstance }

end Text

/-- A string after its length. -/
def text (s : Text) : Bytes := word 8 s.bytes.length ++ s.bytes

/-- `resize` to the length in the file, then `fread` of so many bytes. A length above `max_size()`
is an exception. -/
def readText (bs : Bytes) : Option (Text × Bytes) :=
  let sz := readWord 8 0 bs
  if hsize : sz.1 ≤ maxSize then
    some ({ bytes := sz.2.take sz.1 ++ List.replicate (sz.1 - (sz.2.take sz.1).length) 0
            short := by
              simp only [List.length_append, List.length_replicate, List.length_take]
              omega },
      sz.2.drop sz.1)
  else none

theorem Text.length_lt (s : Text) : s.bytes.length < 256 ^ 8 := lt_of_le_of_lt s.short (by decide)

theorem readText_text (s : Text) (rest : Bytes) : readText (text s ++ rest) = some (s, rest) := by
  have hsize : readWord 8 0 (text s ++ rest) = (s.bytes.length, s.bytes ++ rest) := by
    rw [text, List.append_assoc]
    exact readWord_word s.length_lt 0 _
  obtain ⟨bytes, short⟩ := s
  unfold readText
  simp only [hsize, short, List.take_left, List.drop_left, Nat.sub_self, List.replicate_zero,
    List.append_nil, dite_true]

/-! ## Containers -/

section Loop

variable {α β σ : Type}

/-- A loop that reads `n` entries and stores each. -/
def readLoop (read : Bytes → Option (α × Bytes)) (store : σ → α → σ) :
    Nat → σ → Bytes → Option (σ × Bytes)
  | 0, s, bs => some (s, bs)
  | n + 1, s, bs => (read bs).bind fun r => readLoop read store n (store s r.1) r.2

/-- A loop reads the entries that were written one after the other. -/
theorem readLoop_flatMap {read : Bytes → Option (α × Bytes)} {write : α → Bytes}
    {store : σ → α → σ} {as : List α}
    (h : ∀ a ∈ as, ∀ rest, read (write a ++ rest) = some (a, rest)) (s : σ) (rest : Bytes) :
    readLoop read store as.length s (as.flatMap write ++ rest) = some (as.foldl store s, rest) := by
  induction as generalizing s with
  | nil => rfl
  | cons a as ih =>
    have ha := h a List.mem_cons_self (as.flatMap write ++ rest)
    rw [List.flatMap_cons, List.append_assoc, List.length_cons, readLoop, ha, Option.bind_some,
      List.foldl_cons]
    exact ih (fun a ha => h a (List.mem_cons_of_mem _ ha)) (store s a)

/-! ## Files that are cut off -/

/-- The read gets through every part of a file that begins with what was written, and leaves a part
of what follows. -/
def Tolerates (read : Bytes → Option (α × Bytes)) (written : Bytes) : Prop :=
  ∀ rest bs, bs <+: written ++ rest → ∃ a left, read bs = some (a, left) ∧ left <+: rest

theorem drop_cut {front rest bs : Bytes} (h : bs <+: front ++ rest) :
    bs.drop front.length <+: rest := by
  have hdrop := h.drop front.length
  rwa [List.drop_left] at hdrop

theorem tolerates_word (w old n : Nat) :
    Tolerates (fun bs => some (readWord w old bs)) (word w n) := by
  intro rest bs h
  refine ⟨_, _, rfl, ?_⟩
  have hdrop := drop_cut h
  rwa [word_length] at hdrop

theorem Tolerates.nil {read : Bytes → Option (α × Bytes)} {written : Bytes}
    (h : Tolerates read written) : ∃ a, read [] = some (a, []) := by
  obtain ⟨a, left, hread, hleft⟩ := h [] [] List.nil_prefix
  rw [List.prefix_nil.mp hleft] at hread
  exact ⟨a, hread⟩

theorem Tolerates.bind {read : Bytes → Option (α × Bytes)} {next : α → Bytes → Option (β × Bytes)}
    {written written' : Bytes} (h : Tolerates read written)
    (hnext : ∀ a, Tolerates (next a) written') :
    Tolerates (fun bs => (read bs).bind fun r => next r.1 r.2) (written ++ written') := by
  intro rest bs hbs
  rw [List.append_assoc] at hbs
  obtain ⟨a, left, hread, hleft⟩ := h _ bs hbs
  obtain ⟨b, left', hread', hleft'⟩ := hnext a rest left hleft
  refine ⟨b, left', ?_, hleft'⟩
  simp only [hread, Option.bind_some, hread']

theorem Tolerates.map {read : Bytes → Option (α × Bytes)} {written : Bytes}
    (h : Tolerates read written) (f : α → β) :
    Tolerates (fun bs => (read bs).bind fun r => some (f r.1, r.2)) written := by
  intro rest bs hbs
  obtain ⟨a, left, hread, hleft⟩ := h rest bs hbs
  refine ⟨f a, left, ?_, hleft⟩
  simp only [hread, Option.bind_some]

theorem tolerates_text (s : Text) : Tolerates readText (text s) := by
  intro rest bs h
  rw [text, List.append_assoc] at h
  have hsize : (readWord 8 0 bs).1 ≤ maxSize := (readWord_le_of_cut h).trans s.short
  refine ⟨_, _, dif_pos hsize, ?_⟩
  cases prefix_append_cases h with
  | inl hshort =>
    have hnone : (readWord 8 0 bs).2 = [] :=
      readWord_rest_nil 0 (hshort.2.le.trans_eq (word_length 8 _))
    rw [hnone, List.drop_nil]
    exact List.nil_prefix
  | inr hbehind =>
    obtain ⟨tail, rfl, htail⟩ := hbehind
    simp only [readWord_word s.length_lt]
    exact drop_cut htail

/-- A loop at the end of its file reads nothing but what a read leaves alone. -/
theorem readLoop_nil {read : Bytes → Option (α × Bytes)} {written : Bytes}
    (h : Tolerates read written) (store : σ → α → σ) (n : Nat) (s : σ) :
    ∃ s', readLoop read store n s [] = some (s', []) := by
  obtain ⟨a, ha⟩ := h.nil
  induction n generalizing s with
  | zero => exact ⟨s, rfl⟩
  | succ n ih =>
    obtain ⟨s', hs'⟩ := ih (store s a)
    refine ⟨s', ?_⟩
    rw [readLoop, ha, Option.bind_some, hs']

theorem tolerates_readLoop {read : Bytes → Option (α × Bytes)} {write : α → Bytes}
    (h : ∀ a, Tolerates read (write a)) (store : σ → α → σ) (as : List α) (s : σ) :
    Tolerates (readLoop read store as.length s) (as.flatMap write) := by
  induction as generalizing s with
  | nil => exact fun rest bs hbs => ⟨s, bs, rfl, hbs⟩
  | cons a as ih => exact (h a).bind fun b => ih (store s b)

/-- A container after the number of its entries. -/
theorem tolerates_counted {read : Bytes → Option (α × Bytes)} {write : α → Bytes}
    (h : ∀ a, Tolerates read (write a)) (store : σ → α → σ) {as : List α}
    (hlen : as.length < 256 ^ 8) (s : σ) :
    Tolerates (fun bs => readLoop read store (readWord 8 0 bs).1 s (readWord 8 0 bs).2)
      (word 8 as.length ++ as.flatMap write) := by
  intro rest bs hbs
  rw [List.append_assoc] at hbs
  cases prefix_append_cases hbs with
  | inl hshort =>
    -- the number is cut off, so nothing is left for the entries
    have hnone : (readWord 8 0 bs).2 = [] :=
      readWord_rest_nil 0 (hshort.2.le.trans_eq (word_length 8 _))
    cases as with
    | nil =>
      have hzero : (readWord 8 0 bs).1 = 0 :=
        Nat.le_zero.mp (readWord_le_of_cut (hshort.1.trans (List.prefix_append _ [])))
      refine ⟨s, [], ?_, List.nil_prefix⟩
      simp only [hnone, hzero, readLoop]
    | cons a as =>
      obtain ⟨s', hs'⟩ := readLoop_nil (h a) store (readWord 8 0 bs).1 s
      refine ⟨s', [], ?_, List.nil_prefix⟩
      simp only [hnone, hs']
  | inr hbehind =>
    obtain ⟨tail, rfl, htail⟩ := hbehind
    simp only [readWord_word hlen]
    exact tolerates_readLoop h store as s rest tail htail

end Loop

section Rebuild

variable {κ ν : Type} [DecidableEq κ]

/-- `map[key] = value`, entry by entry. -/
def rebuild (entries : List (Σ _ : κ, ν)) : AList fun _ : κ => ν :=
  entries.foldl (fun m e => m.insert e.1 e.2) ∅

theorem perm_foldl_insert (entries : List (Σ _ : κ, ν)) (m : AList fun _ : κ => ν)
    (hnodup : ((m.entries ++ entries).map Sigma.fst).Nodup) :
    (entries.foldl (fun m e => m.insert e.1 e.2) m).entries.Perm (m.entries ++ entries) := by
  induction entries generalizing m with
  | nil => rw [List.append_nil, List.foldl_nil]
  | cons e entries ih =>
    have hnew : e.1 ∉ m := by
      rw [List.map_append, List.map_cons, List.nodup_append] at hnodup
      exact fun hmem => hnodup.2.2 e.1 hmem e.1 List.mem_cons_self rfl
    have hinsert : (m.insert e.1 e.2).entries = e :: m.entries :=
      AList.entries_insert_of_notMem hnew
    have hmove : (e :: m.entries ++ entries).Perm (m.entries ++ e :: entries) :=
      List.perm_middle.symm
    rw [List.foldl_cons]
    refine (ih _ ?_).trans ?_
    · rw [hinsert]
      exact (hmove.map Sigma.fst).nodup_iff.mpr hnodup
    · rw [hinsert]
      exact hmove

/-- A map rebuilt from its entries, in any order, has these entries. -/
theorem perm_rebuild (m : AList fun _ : κ => ν) {entries : List (Σ _ : κ, ν)}
    (h : entries.Perm m.entries) : (rebuild entries).entries.Perm m.entries :=
  (perm_foldl_insert entries ∅ ((h.map Sigma.fst).nodup_iff.mpr m.nodupKeys)).trans h

end Rebuild

/-- The elements of a finite set, ascending. -/
def elements (s : Finset Nat) : List Nat :=
  Quot.liftOn s.1 (fun l => l.insertionSort (· ≤ ·)) fun a b h =>
    (((List.perm_insertionSort (· ≤ ·) a).trans h).trans
      (List.perm_insertionSort (· ≤ ·) b).symm).eq_of_pairwise
        (fun _ _ _ _ => Nat.le_antisymm) (List.pairwise_insertionSort _ _)
        (List.pairwise_insertionSort _ _)

theorem coe_elements (s : Finset Nat) : (elements s : Multiset Nat) = s.1 := by
  obtain ⟨s, hs⟩ := s
  induction s using Quot.ind with
  | mk l => exact Quot.sound (List.perm_insertionSort _ _)

@[simp] theorem mem_elements {s : Finset Nat} {n : Nat} : n ∈ elements s ↔ n ∈ s := by
  rw [← Multiset.mem_coe, coe_elements]
  rfl

@[simp] theorem length_elements (s : Finset Nat) : (elements s).length = s.card := by
  rw [← Multiset.coe_card, coe_elements]
  rfl

end Vecodex.Lib
