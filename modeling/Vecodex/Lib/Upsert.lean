import Mathlib.Logic.Function.Basic

/-!
# Objects that are created or updated

A store of objects by key, and the operation that brings one of them to a wanted form: it reads the
object, or starts from a blank one, applies a function and writes the result. The calls behind it
can fail before the write and after it, and the function can refuse.
-/

namespace Vecodex.Lib

variable {κ α ε : Type} [DecidableEq κ]

/-- What becomes of the remote calls of one operation. -/
inductive Fate (ε : Type)
  | fine
  /-- A call fails and nothing is written. -/
  | lost (e : ε)
  /-- The object is written, and the answer is an error all the same. -/
  | unheard (e : ε)

def createOrUpdate (fate : Fate ε) (objects : κ → Option α) (key : κ) (blank : α)
    (mutate : α → Except ε α) : Except ε Unit × (κ → Option α) :=
  match fate with
  | .lost e => (.error e, objects)
  | .fine =>
    match mutate ((objects key).getD blank) with
    | .error e => (.error e, objects)
    | .ok object => (.ok (), Function.update objects key (some object))
  | .unheard e =>
    match mutate ((objects key).getD blank) with
    | .error e => (.error e, objects)
    | .ok object => (.error e, Function.update objects key (some object))

variable {fate : Fate ε} {objects : κ → Option α} {key : κ} {blank : α} {mutate : α → Except ε α}

/-- The objects afterwards: what they were, or with the result of the function at the key. -/
theorem createOrUpdate_cases (fate : Fate ε) (objects : κ → Option α) (key : κ) (blank : α)
    (mutate : α → Except ε α) :
    (∃ e, createOrUpdate fate objects key blank mutate = (.error e, objects)) ∨
    ∃ result object, mutate ((objects key).getD blank) = .ok object ∧
      createOrUpdate fate objects key blank mutate =
        (result, Function.update objects key (some object)) := by
  unfold createOrUpdate
  cases fate with
  | lost e => exact Or.inl ⟨e, rfl⟩
  | fine =>
    cases hmutate : mutate ((objects key).getD blank) with
    | error e => exact Or.inl ⟨e, rfl⟩
    | ok object => exact Or.inr ⟨_, object, rfl, rfl⟩
  | unheard e =>
    cases hmutate : mutate ((objects key).getD blank) with
    | error e' => exact Or.inl ⟨e', rfl⟩
    | ok object => exact Or.inr ⟨_, object, rfl, rfl⟩

/-- Objects of other keys stay as they are. -/
theorem createOrUpdate_other {other : κ} (h : other ≠ key) :
    (createOrUpdate fate objects key blank mutate).2 other = objects other := by
  rcases createOrUpdate_cases fate objects key blank mutate with
    ⟨e, heq⟩ | ⟨result, object, -, heq⟩
  · rw [heq]
  · rw [heq]
    exact Function.update_of_ne h _ _

/-- A success has written the result of the function. -/
theorem createOrUpdate_of_ok (h : (createOrUpdate fate objects key blank mutate).1 = .ok ()) :
    ∃ object, mutate ((objects key).getD blank) = .ok object ∧
      (createOrUpdate fate objects key blank mutate).2 =
        Function.update objects key (some object) := by
  rcases createOrUpdate_cases fate objects key blank mutate with
    ⟨e, heq⟩ | ⟨result, object, hmutate, heq⟩
  · rw [heq] at h
    cases h
  · exact ⟨object, hmutate, by rw [heq]⟩

/-- An object that the function leaves alone stays as it is, whatever becomes of the calls. -/
theorem createOrUpdate_fixed {object : α} (hobject : objects key = some object)
    (hfixed : mutate object = .ok object) :
    (createOrUpdate fate objects key blank mutate).2 = objects := by
  rcases createOrUpdate_cases fate objects key blank mutate with
    ⟨e, heq⟩ | ⟨result, object', hmutate, heq⟩
  · rw [heq]
  · rw [hobject, Option.getD_some, hfixed] at hmutate
    rw [heq, ← Except.ok.inj hmutate, ← hobject]
    exact Function.update_eq_self key objects

end Vecodex.Lib
