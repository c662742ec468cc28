import Mathlib.Data.List.Basic

/-!
# Since, over finite logs

`Since on off log` says that an entry of the log switched something on and that no later entry
switched it off. Whether an entry switches it off may depend on everything before it. This is the
past operator of temporal logic for logs that grow at their end, and `since_concat` is its
unfolding: what the next entry changes can be told from the entry and the log so far.
-/

namespace Vecodex.Lib

variable {α : Type}

/-- An entry of the log is `on`, and no later one is `off`, given what came before it. -/
def Since (on : α → Prop) (off : List α → α → Prop) (log : List α) : Prop :=
  ∃ before entry after, log = before ++ entry :: after ∧ on entry ∧
    ∀ between later rest, after = between ++ later :: rest →
      ¬off (before ++ entry :: between) later

variable {on : α → Prop} {off : List α → α → Prop}

theorem not_since_nil : ¬Since on off [] := by
  rintro ⟨before, entry, after, hlog, -⟩
  simp at hlog

/-- One entry more. -/
theorem since_concat {log : List α} {e : α} :
    Since on off (log ++ [e]) ↔ on e ∨ Since on off log ∧ ¬off log e := by
  constructor
  · rintro ⟨before, entry, after, hlog, hon, hoff⟩
    rcases List.eq_nil_or_concat after with rfl | ⟨after, last, rfl⟩
    · obtain ⟨-, rfl⟩ := List.append_singleton_inj.mp hlog
      exact .inl hon
    · rw [List.concat_eq_append, ← List.cons_append, ← List.append_assoc] at hlog
      obtain ⟨rfl, rfl⟩ := List.append_singleton_inj.mp hlog
      rw [List.concat_eq_append] at hoff
      refine .inr ⟨⟨before, entry, after, rfl, hon, ?_⟩, hoff after e [] rfl⟩
      intro between later rest hafter
      refine hoff between later (rest ++ [e]) ?_
      rw [hafter, List.append_assoc, List.cons_append]
  · rintro (hon | ⟨⟨before, entry, after, rfl, hon, hoff⟩, hlast⟩)
    · exact ⟨log, e, [], rfl, hon, fun between later rest h => by simp at h⟩
    · refine ⟨before, entry, after ++ [e], by simp, hon, ?_⟩
      intro between later rest hafter
      rcases List.eq_nil_or_concat rest with rfl | ⟨rest, last, rfl⟩
      · obtain ⟨rfl, rfl⟩ := List.append_singleton_inj.mp hafter
        exact hlast
      · rw [List.concat_eq_append, ← List.cons_append, ← List.append_assoc] at hafter
        exact hoff between later rest (List.append_singleton_inj.mp hafter).1

end Vecodex.Lib
