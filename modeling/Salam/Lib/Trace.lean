import Mathlib.Data.List.Induction

/-!
# Traces in which every event is allowed by what came before

`Ordered ok l`: each event of the trace `l` satisfies `ok` with respect to the events before it. Traces grow at the
end, so one extends an ordered trace by looking at the new events only (`Ordered.concat`, `Ordered.append`).

* `Ordered.countP_le_one`: an event that is only allowed for the first time occurs once.
-/

namespace Salam

variable {α : Type*}

/-- Every event is allowed by the events before it. -/
def Ordered (ok : List α → α → Prop) (l : List α) : Prop := ∀ l₁ a l₂, l = l₁ ++ a :: l₂ → ok l₁ a

namespace Ordered

variable {ok : List α → α → Prop} {l : List α}

theorem nil : Ordered ok [] := by
  intro l₁ a l₂ h
  simp at h

theorem append {l' : List α} (h : Ordered ok l) (h' : ∀ l₁ a l₂, l' = l₁ ++ a :: l₂ → ok (l ++ l₁) a) :
    Ordered ok (l ++ l') := by
  intro l₁ a l₂ he
  rcases List.append_eq_append_iff.mp he with ⟨m, rfl, hm⟩ | ⟨m, hl, hm⟩
  · exact h' m a l₂ hm
  · cases m with
    | nil =>
      simpa [hl] using h' [] a l₂ (by simpa using hm.symm)
    | cons b m =>
      obtain ⟨rfl, rfl⟩ : a = b ∧ l₂ = m ++ l' := by simpa using hm
      exact h l₁ a m hl

theorem concat {a : α} (h : Ordered ok l) (ha : ok l a) : Ordered ok (l ++ [a]) := by
  refine h.append fun l₁ b l₂ he => ?_
  obtain ⟨rfl, rfl⟩ : l₁ = [] ∧ a = b := by
    cases l₁ with
    | nil => exact ⟨rfl, (List.cons.inj he).1⟩
    | cons x l₁ => simp at he
  simpa using ha

/-- Events of a kind that every one of them may only be the first of occur at most once. -/
theorem countP_le_one {p : α → Bool} (h : Ordered ok l)
    (hp : ∀ l a, ok l a → p a = true → ∀ b ∈ l, p b = false) : l.countP p ≤ 1 := by
  induction l using List.reverseRecOn with
  | nil => simp
  | append_singleton l a ih =>
    have hl : Ordered ok l := fun l₁ b l₂ he => h l₁ b (l₂ ++ [a]) (by simp [he])
    by_cases ha : p a = true
    · have h0 : l.countP p = 0 := List.countP_eq_zero.mpr fun b hb => by simp [hp l a (h l a [] rfl) ha b hb]
      simp [ha, h0]
    · simpa [ha] using ih hl

end Ordered

end Salam
