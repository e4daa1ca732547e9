import Mathlib.Data.List.Basic

/-!
# Guarded transition systems

A `System` has initial states and an executable, guarded step: `step s a` is `some s'` when the event `a` can happen
in `s`. Its runs are taken relative to a condition `C` on the state and the event of every step (`Run`), so that
"every run" and "every run whose steps all meet a condition" are one notion; `Reachable` is the case `C = True`.

* `invariantWhen`: what holds initially and is kept by every step that meets `C` holds in every state reached.
* `reachableWhen_of_replay`: a list of events that replays from an initial state reaches a state.
-/

namespace Salam

/-- Initial states and a guarded step. -/
structure System (σ ι : Type*) where
  init : σ → Prop
  step : σ → ι → Option σ

namespace System

variable {σ ι : Type*}

/-- The runs all of whose steps meet `C`. -/
inductive Run (S : System σ ι) (C : σ → ι → Prop) : σ → σ → Prop
  | refl (s : σ) : Run S C s s
  | tail {s s' s'' : σ} {a : ι} : Run S C s s' → C s' a → S.step s' a = some s'' → Run S C s s''

/-- The states that runs meeting `C` reach from an initial state. -/
def ReachableWhen (S : System σ ι) (C : σ → ι → Prop) (s : σ) : Prop := ∃ s₀, S.init s₀ ∧ S.Run C s₀ s

/-- The states that some run reaches. -/
def Reachable (S : System σ ι) : σ → Prop := S.ReachableWhen fun _ _ => True

section Runs

variable {S : System σ ι} {C D : σ → ι → Prop}

theorem Run.single {s s' : σ} {a : ι} (hC : C s a) (h : S.step s a = some s') : S.Run C s s' :=
  .tail (.refl s) hC h

theorem Run.trans {s s' s'' : σ} (h₁ : S.Run C s s') (h₂ : S.Run C s' s'') : S.Run C s s'' := by
  induction h₂ with
  | refl => exact h₁
  | tail _ hC h ih => exact .tail ih hC h

theorem Run.mono (hCD : ∀ s a, C s a → D s a) {s s' : σ} (h : S.Run C s s') : S.Run D s s' := by
  induction h with
  | refl => exact .refl _
  | tail _ hC h ih => exact .tail ih (hCD _ _ hC) h

theorem ReachableWhen.init {s : σ} (h : S.init s) : S.ReachableWhen C s := ⟨s, h, .refl s⟩

theorem ReachableWhen.run {s s' : σ} (h : S.ReachableWhen C s) (h' : S.Run C s s') : S.ReachableWhen C s' := by
  obtain ⟨s₀, h₀, hr⟩ := h
  exact ⟨s₀, h₀, hr.trans h'⟩

theorem ReachableWhen.step {s s' : σ} {a : ι} (h : S.ReachableWhen C s) (hC : C s a) (hs : S.step s a = some s') :
    S.ReachableWhen C s' := h.run (.single hC hs)

theorem ReachableWhen.mono (hCD : ∀ s a, C s a → D s a) {s : σ} (h : S.ReachableWhen C s) : S.ReachableWhen D s := by
  obtain ⟨s₀, h₀, hr⟩ := h
  exact ⟨s₀, h₀, hr.mono hCD⟩

theorem ReachableWhen.reachable {s : σ} (h : S.ReachableWhen C s) : S.Reachable s :=
  h.mono fun _ _ _ => trivial

/-- What every step meeting `C` keeps, a run meeting `C` keeps. -/
theorem Run.keeps {I : σ → Prop} (hstep : ∀ s a s', I s → C s a → S.step s a = some s' → I s') {s s' : σ}
    (h : S.Run C s s') (hs : I s) : I s' := by
  induction h with
  | refl => exact hs
  | tail _ hC h ih => exact hstep _ _ _ ih hC h

/-- **The invariant rule**, with everything already known of the reached states at hand in the step. -/
theorem invariantWhen {I : σ → Prop} (hinit : ∀ s, S.init s → I s)
    (hstep : ∀ s a s', S.ReachableWhen C s → I s → C s a → S.step s a = some s' → I s') {s : σ}
    (h : S.ReachableWhen C s) : I s := by
  obtain ⟨s₀, h₀, hr⟩ := h
  induction hr with
  | refl => exact hinit _ h₀
  | tail hr hC h ih => exact hstep _ _ _ ⟨s₀, h₀, hr⟩ ih hC h

end Runs

/-- Replay events from a state, as long as they meet `C`. -/
def replay (S : System σ ι) (C : σ → ι → Bool) : σ → List ι → Option σ
  | s, [] => some s
  | s, a :: as => if C s a then (S.step s a).bind fun s' => replay S C s' as else none

theorem run_of_replay {S : System σ ι} {C : σ → ι → Bool} : ∀ {as : List ι} {s s' : σ},
    S.replay C s as = some s' → S.Run (fun s a => C s a = true) s s'
  | [], s, s', h => by cases h; exact .refl s
  | a :: as, s, s', h => by
    simp only [replay, Option.ite_none_right_eq_some, Option.bind_eq_some_iff] at h
    obtain ⟨hC, s₁, h₁, h₂⟩ := h
    exact (Run.single (C := fun s a => C s a = true) hC h₁).trans (run_of_replay h₂)

/-- What a replay from an initial state shows is true of a state that such runs reach. -/
theorem reachableWhen_of_replay {S : System σ ι} {C : σ → ι → Bool} {s₀ : σ} (h₀ : S.init s₀) (as : List ι)
    (p : σ → Prop) [DecidablePred p] (h : (S.replay C s₀ as).any (fun s => decide (p s)) = true) :
    ∃ s, S.ReachableWhen (fun s a => C s a = true) s ∧ p s := by
  obtain ⟨s, hs, hp⟩ := (Option.any_eq_true _ _).mp h
  exact ⟨s, ⟨s₀, h₀, run_of_replay hs⟩, of_decide_eq_true hp⟩

theorem reachable_of_replay {S : System σ ι} {s₀ : σ} (h₀ : S.init s₀) (as : List ι) (p : σ → Prop) [DecidablePred p]
    (h : (S.replay (fun _ _ => true) s₀ as).any (fun s => decide (p s)) = true) : ∃ s, S.Reachable s ∧ p s := by
  obtain ⟨s, hs, hp⟩ := reachableWhen_of_replay h₀ as p h
  exact ⟨s, hs.reachable, hp⟩

theorem replay_append {S : System σ ι} {C : σ → ι → Bool} : ∀ (as bs : List ι) (s : σ),
    S.replay C s (as ++ bs) = (S.replay C s as).bind fun s' => S.replay C s' bs
  | [], bs, s => rfl
  | a :: as, bs, s => by
    simp only [List.cons_append, replay]
    split
    · simp only [replay_append as bs, Option.bind_assoc]
    · rfl

/-- A replay that passes through a state with `p`, takes the step `a` there and ends in a state with `q`. -/
theorem run_through_of_replay {S : System σ ι} {s₀ : σ} (h₀ : S.init s₀) (as : List ι) (a : ι) (bs : List ι)
    (p q : σ → Prop) [DecidablePred p] [DecidablePred q]
    (hp : (S.replay (fun _ _ => true) s₀ as).any (fun s => decide (p s)) = true)
    (hq : (S.replay (fun _ _ => true) s₀ (as ++ a :: bs)).any (fun s => decide (q s)) = true) :
    ∃ s s₁ s₂, S.Reachable s ∧ p s ∧ S.step s a = some s₁ ∧ S.Run (fun _ _ => True) s₁ s₂ ∧ q s₂ := by
  obtain ⟨s, hs, hps⟩ := (Option.any_eq_true _ _).mp hp
  obtain ⟨s₂, hs₂, hqs⟩ := (Option.any_eq_true _ _).mp hq
  rw [replay_append, hs] at hs₂
  simp only [Option.bind_some, replay, if_true, Option.bind_eq_some_iff] at hs₂
  obtain ⟨s₁, hs₁, hrun⟩ := hs₂
  exact ⟨s, s₁, s₂, ReachableWhen.reachable ⟨s₀, h₀, run_of_replay hs⟩, of_decide_eq_true hps, hs₁,
    (run_of_replay hrun).mono fun _ _ _ => trivial, of_decide_eq_true hqs⟩

end System

theorem ok_of_toOption {ε α : Type*} {x : Except ε α} {a : α} (h : x.toOption = some a) : x = .ok a := by
  cases x with
  | error e => cases h
  | ok b => exact congrArg _ (Option.some.inj h)

theorem ok_of_map {ε α β : Type*} {x : Except ε α} {f : α → β} {b : β} (h : x.map f = .ok b) :
    ∃ a, x = .ok a ∧ f a = b := by
  cases x with
  | error e => cases h
  | ok a => exact ⟨a, rfl, Except.ok.inj h⟩

theorem ok_of_mapError {ε ε' α : Type*} {f : ε → ε'} {x : Except ε α} {a : α} (h : x.mapError f = .ok a) :
    x = .ok a := by
  cases x with
  | error e => cases h
  | ok b => exact congrArg _ (Except.ok.inj h)

section

variable {ε α β : Type*} {x : Except ε α}

theorem ok_of_bind {f : α → Except ε β} {b : β} (h : x.bind f = .ok b) : ∃ a, x = .ok a ∧ f a = .ok b := by
  cases x with
  | error e => cases h
  | ok a => exact ⟨a, rfl, h⟩

/-- What goes wrong in a sequence goes wrong in its first part or, after that, in its second. -/
theorem error_of_bind {f : α → Except ε β} {e : ε} (h : x.bind f = .error e) :
    x = .error e ∨ ∃ a, x = .ok a ∧ f a = .error e := by
  cases x with
  | error e' => exact .inl (congrArg _ (Except.error.inj h))
  | ok a => exact .inr ⟨a, rfl, h⟩

theorem error_of_map {f : α → β} {e : ε} (h : x.map f = .error e) : x = .error e := by
  cases x with
  | error e' => exact congrArg _ (Except.error.inj h)
  | ok a => cases h

end

theorem ok_of_guard {ε α : Type*} {c : Prop} [Decidable c] {e : ε} {x : Except ε α} {a : α}
    (h : (if c then .error e else x) = .ok a) : ¬ c ∧ x = .ok a := by
  by_cases hc : c
  · rw [if_pos hc] at h
    cases h
  · rw [if_neg hc] at h
    exact ⟨hc, h⟩

/-- A loop ends well if each of its rounds does; `I done s` is what holds after the elements `done`. -/
theorem foldlM_ok {ε ι σ : Type*} {f : σ → ι → Except ε σ} {I : List ι → σ → Prop} {done as : List ι} {s : σ}
    (hstep : ∀ pre a post s, done ++ as = pre ++ a :: post → I pre s → ∃ s', f s a = .ok s' ∧ I (pre ++ [a]) s')
    (h : I done s) : ∃ s', as.foldlM f s = .ok s' ∧ I (done ++ as) s' := by
  induction as generalizing done s with
  | nil => exact ⟨s, rfl, by rwa [List.append_nil]⟩
  | cons a as ih =>
    have hassoc : done ++ a :: as = done ++ [a] ++ as := by rw [List.append_assoc, List.singleton_append]
    obtain ⟨s₁, hs₁, h₁⟩ := hstep done a as s rfl h
    rw [hassoc] at hstep ⊢
    obtain ⟨s', hs', h'⟩ := ih hstep h₁
    refine ⟨s', ?_, h'⟩
    rw [List.foldlM_cons, hs₁]
    exact hs'

/-- Two loops over one list that end well keep a relation that their bodies keep. -/
theorem foldlM_simulation {ε ι σ τ : Type*} {f : σ → ι → Except ε σ} {g : τ → ι → Except ε τ} {R : σ → τ → Prop}
    {as : List ι} {s s' : σ} {t t' : τ}
    (hstep : ∀ a ∈ as, ∀ s t s' t', R s t → f s a = .ok s' → g t a = .ok t' → R s' t')
    (hf : as.foldlM f s = .ok s') (hg : as.foldlM g t = .ok t') (h : R s t) : R s' t' := by
  induction as generalizing s t with
  | nil =>
    obtain rfl := Except.ok.inj hf
    obtain rfl := Except.ok.inj hg
    exact h
  | cons a as ih =>
    obtain ⟨s₁, hs₁, hf⟩ := ok_of_bind hf
    obtain ⟨t₁, ht₁, hg⟩ := ok_of_bind hg
    exact ih (fun b hb => hstep b (List.mem_cons_of_mem _ hb)) hf hg (hstep a List.mem_cons_self _ _ _ _ h hs₁ ht₁)

end Salam
