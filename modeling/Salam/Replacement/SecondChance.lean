import Mathlib.Data.List.Count
import Salam.Lib.FirstLeast

/-!
# `SecondChanceRP`

A FIFO queue by the ticks of insertion: the victim search takes the first candidate of the smallest tick. As long as
that has a second chance, it loses it and is put in the queue again by the current tick.

* `FIFORP.getVictim_least`: the FIFO victim is the earliest, the first position of those inserted in one tick.
* `Searched`: what the search has done to the candidates whenever it looks at them again.
* `secondChance_iff`: when the victim and the queue are those of second chance.
-/

namespace Salam.Replacement

structure SecondChanceReplData where
  tickInserted : Nat
  hasSecondChance : Bool
  deriving DecidableEq

/-- There is at least one candidate. -/
abbrev Candidates (n : Nat) := Vector SecondChanceReplData (n + 1)

/-- `FIFORP::getVictim` -/
def FIFORP.getVictim {n : Nat} (candidates : Candidates n) : Fin (n + 1) :=
  (List.finRange (n + 1)).foldl
    (fun victim candidate =>
      if candidates[candidate].tickInserted < candidates[victim].tickInserted then candidate else victim) 0

/-- Candidate `i` is inserted before candidate `j`: in an earlier tick, or in the same one at an earlier position. -/
def Before {n : Nat} (candidates : Candidates n) (i j : Fin (n + 1)) : Prop :=
  candidates[i].tickInserted < candidates[j].tickInserted ∨
    candidates[i].tickInserted = candidates[j].tickInserted ∧ i < j

instance {n : Nat} (candidates : Candidates n) (i j : Fin (n + 1)) : Decidable (Before candidates i j) :=
  inferInstanceAs (Decidable (_ ∨ _))

section Fifo

variable {n : Nat} {candidates : Candidates n}

/-- **The FIFO victim** is before all other candidates. -/
theorem FIFORP.getVictim_least (candidates : Candidates n) {j : Fin (n + 1)} (hj : j ≠ getVictim candidates) :
    Before candidates (getVictim candidates) j := by
  rcases firstLeast_spec (fun i => candidates[i].tickInserted) (pairwise_zero_finRange n) j
    (List.mem_cons_of_mem _ (List.mem_finRange j)) with h | ⟨heq, hle⟩
  · exact .inl h
  · exact .inr ⟨heq, lt_of_le_of_ne hle (Ne.symm hj)⟩

end Fifo

/-! ## The search -/

namespace SecondChanceRP

/-- `useSecondChance`, with the current tick. -/
def useSecondChance {n : Nat} (curTick : Nat) (candidates : Candidates n) (i : Fin (n + 1)) : Candidates n :=
  candidates.set i ⟨curTick, false⟩

/-- The loop of `getVictim`, with the victim and what becomes of the candidates. -/
def searchVictim {n : Nat} (curTick : Nat) (candidates : Candidates n) : Fin (n + 1) × Candidates n :=
  let victim := FIFORP.getVictim candidates
  if h : candidates[victim].hasSecondChance = true then searchVictim curTick (useSecondChance curTick candidates victim)
  else (victim, candidates)
  termination_by candidates.countP (·.hasSecondChance)
  decreasing_by
    -- the victim has lost its second chance
    have hchance : candidates[(FIFORP.getVictim candidates).val].hasSecondChance = true := h
    have hpos : 0 < candidates.countP (·.hasSecondChance) := by
      rw [Vector.countP_pos_iff]
      exact ⟨_, Vector.getElem_mem _, hchance⟩
    rw [useSecondChance, Vector.countP_set, if_pos hchance, if_neg Bool.false_ne_true]
    omega

def getVictim {n : Nat} (curTick : Nat) (candidates : Candidates n) : Fin (n + 1) × Candidates n :=
  match (List.finRange (n + 1)).find? fun i =>
    candidates[i].tickInserted = 0 && !candidates[i].hasSecondChance with
  | some candidate => (candidate, candidates)
  | none => searchVictim curTick candidates

section Search

variable {n curTick : Nat} {os cs : Candidates n} {i j v : Fin (n + 1)}

/-- The candidate has lost its second chance. -/
def Used (os cs : Candidates n) (i : Fin (n + 1)) : Prop :=
  os[i].hasSecondChance = true ∧ cs[i].hasSecondChance = false

/-- What the search has done so far: those that lost their second chance were inserted before the others and are in the
queue by the current tick, in which only the first position can have been inserted too. -/
structure Searched (curTick : Nat) (os cs : Candidates n) : Prop where
  used : ∀ i, Used os cs i → cs[i] = ⟨curTick, false⟩
  kept : ∀ i, ¬ Used os cs i → cs[i] = os[i]
  order : ∀ i j, Used os cs i → ¬ Used os cs j → Before os i j
  last : ∀ i, Used os cs i → os[i].tickInserted = curTick → i = 0

theorem Searched.start (curTick : Nat) (os : Candidates n) : Searched curTick os os := by
  have hno : ∀ i, ¬ Used os os i := by
    rintro i ⟨h, h'⟩
    rw [h] at h'
    cases h'
  exact ⟨fun i h => absurd h (hno i), fun _ _ => rfl, fun i _ h => absurd h (hno i), fun i h => absurd h (hno i)⟩

theorem getElem_useSecondChance : (useSecondChance curTick cs v)[i] = if i = v then ⟨curTick, false⟩ else cs[i] := by
  rw [useSecondChance]
  simp only [Fin.getElem_fin, Vector.getElem_set, Fin.val_inj, eq_comm]

theorem used_useSecondChance (hv : os[v].hasSecondChance = true) :
    Used os (useSecondChance curTick cs v) i ↔ Used os cs i ∨ i = v := by
  rw [Used, Used, getElem_useSecondChance]
  split
  · rename_i h
    exact iff_of_true ⟨h ▸ hv, rfl⟩ (.inr h)
  · rename_i h
    exact (or_iff_left h).symm

theorem before_congr (hi : cs[i] = os[i]) (hj : cs[j] = os[j]) : Before cs i j ↔ Before os i j := by
  rw [Before, Before, hi, hj]

theorem Searched.le (h : Searched curTick os cs) (hnow : ∀ i : Fin (n + 1), os[i].tickInserted ≤ curTick)
    (i : Fin (n + 1)) :
    cs[i].tickInserted ≤ curTick := by
  by_cases hi : Used os cs i
  · rw [h.used i hi]
  · rw [h.kept i hi]
    exact hnow i

/-- **A step of the search.** -/
theorem Searched.step (h : Searched curTick os cs) (hnow : ∀ i : Fin (n + 1), os[i].tickInserted ≤ curTick)
    (hv : cs[FIFORP.getVictim cs].hasSecondChance = true) :
    Searched curTick os (useSecondChance curTick cs (FIFORP.getVictim cs)) := by
  have hnot : ¬ Used os cs (FIFORP.getVictim cs) := by
    rintro ⟨-, hlost⟩
    rw [hv] at hlost
    cases hlost
  have hkept := h.kept _ hnot
  have hused : ∀ i, Used os (useSecondChance curTick cs (FIFORP.getVictim cs)) i ↔
      Used os cs i ∨ i = FIFORP.getVictim cs := fun i => used_useSecondChance (hkept ▸ hv)
  refine ⟨fun i hi => ?_, fun i hi => ?_, fun i j hi hj => ?_, fun i hi htick => ?_⟩
  · rw [getElem_useSecondChance]
    split
    · rfl
    · rename_i hne
      exact h.used i (((hused i).mp hi).resolve_right hne)
  · rw [hused, not_or] at hi
    rw [getElem_useSecondChance, if_neg hi.2]
    exact h.kept i hi.1
  · rw [hused, not_or] at hj
    rcases (hused i).mp hi with hi | rfl
    · exact h.order i j hi hj.1
    · exact (before_congr hkept (h.kept j hj.1)).mp (FIFORP.getVictim_least cs hj.2)
  · rcases (hused i).mp hi with hi | rfl
    · exact h.last i hi htick
    · -- every tick is the current one, so that the first position is the victim
      by_contra hne
      rw [← hkept] at htick
      have hzero := h.le hnow 0
      rcases FIFORP.getVictim_least cs (Ne.symm hne) with hlt | ⟨-, hlt⟩
      · omega
      · exact absurd hlt (Fin.not_lt_zero _)

theorem searchVictim_eq (curTick : Nat) (cs : Candidates n) : searchVictim curTick cs =
    if cs[FIFORP.getVictim cs].hasSecondChance = true then
      searchVictim curTick (useSecondChance curTick cs (FIFORP.getVictim cs)) else (FIFORP.getVictim cs, cs) := by
  rw [searchVictim]
  split <;> rfl

/-- **The end of the search.** -/
theorem searchVictim_spec (hnow : ∀ i : Fin (n + 1), os[i].tickInserted ≤ curTick) (h : Searched curTick os cs)
    {out : Candidates n} (hout : searchVictim curTick cs = (v, out)) :
    Searched curTick os out ∧ v = FIFORP.getVictim out ∧ out[v].hasSecondChance = false := by
  induction cs using searchVictim.induct curTick with
  | case1 cs v hv ih =>
    rw [searchVictim_eq, if_pos hv] at hout
    exact ih (h.step hnow hv) hout
  | case2 cs v hv =>
    rw [searchVictim_eq, if_neg hv] at hout
    cases hout
    exact ⟨h, rfl, eq_false_of_ne_true hv⟩

/-! ## Second chance -/

def Invalid (data : SecondChanceReplData) : Prop := data.tickInserted = 0 ∧ data.hasSecondChance = false

/-- The candidates `S` have lost their second chance and are in the queue by the current tick, the others are as
before. -/
def Requeued (curTick : Nat) (os cs : Candidates n) (S : Fin (n + 1) → Prop) : Prop :=
  ∀ i, (S i → cs[i] = ⟨curTick, false⟩) ∧ (¬ S i → cs[i] = os[i])

/-- The victim is an invalid candidate if there is one, or the earliest without a second chance if there is one, or the
earliest; the candidates inserted before it, or in the last case all, have lost their second chance. -/
inductive SecondChance (curTick : Nat) (os : Candidates n) (v : Fin (n + 1)) (cs : Candidates n) : Prop
  | invalid : Invalid os[v] → cs = os → SecondChance curTick os v cs
  | unused : (∀ i : Fin (n + 1), ¬ Invalid os[i]) → os[v].hasSecondChance = false →
      (∀ i : Fin (n + 1), os[i].hasSecondChance = false → i ≠ v → Before os v i) →
      Requeued curTick os cs (fun i => Before os i v) → SecondChance curTick os v cs
  | all : (∀ i : Fin (n + 1), os[i].hasSecondChance = true) → (∀ i : Fin (n + 1), i ≠ v → Before os v i) →
      Requeued curTick os cs (fun _ => True) → SecondChance curTick os v cs

/-- When the queue is kept: there is an invalid candidate, or one without a second chance that is inserted before the
current tick or first, or all have one, the first candidate is the earliest and no other one is inserted in the current
tick. -/
def Kept (curTick : Nat) (os : Candidates n) : Prop :=
  (∃ i : Fin (n + 1), Invalid os[i]) ∨
  (∃ i : Fin (n + 1), os[i].hasSecondChance = false ∧ os[i].tickInserted < curTick) ∨
  os[(0 : Fin (n + 1))].hasSecondChance = false ∨
  (∀ i : Fin (n + 1), os[i].hasSecondChance = true) ∧
    ∀ i : Fin (n + 1), i ≠ 0 → os[(0 : Fin (n + 1))].tickInserted ≤ os[i].tickInserted ∧ os[i].tickInserted < curTick

theorem before_trichotomy (os : Candidates n) (hne : i ≠ j) : Before os i j ↔ ¬ Before os j i := by
  simp only [Before, Fin.lt_def]
  omega

/-- A victim that kept its place is the earliest without a second chance, and those before it lost theirs. -/
theorem Searched.unused (h : Searched curTick os cs) (hv : ¬ Used os cs v) (hleast : ∀ i, i ≠ v → Before cs v i) :
    (∀ i : Fin (n + 1), os[i].hasSecondChance = false → i ≠ v → Before os v i) ∧
      Requeued curTick os cs (fun i => Before os i v) := by
  have hafter : ∀ i, ¬ Used os cs i → i ≠ v → Before os v i := fun i hi hne =>
    (before_congr (h.kept v hv) (h.kept i hi)).mp (hleast i hne)
  refine ⟨fun i hi hne => hafter i (fun hu => ?_) hne,
    fun i => ⟨fun hb => h.used i ?_, fun hb => h.kept i fun hu => ?_⟩⟩
  · rw [hu.1] at hi
    cases hi
  · by_contra hi
    by_cases hne : i = v
    · rw [hne] at hb
      simp only [Before, lt_irrefl, and_false, or_self] at hb
    · exact (before_trichotomy os hne).mp hb (hafter i hi hne)
  · exact hb (h.order i v hu hv)

/-- **When the search is that of second chance.** -/
theorem searched_iff (hnow : ∀ i : Fin (n + 1), os[i].tickInserted ≤ curTick)
    (hvalid : ∀ i : Fin (n + 1), ¬ Invalid os[i])
    (h : Searched curTick os cs) (hv : v = FIFORP.getVictim cs) (hlost : cs[v].hasSecondChance = false) :
    SecondChance curTick os v cs ↔ Kept curTick os := by
  have hleast : ∀ i, i ≠ v → Before cs v i := fun i hi => hv ▸ FIFORP.getVictim_least cs (hv ▸ hi)
  -- if no candidate without a second chance is older than the current tick, the first one is the victim
  have hfirst : (∀ i : Fin (n + 1), os[i].hasSecondChance = false → os[i].tickInserted = curTick) → v = 0 := by
    intro hold
    have htick : cs[v].tickInserted = curTick := by
      by_cases hu : Used os cs v
      · rw [h.used v hu]
      · rw [h.kept v hu] at hlost ⊢
        exact hold v hlost
    by_contra hne
    have hzero := h.le hnow 0
    rcases hleast 0 (Ne.symm hne) with hlt | ⟨-, hlt⟩
    · omega
    · exact absurd hlt (Fin.not_lt_zero _)
  have hunused : ¬ Used os cs v → SecondChance curTick os v cs := by
    intro hu
    obtain ⟨hearliest, hrequeued⟩ := h.unused hu hleast
    exact .unused hvalid (h.kept v hu ▸ hlost) hearliest hrequeued
  have hold : ∀ i : Fin (n + 1), os[i].hasSecondChance = false → os[i].tickInserted < curTick →
      SecondChance curTick os v cs := by
    intro i hi hlt
    have hiu : ¬ Used os cs i := by
      rintro ⟨hchance, -⟩
      rw [hi] at hchance
      cases hchance
    refine hunused fun hu => ?_
    have hne : i ≠ v := by
      rintro rfl
      exact hiu hu
    have hbefore := hleast i hne
    rw [Before, h.used v hu, h.kept i hiu] at hbefore
    simp only at hbefore
    omega
  constructor
  · rintro (⟨hinv, -⟩ | ⟨-, hchance, hearliest, -⟩ | ⟨hall, hearliest, hrequeued⟩)
    · exact absurd hinv (hvalid v)
    · by_cases hlt : os[v].tickInserted < curTick
      · exact .inr (.inl ⟨v, hchance, hlt⟩)
      · have hzero : v = 0 := hfirst fun i hi => by
          have hle := hnow i
          by_cases hne : i = v
          · rw [hne] at hle ⊢
            omega
          · have hbefore := hearliest i hi hne
            unfold Before at hbefore
            omega
        exact .inr (.inr (.inl (hzero ▸ hchance)))
    · have hzero : v = 0 := hfirst fun i hi => by
        rw [hall i] at hi
        cases hi
      refine .inr (.inr (.inr ⟨hall, fun i hi => ⟨?_, ?_⟩⟩))
      · have hbefore := hearliest i (hzero ▸ hi)
        rw [hzero] at hbefore
        unfold Before at hbefore
        omega
      · have hused : Used os cs i := ⟨hall i, by rw [(hrequeued i).1 trivial]⟩
        exact Nat.lt_of_le_of_ne (hnow i) fun heq => hi (h.last i hused heq)
  · rintro (⟨i, hi⟩ | ⟨i, hi, hlt⟩ | hchance | ⟨hall, hcond⟩)
    · exact absurd hi (hvalid i)
    · exact hold i hi hlt
    · by_cases hlt : ∃ i : Fin (n + 1), os[i].hasSecondChance = false ∧ os[i].tickInserted < curTick
      · obtain ⟨i, hi, hlt⟩ := hlt
        exact hold i hi hlt
      · have hzero : v = 0 := hfirst fun i hi => by
          by_contra hne
          exact hlt ⟨i, hi, Nat.lt_of_le_of_ne (hnow i) hne⟩
        refine hunused fun hu => ?_
        rw [hzero] at hu
        rw [hu.1] at hchance
        cases hchance
    · have hzero : v = 0 := hfirst fun i hi => by
        rw [hall i] at hi
        cases hi
      have hvu : Used os cs v := ⟨hall v, hlost⟩
      refine .all hall (fun i hi => ?_) fun i => ⟨fun _ => h.used i ?_, fun hno => absurd trivial hno⟩
      · rw [hzero] at hi ⊢
        have hle := (hcond i hi).1
        have hpos : (0 : Fin (n + 1)) < i := Fin.pos_of_ne_zero hi
        unfold Before
        omega
      · by_contra hi
        have hne : i ≠ v := by
          rintro rfl
          exact hi hvu
        have hbefore := hleast i hne
        rw [Before, h.used v hvu, h.kept i hi] at hbefore
        have hlt := (hcond i (hzero ▸ hne)).2
        simp only at hbefore
        omega

/-- **When second chance is followed**: those that are put in the queue again have one tick, and the first position goes
first. -/
theorem secondChance_iff {n curTick : Nat} (candidates : Candidates n)
    (hnow : ∀ i : Fin (n + 1), candidates[i].tickInserted ≤ curTick) :
    SecondChance curTick candidates (getVictim curTick candidates).1 (getVictim curTick candidates).2 ↔
      Kept curTick candidates := by
  cases hfind : (List.finRange (n + 1)).find? fun i =>
      candidates[i].tickInserted = 0 && !candidates[i].hasSecondChance with
  | some i =>
    have hinv : Invalid candidates[i] := by
      have hi := List.find?_some hfind
      simpa [Invalid] using hi
    have hout : getVictim curTick candidates = (i, candidates) := by rw [getVictim, hfind]
    rw [hout]
    exact iff_of_true (.invalid hinv rfl) (.inl ⟨i, hinv⟩)
  | none =>
    have hvalid : ∀ i : Fin (n + 1), ¬ Invalid candidates[i] := by
      intro i hi
      have hno := List.find?_eq_none.mp hfind i (List.mem_finRange i)
      exact hno (by simpa [Invalid] using hi)
    have hout : getVictim curTick candidates = searchVictim curTick candidates := by rw [getVictim, hfind]
    rw [hout]
    obtain ⟨hsearched, hv, hlost⟩ := searchVictim_spec hnow (Searched.start curTick candidates)
      (show searchVictim curTick candidates = (_, _) from rfl)
    exact searched_iff hnow hvalid hsearched hv hlost

/-- The second candidate has no second chance, and is the victim. -/
theorem secondChance_older : SecondChance 10 (n := 1) #v[⟨3, true⟩, ⟨5, false⟩]
    (getVictim 10 #v[⟨3, true⟩, ⟨5, false⟩]).1 (getVictim 10 #v[⟨3, true⟩, ⟨5, false⟩]).2 :=
  (secondChance_iff (n := 1) #v[⟨3, true⟩, ⟨5, false⟩] (by decide)).mpr (.inr (.inl ⟨1, by decide⟩))

/-- Both candidates have a second chance: the first one is the victim, though the second one was inserted before it. -/
theorem younger_victim : getVictim 10 (n := 1) #v[⟨5, true⟩, ⟨3, true⟩] = (0, #v[⟨10, false⟩, ⟨10, false⟩]) ∧
    ¬ SecondChance 10 (n := 1) #v[⟨5, true⟩, ⟨3, true⟩] 0 #v[⟨10, false⟩, ⟨10, false⟩] := by
  constructor
  · have hsearch : getVictim 10 (n := 1) #v[⟨5, true⟩, ⟨3, true⟩] = searchVictim 10 #v[⟨5, true⟩, ⟨3, true⟩] := rfl
    rw [hsearch, searchVictim_eq, if_pos (by decide), searchVictim_eq, if_pos (by decide), searchVictim_eq,
      if_neg (by decide)]
    rfl
  · rintro (⟨-, heq⟩ | ⟨-, hchance, -⟩ | ⟨-, hearliest, -⟩)
    · exact absurd heq (by decide)
    · exact absurd hchance (by decide)
    · exact absurd (hearliest 1 (by decide)) (by decide)

end Search

end SecondChanceRP

end Salam.Replacement
