import Salam.Base.RangeSets

/-!
# Merging interleaved ranges

`merge` is the constructor of `AddrRange` from a list of ranges. It accepts a group with one range for each match value,
in order, and drops the masks. The match value that it expects is a `uint8_t`, which starts again after 255.

* `matchFrom_iff`: the groups that are accepted.
* `merged_iff`: when every address of the merged range is in exactly one of its parts.
-/

namespace Salam.Base

/-- The calls of `fatal`. -/
inductive MergeErr
  /-- `ULL(1) << masks.size()` with 64 masks or more. -/
  | shift
  /-- `Got %d ranges spanning %d interleaving bits`. -/
  | count (ranges bits : Nat)
  /-- `Can only merge ranges with the same start, end and interleaving bits, %s %s`. -/
  | different (range part : AddrRange)
  /-- `Expected interleave match %d but got %d when merging`. -/
  | unexpected (expected got : BitVec 8)
  deriving DecidableEq

namespace AddrRange

/-- The loop over the ranges, from the expected match value on. -/
def matchFrom (first : AddrRange) : BitVec 8 → List AddrRange → Except MergeErr Unit
  | _, [] => .ok ()
  | expected, r :: ranges =>
    if first.mergesWith r then
      if r.intlvMatch = expected then matchFrom first (expected + 1) ranges
        else .error (.unexpected expected r.intlvMatch)
    else .error (.different first r)

/-- `AddrRange(const std::vector<AddrRange>& ranges)`. -/
def merge (ranges : List AddrRange) : Except MergeErr AddrRange :=
  let first := ranges.headD (rangeEx 1 0)
  if 1 < ranges.length then
    if 64 ≤ first.masks.length then .error .shift
    else if ranges.length ≠ 2 ^ first.masks.length then .error (.count ranges.length first.masks.length)
    else (matchFrom first 0 ranges).map fun _ => rangeEx first.start first.end_
  else .ok first

variable {first merged : AddrRange} {ranges : List AddrRange} {a : Addr}

/-! ## The groups that are accepted -/

theorem matchFrom_iff {expected : BitVec 8} :
    matchFrom first expected ranges = .ok () ↔
      ∀ i r, ranges[i]? = some r → first.mergesWith r = true ∧ r.intlvMatch = expected + BitVec.ofNat 8 i := by
  induction ranges generalizing expected with
  | nil => simp [matchFrom]
  | cons r ranges ih =>
    rw [matchFrom]
    constructor
    · intro h i part hpart
      split at h
      · next hm =>
        split at h
        · next hmatch =>
          cases i with
          | zero =>
            obtain rfl : r = part := by simpa using hpart
            exact ⟨hm, by simpa using hmatch⟩
          | succ i =>
            obtain ⟨hm', hmatch'⟩ := ih.mp h i part (by simpa using hpart)
            refine ⟨hm', ?_⟩
            rw [hmatch', BitVec.add_assoc, Nat.add_comm i 1, BitVec.ofNat_add]
            rfl
        · cases h
      · cases h
    · intro h
      obtain ⟨hm, hmatch⟩ := h 0 r rfl
      rw [if_pos hm, if_pos (by simpa using hmatch)]
      refine ih.mpr fun i part hpart => ?_
      obtain ⟨hm', hmatch'⟩ := h (i + 1) part (by simpa using hpart)
      refine ⟨hm', ?_⟩
      rw [hmatch', BitVec.add_assoc, Nat.add_comm i 1, BitVec.ofNat_add]
      rfl

theorem merge_cases (h : merge ranges = .ok merged) :
    (ranges = [] ∧ merged = rangeEx 1 0) ∨ ranges = [merged] ∨
      1 < ranges.length ∧ ∃ first : AddrRange, merged = rangeEx first.start first.end_ ∧
      ranges.length = 2 ^ first.masks.length ∧
        ∀ i r, ranges[i]? = some r → first.mergesWith r = true ∧ r.intlvMatch = BitVec.ofNat 8 i := by
  unfold merge at h
  by_cases hlen : 1 < ranges.length
  · refine Or.inr (Or.inr ⟨hlen, ranges.headD (rangeEx 1 0), ?_⟩)
    rw [if_pos hlen] at h
    split at h
    · cases h
    · split at h
      · cases h
      · next hcount =>
        cases hm : matchFrom (ranges.headD (rangeEx 1 0)) 0 ranges with
        | error e =>
          rw [hm] at h
          cases h
        | ok u =>
          rw [hm] at h
          exact ⟨(Except.ok.inj h).symm, not_not.mp hcount, by simpa using matchFrom_iff.mp hm⟩
  · rw [if_neg hlen] at h
    cases ranges with
    | nil => exact Or.inl ⟨rfl, (Except.ok.inj h).symm⟩
    | cons r rest =>
      cases rest with
      | nil => exact Or.inr (Or.inl (congrArg (fun v => [v]) (Except.ok.inj h)))
      | cons r' rest => exact absurd (by simp) hlen

/-! ## The parts of a merged range -/

/-- The merged range has the addresses of its parts, and each of them is in one part. -/
structure MergedRight (ranges : List AddrRange) (merged : AddrRange) : Prop where
  union : ∀ a, merged.Holds a ↔ ∃ part ∈ ranges, part.Holds a
  once : ∀ a, merged.Holds a → ∃! i : Fin ranges.length, (ranges.get i).Holds a

section Group

variable (hgroup : ∀ i r, ranges[i]? = some r → first.mergesWith r = true ∧ r.intlvMatch = BitVec.ofNat 8 i)

include hgroup

/-- The addresses of a part are those whose selected bits are its place, up to 255. -/
theorem holds_part (i : Fin ranges.length) :
    (ranges.get i).Holds a ↔ first.masks.length ≤ 32 ∧ first.start ≤ a ∧ a < first.end_ ∧
    selFrom a 0 first.masks = i % 256 := by
  obtain ⟨hm, hmatch⟩ := hgroup i (ranges.get i) (by simp)
  obtain ⟨hs, he, hmasks⟩ := mergesWith_iff.mp hm
  rw [holds_iff, ← hs, ← he, ← hmasks, hmatch, BitVec.toNat_ofNat]

theorem merged_group (hlen : ranges.length = 2 ^ first.masks.length) (h8 : ranges.length ≤ 256) :
    MergedRight ranges (rangeEx first.start first.end_) := by
  have hmasks : first.masks.length ≤ 8 := by
    by_contra hgt
    have h9 : 2 ^ 9 ≤ 2 ^ first.masks.length := Nat.pow_le_pow_right (by decide) (by omega)
    omega
  have hmem : ∀ a, (rangeEx first.start first.end_).Holds a → ∀ i : Fin ranges.length,
      (ranges.get i).Holds a ↔ selFrom a 0 first.masks = i := by
    intro a ha i
    obtain ⟨h₁, h₂, -⟩ := (holds_plain rfl).mp ha
    have hi := i.isLt
    rw [holds_part hgroup, Nat.mod_eq_of_lt (by omega)]
    exact ⟨fun h => h.2.2.2, fun h => ⟨by omega, h₁, h₂, h⟩⟩
  have hsel : ∀ a, selFrom a 0 first.masks < ranges.length := fun a => hlen ▸ selFrom_lt a first.masks
  refine ⟨fun a => ⟨fun ha => ?_, ?_⟩, fun a ha => ?_⟩
  · exact ⟨_, List.get_mem ranges ⟨_, hsel a⟩, (hmem a ha ⟨_, hsel a⟩).mpr rfl⟩
  · rintro ⟨part, hpart, ha⟩
    obtain ⟨i, rfl⟩ := List.get_of_mem hpart
    obtain ⟨-, h₁, h₂, -⟩ := (holds_part hgroup i).mp ha
    exact (holds_plain rfl).mpr ⟨h₁, h₂, rfl⟩
  · exact ⟨⟨_, hsel a⟩, (hmem a ha _).mpr rfl, fun i hi => Fin.ext ((hmem a ha i).mp hi).symm⟩

/-- With more than 256 parts an address is in none of them, or in two. -/
theorem not_merged_group (hlen : ranges.length = 2 ^ first.masks.length) (h8 : 256 < ranges.length)
    (ha : (rangeEx first.start first.end_).Holds a) : ¬ MergedRight ranges (rangeEx first.start first.end_) := by
  intro h
  have hmasks : 9 ≤ first.masks.length := by
    by_contra hgt
    have h256 : 2 ^ first.masks.length ≤ 2 ^ 8 := Nat.pow_le_pow_right (by decide) (by omega)
    omega
  have h512 : 2 ^ 9 ≤ 2 ^ first.masks.length := Nat.pow_le_pow_right (by decide) hmasks
  obtain ⟨i, hi, honly⟩ := h.once a ha
  obtain ⟨hn, h₁, h₂, hsel⟩ := (holds_part hgroup i).mp hi
  have hother : ∀ j : Fin ranges.length, (j : Nat) % 256 = i % 256 → j = i := fun j hj =>
    honly j ((holds_part hgroup j).mpr ⟨hn, h₁, h₂, hj ▸ hsel⟩)
  have hlow := hother ⟨i % 256, by omega⟩ (Nat.mod_mod _ _)
  have hhigh := hother ⟨i % 256 + 256, by omega⟩ (by simp)
  have hval := congrArg Fin.val (hlow.trans hhigh.symm)
  simp at hval

end Group

/-- **A merged range has its parts exactly once if they are at most 256, or if it is empty.** -/
theorem merged_iff (h : merge ranges = .ok merged) :
    MergedRight ranges merged ↔ ranges.length ≤ 256 ∨ ∀ r ∈ ranges, r.end_ ≤ r.start := by
  rcases merge_cases h with ⟨rfl, rfl⟩ | rfl | ⟨hlen, first, rfl, hcount, hgroup⟩
  · have hnone : ∀ a, ¬ (rangeEx 1 0).Holds a := by
      intro a ha
      have hlt := ((holds_plain rfl).mp ha).2.1
      exact Nat.not_lt_zero _ hlt
    exact ⟨fun _ => Or.inl (Nat.zero_le _),
      fun _ => ⟨fun a => ⟨fun ha => absurd ha (hnone a), fun ⟨_, hm, _⟩ => (by cases hm)⟩,
      fun a ha => absurd ha (hnone a)⟩⟩
  · refine ⟨fun _ => Or.inl (by simp), fun _ => ⟨fun a => by simp, fun a ha => ⟨⟨0, by simp⟩, ha, fun i _ => ?_⟩⟩⟩
    have hi : (i : Nat) < 1 := i.isLt
    exact Fin.ext (Nat.lt_one_iff.mp hi)
  · constructor
    · intro hright
      by_contra hcond
      rw [not_or, Nat.not_le] at hcond
      obtain ⟨h256, hne⟩ := hcond
      refine hne fun r hr => ?_
      obtain ⟨i, hi⟩ := List.mem_iff_getElem?.mp hr
      obtain ⟨hs, he, -⟩ := mergesWith_iff.mp (hgroup i r hi).1
      rw [← hs, ← he]
      refine BitVec.not_lt.mp fun hlt => ?_
      exact not_merged_group hgroup hcount h256 (a := first.start)
        ((holds_plain rfl).mpr ⟨BitVec.le_refl _, hlt, rfl⟩) hright
    · rintro (h256 | hempty)
      · exact merged_group hgroup hcount h256
      · obtain ⟨r, hr⟩ := List.exists_mem_of_length_pos (Nat.lt_trans Nat.zero_lt_one hlen)
        obtain ⟨i, hi⟩ := List.mem_iff_getElem?.mp hr
        obtain ⟨hs, he, -⟩ := mergesWith_iff.mp (hgroup i r hi).1
        have hnone : ∀ a, first.start ≤ a → ¬ a < first.end_ := by
          intro a h₁ h₂
          rw [hs] at h₁
          rw [he] at h₂
          exact absurd (lt_of_le_of_lt h₁ h₂) (BitVec.not_lt.mpr (hempty r hr))
        refine ⟨fun a => ⟨fun ha => ?_, ?_⟩, fun a ha => ?_⟩
        · obtain ⟨h₁, h₂, -⟩ := (holds_plain rfl).mp ha
          exact absurd h₂ (hnone a h₁)
        · rintro ⟨part, hpart, ha⟩
          obtain ⟨j, rfl⟩ := List.get_of_mem hpart
          obtain ⟨-, h₁, h₂, -⟩ := (holds_part hgroup j).mp ha
          exact absurd h₂ (hnone a h₁)
        · obtain ⟨h₁, h₂, -⟩ := (holds_plain rfl).mp ha
          exact absurd h₂ (hnone a h₁)

/-! ## Groups -/

theorem evenMask_fits : [1#64] ≠ [] → (0#8).toNat < 2 ^ [1#64].length := fun _ => by decide

/-- The address 0. -/
def evenOnly : AddrRange := ⟨0, 2, [1], 0, evenMask_fits⟩

theorem merged_evenOdd : MergedRight [evenOnly, oddOnly] (rangeEx 0 2) :=
  (merged_iff (by rfl)).mpr (Or.inl (by decide))

def nineMasks : List Addr := (List.range 9).map fun i => 1#64 <<< i

theorem ninePart_fits (i : Nat) : nineMasks ≠ [] → (BitVec.ofNat 8 i).toNat < 2 ^ nineMasks.length := fun _ =>
  Nat.lt_of_lt_of_le (BitVec.ofNat 8 i).isLt (by decide)

/-- A part of the region from 0 to 512. -/
def ninePart (i : Nat) : AddrRange := ⟨0, 512, nineMasks, BitVec.ofNat 8 i, ninePart_fits i⟩

def nineParts : List AddrRange := (List.range' 0 512).map ninePart

theorem nineParts_group (i : Nat) (r : AddrRange) (h : nineParts[i]? = some r) :
    (ninePart 0).mergesWith r = true ∧ r.intlvMatch = BitVec.ofNat 8 i := by
  rw [nineParts, List.getElem?_map] at h
  obtain ⟨j, hj, rfl⟩ := Option.map_eq_some_iff.mp h
  obtain ⟨_, hij⟩ := List.getElem?_eq_some_iff.mp hj
  rw [List.getElem_range', Nat.zero_add, Nat.one_mul] at hij
  exact ⟨mergesWith_iff.mpr ⟨rfl, rfl, rfl⟩, by rw [← hij]; rfl⟩

theorem merge_nineParts : merge nineParts = .ok (rangeEx 0 512) := by
  have hlen : nineParts.length = 512 := by simp [nineParts]
  have hhead : nineParts.headD (rangeEx 1 0) = ninePart 0 := by rfl
  have hbits : (ninePart 0).masks.length = 9 := by rfl
  have hmatch : matchFrom (ninePart 0) 0 nineParts = .ok () :=
    matchFrom_iff.mpr fun i r h => by simpa using nineParts_group i r h
  simp only [merge, hhead, hlen, hbits, hmatch]
  rfl

/-- 512 parts, two for each match value: address 0 is in two of them. -/
theorem in_two_parts : merge nineParts = .ok (rangeEx 0 512) ∧ ¬ MergedRight nineParts (rangeEx 0 512) := by
  have hlen : nineParts.length = 512 := by simp [nineParts]
  have hzero : (rangeEx (ninePart 0).start (ninePart 0).end_).Holds 0 :=
    (holds_plain rfl).mpr ⟨BitVec.le_refl _, by decide, rfl⟩
  refine ⟨merge_nineParts, not_merged_group nineParts_group ?_ (by omega) hzero⟩
  rw [hlen]
  rfl

end AddrRange

end Salam.Base
