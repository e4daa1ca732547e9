import Salam.Base.Interleave

/-!
# Ranges as sets of addresses

`intersects` and `isSubset` compare the ends, the masks and single addresses of two ranges.

* `intersectsRight_iff`: when `intersects` says whether the ranges have a common address.
* `single_iff`: the ranges for which the test of a single address is right.
* `subsetRight_iff`: when a range that `isSubset` accepts is a part of the other one.
-/

namespace Salam.Base.AddrRange

open BitVec (le_def le_refl lt_def not_lt)

theorem lt_of_le_of_lt {x y z : Addr} (h : x ≤ y) (h' : y < z) : x < z := by
  exact Nat.lt_of_le_of_lt h h'

variable {r s : AddrRange} {a b : Addr}

/-- Each of the ranges starts before the other one ends. -/
def Crossing (r s : AddrRange) : Prop := r.start < s.end_ ∧ s.start < r.end_

theorem Crossing.of_common (hr : r.Holds a) (hs : s.Holds a) : r.Crossing s := by
  obtain ⟨-, hr₁, hr₂, -⟩ := holds_iff.mp hr
  obtain ⟨-, hs₁, hs₂, -⟩ := holds_iff.mp hs
  exact ⟨lt_of_le_of_lt hr₁ hs₂, lt_of_le_of_lt hs₁ hr₂⟩

/-! ## Intersections -/

/-- `intersects` panics or says whether the ranges have a common address. -/
def IntersectsRight (r s : AddrRange) : Prop :=
  r.intersects s = .error .panic ∨ ∃ v, r.intersects s = .ok v ∧ (v = true ↔ ∃ a, r.Holds a ∧ s.Holds a)

/-- The test whether `r` contains the start of `s` is reached. -/
def SingleTest (r s : AddrRange) : Prop :=
  r.Crossing s ∧ (r.interleaved = true ∨ s.interleaved = true) ∧ s.masks.length < 64 ∧ s.size = 1

section Intersects

theorem intersects_apart (h : ¬ r.Crossing s) : r.intersects s = .ok false := by
  rw [intersects, if_pos]
  rw [Crossing, not_and_or, not_lt, not_lt] at h
  exact h

theorem intersects_plain (h : r.Crossing s) (hr : r.interleaved = false) (hs : s.interleaved = false) :
    r.intersects s = .ok true := by
  rw [intersects, if_neg, if_pos (by rw [hr, hs]; rfl)]
  rintro (hle | hle)
  · exact absurd h.1 (not_lt.mpr hle)
  · exact absurd h.2 (not_lt.mpr hle)

theorem intersects_interleaved (h : r.Crossing s) (hi : r.interleaved = true ∨ s.interleaved = true) :
    r.intersects s =
      if s.masks.length < 64 then
        if s.size = 1 then r.contains s.start
        else if r.mergesWith s then .ok (r.intlvMatch = s.intlvMatch)
        else .error .panic else .error .shift := by
  rw [intersects, if_neg, if_neg, sizeInt]
  · by_cases h64 : s.masks.length < 64
    · rw [if_pos h64, if_pos h64]
    · rw [if_neg h64, if_neg h64]
  · rcases hi with hi | hi <;> simp [hi]
  · rintro (hle | hle)
    · exact absurd h.1 (not_lt.mpr hle)
    · exact absurd h.2 (not_lt.mpr hle)

theorem intersects_single (h : r.SingleTest s) : r.intersects s = r.contains s.start := by
  rw [intersects_interleaved h.1 h.2.1, if_pos h.2.2.1, if_pos h.2.2.2]

theorem intersectsRight_ok {v : Bool} (h : r.intersects s = .ok v) :
    r.IntersectsRight s ↔ (v = true ↔ ∃ a, r.Holds a ∧ s.Holds a) := by
  rw [IntersectsRight, h]
  simp

/-- Ranges without interleaving that cross have a common address if neither of them is empty. -/
theorem common_plain (h : r.Crossing s) (hr : r.interleaved = false) (hs : s.interleaved = false) (hra : r.Holds a)
    (hsb : s.Holds b) : ∃ c, r.Holds c ∧ s.Holds c := by
  obtain ⟨hr₁, hr₂, hr₃⟩ := (holds_plain hr).mp hra
  obtain ⟨hs₁, hs₂, hs₃⟩ := (holds_plain hs).mp hsb
  obtain ⟨h₁, h₂⟩ := h
  rcases BitVec.le_total r.start s.start with hle | hle
  · exact ⟨s.start, (holds_plain hr).mpr ⟨hle, h₂, hr₃⟩,
      (holds_plain hs).mpr ⟨le_refl _, lt_of_le_of_lt hs₁ hs₂, hs₃⟩⟩
  · exact ⟨r.start, (holds_plain hr).mpr ⟨le_refl _, lt_of_le_of_lt hr₁ hr₂, hr₃⟩,
      (holds_plain hs).mpr ⟨hle, h₁, hs₃⟩⟩

theorem eq_of_mergesWith (hm : r.mergesWith s = true) (h : r.intlvMatch = s.intlvMatch) : r = s := by
  obtain ⟨h₁, h₂, h₃⟩ := mergesWith_iff.mp hm
  cases r
  cases s
  simp_all

/-- Outside the test of a single address: where both ranges have an address, and in a group that has one. -/
def IntersectsCond (r s : AddrRange) : Prop :=
  r.Crossing s →
    ((r.interleaved = false ∧ s.interleaved = false) → (∃ a, r.Holds a) ∧ ∃ a, s.Holds a) ∧
    ((r.interleaved = true ∨ s.interleaved = true) →
      s.masks.length < 64 ∧ (r.mergesWith s = true → r.intlvMatch = s.intlvMatch → ∃ a, r.Holds a))

theorem intersectsRight_iff (h : ¬ r.SingleTest s) : r.IntersectsRight s ↔ r.IntersectsCond s := by
  by_cases hc : r.Crossing s
  · by_cases hi : r.interleaved = true ∨ s.interleaved = true
    · have heq := intersects_interleaved hc hi
      have hplain : ¬ (r.interleaved = false ∧ s.interleaved = false) := by
        rintro ⟨hr, hs⟩
        rw [hr, hs] at hi
        simp at hi
      have hcond : r.IntersectsCond s ↔
          s.masks.length < 64 ∧ (r.mergesWith s = true → r.intlvMatch = s.intlvMatch → ∃ a, r.Holds a) :=
        ⟨fun hcond => (hcond hc).2 hi, fun hcond _ => ⟨fun hp => absurd hp hplain, fun _ => hcond⟩⟩
      rw [hcond]
      by_cases h64 : s.masks.length < 64
      · rw [if_pos h64, if_neg fun h1 => h ⟨hc, hi, h64, h1⟩] at heq
        by_cases hm : r.mergesWith s = true
        · rw [if_pos hm] at heq
          rw [intersectsRight_ok heq, decide_eq_true_iff]
          by_cases hmatch : r.intlvMatch = s.intlvMatch
          · obtain rfl := eq_of_mergesWith hm hmatch
            simp [h64, mergesWith_iff]
          · have hnone : ¬ ∃ a, r.Holds a ∧ s.Holds a := fun ⟨a, hra, hsa⟩ =>
              disjoint_of_apart (Or.inl ⟨hm, hmatch⟩) a ⟨hra, hsa⟩
            simp [h64, hmatch, hnone]
        · rw [if_neg hm] at heq
          exact ⟨fun _ => ⟨h64, fun hm' => absurd hm' hm⟩, fun _ => Or.inl heq⟩
      · rw [if_neg h64] at heq
        refine ⟨?_, fun hcond => absurd hcond.1 h64⟩
        rintro (herr | ⟨v, hv, -⟩)
        · rw [heq] at herr
          cases herr
        · rw [heq] at hv
          cases hv
    · have hr : r.interleaved = false := by simpa using fun hr => hi (Or.inl hr)
      have hs : s.interleaved = false := by simpa using fun hs => hi (Or.inr hs)
      rw [intersectsRight_ok (intersects_plain hc hr hs)]
      constructor
      · intro hv _
        obtain ⟨a, hra, hsa⟩ := hv.mp rfl
        exact ⟨fun _ => ⟨⟨a, hra⟩, ⟨a, hsa⟩⟩, fun hi' => absurd hi' hi⟩
      · intro hcond
        obtain ⟨⟨a, ha⟩, ⟨b, hb⟩⟩ := (hcond hc).1 ⟨hr, hs⟩
        exact ⟨fun _ => common_plain hc hr hs ha hb, fun _ => rfl⟩
  · rw [intersectsRight_ok (intersects_apart hc)]
    refine ⟨fun _ hc' => absurd hc' hc, fun _ => ⟨fun hv => (by cases hv), ?_⟩⟩
    rintro ⟨a, hra, hsa⟩
    exact absurd (Crossing.of_common hra hsa) hc

/-! ### The test of a single address -/

/-- `contains` does not shift its `int` too far at the start of `s`. -/
def StartDefined (r s : AddrRange) : Prop := r.masks.length ≤ 32 ∨ s.start < r.start

theorem single_of_defined (h : r.SingleTest s) (hd : r.StartDefined s) :
    ∃ v, r.intersects s = .ok v ∧ (v = true ↔ r.Holds s.start) := by
  rw [intersects_single h]
  rcases hd with hd | hd
  · rcases holds_or (a := s.start) hd with hin | hout
    · exact ⟨true, hin, by simp [hin]⟩
    · exact ⟨false, hout, by simp [Holds, hout]⟩
  · have hout : ¬ (r.start ≤ s.start ∧ s.start < r.end_) := fun hin => absurd hd (not_lt.mpr hin.1)
    refine ⟨false, contains_of_out hout, ?_⟩
    rw [Holds, contains_of_out hout]
    simp

theorem single_of_undefined (h : r.SingleTest s) (hd : ¬ r.StartDefined s) : r.intersects s = .error .shift := by
  rw [StartDefined, not_or, Nat.not_le, not_lt] at hd
  rw [intersects_single h]
  exact contains_error hd.1 ⟨hd.2, h.1.2⟩

theorem holds_rangeSize_one (ha : a < s.end_) : (rangeSize a 1).Holds b ↔ b = a := by
  have hend : (a + 1).toNat = a.toNat + 1 := by
    rw [lt_def] at ha
    rw [BitVec.toNat_add_of_lt] <;> simp
    omega
  rw [holds_plain rfl]
  show a ≤ b ∧ b < a + 1 ∧ (0 : BitVec 8) = 0 ↔ b = a
  rw [le_def, lt_def, hend, eq_self, and_true, ← BitVec.toNat_inj]
  omega

/-- The only address of the range is its start. -/
def OnlyStart (s : AddrRange) : Prop := ∀ a, s.Holds a ↔ a = s.start

theorem start_lt_end (hv : s.start ≤ s.end_) (h1 : s.size = 1) : s.start < s.end_ := by
  have hne : s.start.toNat ≠ s.end_.toNat := by
    intro heq
    rw [size, BitVec.eq_of_toNat_eq heq, BitVec.sub_self, BitVec.zero_ushiftRight] at h1
    simp at h1
  rw [le_def] at hv
  rw [lt_def]
  omega

/-- The range from `a` to `a + 1` reaches the test. -/
theorem rangeSize_test (hs : s.interleaved = true) (h64 : s.masks.length < 64) (h1 : s.size = 1) (ha : s.start ≤ a)
    (hae : a < s.end_) : (rangeSize a 1).SingleTest s ∧ (rangeSize a 1).start ≤ (rangeSize a 1).end_ := by
  have hend : (a + 1).toNat = a.toNat + 1 := by
    rw [lt_def] at hae
    rw [BitVec.toNat_add_of_lt] <;> simp
    omega
  refine ⟨⟨⟨hae, ?_⟩, Or.inr hs, h64, h1⟩, ?_⟩
  · show s.start < a + 1
    rw [le_def] at ha
    rw [lt_def, hend]
    omega
  · show a ≤ a + 1
    rw [le_def, hend]
    omega

theorem zeroMask_fits : [0#64] ≠ [] → (0#8).toNat < 2 ^ [0#64].length := fun _ => by decide

/-- An interleaved range without a bit in its mask: every address between the ends. -/
def zeroMask (start end_ : Addr) : AddrRange := ⟨start, end_, [0], 0, zeroMask_fits⟩

theorem holds_zeroMask {x y : Addr} : (zeroMask x y).Holds a ↔ x ≤ a ∧ a < y := by
  have hsel : selFrom a 0 [0#64] = 0 := by
    have hcount : popCount (a &&& 0#64) = 0 := by
      rw [BitVec.and_zero]
      decide
    rw [selFrom, selFrom, hcount]
    rfl
  rw [holds_iff]
  simp [zeroMask, hsel]

/-- **For which ranges the test of a single address is right.** -/
theorem single_iff (hv : s.start ≤ s.end_) (h64 : s.masks.length < 64) (h1 : s.size = 1) :
    (∀ r : AddrRange, r.start ≤ r.end_ → r.SingleTest s → (r.IntersectsRight s ↔ r.StartDefined s)) ↔ s.OnlyStart := by
  constructor
  · intro h
    have hstart := start_lt_end hv h1
    cases hs : s.interleaved with
    | false =>
      have hend : s.end_.toNat = s.start.toNat + 1 := by
        have hmasks : s.masks = [] := by simpa [interleaved] using hs
        have hval := congrArg BitVec.toNat h1
        rw [size, hmasks, List.length_nil, BitVec.ushiftRight_zero, BitVec.toNat_sub_of_le hv] at hval
        simp at hval
        omega
      have htest : (zeroMask s.start s.end_).SingleTest s := ⟨⟨hstart, hstart⟩, Or.inl rfl, h64, h1⟩
      have hdef : (zeroMask s.start s.end_).StartDefined s := Or.inl (by simp [zeroMask])
      obtain ⟨v, hv', hval⟩ := single_of_defined htest hdef
      have hin : (zeroMask s.start s.end_).Holds s.start := holds_zeroMask.mpr ⟨le_refl _, hstart⟩
      obtain ⟨a, -, ha⟩ := ((intersectsRight_ok hv').mp ((h (zeroMask s.start s.end_) hv htest).mpr hdef)).mp
        (hval.mpr hin)
      intro b
      obtain ⟨-, -, hmatch⟩ := (holds_plain hs).mp ha
      rw [holds_plain hs]
      constructor
      · rintro ⟨hb₁, hb₂, -⟩
        rw [le_def] at hb₁
        rw [lt_def] at hb₂
        exact BitVec.eq_of_toNat_eq (by omega)
      · rintro rfl
        exact ⟨le_refl _, hstart, hmatch⟩
    | true =>
      have hone : ∀ a, s.start ≤ a → a < s.end_ → (s.Holds a ↔ a = s.start) := by
        intro a ha hae
        obtain ⟨htest, hle⟩ := rangeSize_test hs h64 h1 ha hae
        have hdef : (rangeSize a 1).StartDefined s := Or.inl (by simp [rangeSize, rangeEx])
        obtain ⟨v, hv', hval⟩ := single_of_defined htest hdef
        have hright := (intersectsRight_ok hv').mp ((h _ hle htest).mpr hdef)
        rw [hval, holds_rangeSize_one hae] at hright
        constructor
        · intro hsa
          exact (hright.mpr ⟨a, (holds_rangeSize_one hae).mpr rfl, hsa⟩).symm
        · intro heq
          obtain ⟨b, hb, hsb⟩ := hright.mp heq.symm
          rw [holds_rangeSize_one hae] at hb
          exact hb ▸ hsb
      intro a
      constructor
      · intro hsa
        obtain ⟨-, ha, hae, -⟩ := holds_iff.mp hsa
        exact (hone a ha hae).mp hsa
      · rintro rfl
        exact (hone _ (le_refl _) hstart).mpr rfl
  · intro honly r _ htest
    constructor
    · intro hright
      by_contra hd
      have herr := single_of_undefined htest hd
      rcases hright with herr' | ⟨v, hv', -⟩
      · cases herr.symm.trans herr'
      · cases herr.symm.trans hv'
    · intro hd
      obtain ⟨v, hv', hval⟩ := single_of_defined htest hd
      rw [intersectsRight_ok hv', hval]
      constructor
      · exact fun hr => ⟨s.start, hr, (honly _).mpr rfl⟩
      · rintro ⟨a, hr, hs⟩
        exact (honly a).mp hs ▸ hr

end Intersects

/-! ## Subsets -/

/-- `isSubset` panics or accepts no range that is not a part of the other one. -/
def SubsetRight (r s : AddrRange) : Prop :=
  r.isSubset s = .error .panic ∨ ∃ v, r.isSubset s = .ok v ∧ (v = true → ∀ a, r.Holds a → s.Holds a)

section Subset

theorem getLsbD_combined (masks : List Addr) (c : BitVec 32) (i : Nat) :
    (masks.foldl (fun combined mask => combined ||| mask.setWidth 32) c).getLsbD i =
      (c.getLsbD i || masks.any fun mask => (mask.setWidth 32).getLsbD i) := by
  induction masks generalizing c with
  | nil => simp
  | cons m masks ih => rw [List.foldl_cons, ih, BitVec.getLsbD_or, List.any_cons, Bool.or_assoc]

/-- Where it is defined, the granularity is the power of two of a bit with no bit of a mask below it. -/
theorem granularity_spec (hs : s.interleaved = true) (h : ∃ mask ∈ s.masks, mask.setWidth 32 ≠ 0#32) :
    ∃ l, s.granularity = .ok (2 ^ l) ∧ ∀ m ∈ s.masks, ∀ i, m.getLsbD i = true → l ≤ i := by
  have hne : s.combinedMask ≠ 0#32 := by
    intro h0
    obtain ⟨mask, hmem, hmask⟩ := h
    exact hmask (((foldl_or_eq_zero _ _).mp h0).2 mask hmem)
  have hlt := ctz64_lt (signExtend_ne_zero hne)
  have hlow : ∀ i < 32, s.combinedMask.getLsbD i = true → ctz64 (s.combinedMask.signExtend 64) ≤ i := by
    intro i hi hbit
    by_contra hgt
    have hzero := getLsbD_of_lt_ctz64 (Nat.not_le.mp hgt)
    rw [BitVec.getLsbD_signExtend, if_pos hi, hbit] at hzero
    simp at hzero
    omega
  refine ⟨ctz64 (s.combinedMask.signExtend 64), by rw [granularity, if_pos hs, if_pos hlt], fun m hm i hbit => ?_⟩
  by_cases hi : i < 32
  · refine hlow i hi ?_
    rw [combinedMask, getLsbD_combined, Bool.or_eq_true, List.any_eq_true]
    exact Or.inr ⟨m, hm, by rw [BitVec.getLsbD_setWidth, decide_eq_true hi, hbit]; rfl⟩
  · -- a bit below the 32 lowest ones is in the combined mask
    obtain ⟨j, hj, hjbit⟩ : ∃ j < 32, s.combinedMask.getLsbD j = true := by
      by_contra hnone
      refine hne (BitVec.eq_of_getLsbD_eq fun j hj => ?_)
      rw [BitVec.getLsbD_zero]
      exact Bool.eq_false_iff.mpr fun hbit => hnone ⟨j, hj, hbit⟩
    have := hlow j hj hjbit
    omega

theorem selFrom_congr {l : Nat} {masks : List Addr} (h : ∀ m ∈ masks, ∀ i, m.getLsbD i = true → l ≤ i)
    (hab : a.toNat / 2 ^ l = b.toNat / 2 ^ l) : selFrom a 0 masks = selFrom b 0 masks := by
  refine selFrom_eq_iff.mpr fun m hm => ?_
  have heq : a &&& m = b &&& m := by
    refine BitVec.eq_of_getLsbD_eq fun i _ => ?_
    rw [BitVec.getLsbD_and, BitVec.getLsbD_and]
    cases hbit : m.getLsbD i with
    | false => simp
    | true =>
      obtain ⟨j, rfl⟩ := Nat.exists_eq_add_of_le' (h m hm i hbit)
      have htest := congrArg (fun n => n.testBit j) hab
      simp only [Nat.testBit_div_two_pow, BitVec.testBit_toNat] at htest
      rw [htest]
  rw [selected, selected, heq]

/-- A range that is no longer than the granularity lies in two blocks at most, those of its ends. -/
theorem holds_of_ends {g l : Nat} (hg : g = 2 ^ l) (h : ∀ m ∈ s.masks, ∀ i, m.getLsbD i = true → l ≤ i)
    (hr : r.interleaved = false) (hfirst : s.Holds r.start) (hlast : s.Holds (r.end_ - 1)) (hsize : r.size.toNat ≤ g)
    (ha : r.Holds a) : s.Holds a := by
  obtain ⟨ha₁, ha₂, -⟩ := (holds_plain hr).mp ha
  obtain ⟨hn, hf₁, -, hf₃⟩ := holds_iff.mp hfirst
  obtain ⟨-, -, hl₂, hl₃⟩ := holds_iff.mp hlast
  rw [le_def] at ha₁ hf₁
  rw [lt_def] at ha₂ hl₂
  have hend : (r.end_ - 1).toNat = r.end_.toNat - 1 := by
    rw [BitVec.toNat_sub_of_le] <;> simp [le_def]
    omega
  have hlen : r.end_.toNat - r.start.toNat ≤ 2 ^ l := by
    have hmasks : r.masks = [] := by simpa [interleaved] using hr
    have hle : r.start ≤ r.end_ := by
      rw [le_def]
      omega
    rw [size, hmasks, List.length_nil, BitVec.ushiftRight_zero, BitVec.toNat_sub_of_le hle, hg] at hsize
    exact hsize
  refine holds_iff.mpr ⟨hn, by rw [le_def]; omega, by rw [lt_def]; omega, ?_⟩
  have hlow : r.start.toNat / 2 ^ l ≤ a.toNat / 2 ^ l := Nat.div_le_div_right ha₁
  have hhigh : a.toNat / 2 ^ l ≤ (r.end_ - 1).toNat / 2 ^ l := Nat.div_le_div_right (by omega)
  have hnext : (r.end_ - 1).toNat / 2 ^ l ≤ r.start.toNat / 2 ^ l + 1 := by
    rw [← Nat.add_div_right _ (Nat.two_pow_pos l)]
    exact Nat.div_le_div_right (by omega)
  rcases Nat.eq_or_lt_of_le hlow with heq | hgt
  · rw [← hf₃]
    exact selFrom_congr h heq.symm
  · rw [← hl₃]
    exact selFrom_congr h (by omega)

/-- Where the range is accepted, the other one has a match value for the addresses, and where the masks are looked at,
they have a bit that is in an `int`. -/
def SubsetCond (r s : AddrRange) : Prop :=
  r.interleaved = false →
    (s.interleaved = false → s.start ≤ r.start → r.end_ ≤ s.end_ → (∃ a, r.Holds a) → s.intlvMatch = 0) ∧
    (s.interleaved = true →
      (s.start ≤ r.start → r.start < s.end_ → s.masks.length ≤ 32) ∧
      (s.Holds r.start → s.Holds (r.end_ - 1) → ∃ mask ∈ s.masks, mask.setWidth 32 ≠ 0#32))

theorem subsetRight_ok {v : Bool} (h : r.isSubset s = .ok v) :
    r.SubsetRight s ↔ (v = true → ∀ a, r.Holds a → s.Holds a) := by
  rw [SubsetRight, h]
  simp

theorem subsetRight_shift (h : r.isSubset s = .error .shift) : ¬ r.SubsetRight s := by
  rintro (herr | ⟨v, hv, -⟩)
  · cases h.symm.trans herr
  · cases h.symm.trans hv

theorem subsetRight_plain (hr : r.interleaved = false) (hs : s.interleaved = false) :
    r.SubsetRight s ↔ (s.start ≤ r.start → r.end_ ≤ s.end_ → (∃ a, r.Holds a) → s.intlvMatch = 0) := by
  have heq : r.isSubset s = .ok (s.start ≤ r.start && r.end_ ≤ s.end_) := by
    rw [isSubset, if_neg (by rw [hr]; decide), if_neg (by rw [hs]; decide)]
  rw [subsetRight_ok heq, Bool.and_eq_true, decide_eq_true_iff, decide_eq_true_iff]
  constructor
  · rintro h h₁ h₂ ⟨a, ha⟩
    exact ((holds_plain hs).mp (h ⟨h₁, h₂⟩ a ha)).2.2
  · rintro h ⟨h₁, h₂⟩ a ha
    obtain ⟨ha₁, ha₂, -⟩ := (holds_plain hr).mp ha
    exact (holds_plain hs).mpr ⟨BitVec.le_trans h₁ ha₁, by
      rw [le_def] at h₂
      rw [lt_def] at ha₂ ⊢
      omega, h h₁ h₂ ⟨a, ha⟩⟩

theorem subsetRight_interleaved (hr : r.interleaved = false) (hs : s.interleaved = true) :
    r.SubsetRight s ↔ (s.start ≤ r.start → r.start < s.end_ → s.masks.length ≤ 32) ∧
      (s.Holds r.start → s.Holds (r.end_ - 1) → ∃ mask ∈ s.masks, mask.setWidth 32 ≠ 0#32) := by
  have heq := isSubset_interleaved hr hs
  by_cases hin : s.start ≤ r.start ∧ r.start < s.end_
  · by_cases hn : s.masks.length ≤ 32
    · by_cases hfirst : s.Holds r.start
      · by_cases hlast : s.Holds (r.end_ - 1)
        · rw [if_pos hfirst, if_pos hlast] at heq
          by_cases hlow : ∃ mask ∈ s.masks, mask.setWidth 32 ≠ 0#32
          · obtain ⟨l, hg, hbits⟩ := granularity_spec hs hlow
            rw [hg] at heq
            rw [subsetRight_ok heq, decide_eq_true_iff]
            exact ⟨fun _ => ⟨fun _ _ => hn, fun _ _ => hlow⟩, fun _ hsize a ha =>
              holds_of_ends rfl hbits hr hfirst hlast hsize ha⟩
          · rw [granularity_error hs hlow] at heq
            exact ⟨fun h => absurd h (subsetRight_shift heq), fun h => absurd (h.2 hfirst hlast) hlow⟩
        · have hout : s.contains (r.end_ - 1) = .ok false := (holds_or hn).resolve_left hlast
          rw [if_pos hfirst, if_neg hlast, hout] at heq
          rw [subsetRight_ok heq]
          exact ⟨fun _ => ⟨fun _ _ => hn, fun _ h => absurd h hlast⟩, fun _ h => (by cases h)⟩
      · have hout : s.contains r.start = .ok false := (holds_or hn).resolve_left hfirst
        rw [if_neg hfirst, hout] at heq
        rw [subsetRight_ok heq]
        exact ⟨fun _ => ⟨fun _ _ => hn, fun h => absurd h hfirst⟩, fun _ h => (by cases h)⟩
    · rw [if_neg fun h => hn (holds_iff.mp h).1, contains_error (by omega) hin] at heq
      exact ⟨fun h => absurd h (subsetRight_shift heq), fun h => absurd (h.1 hin.1 hin.2) hn⟩
  · rw [if_neg fun h => hin (holds_iff_selInt.mp h).1, contains_of_out hin] at heq
    rw [subsetRight_ok heq]
    have hfirst : ¬ s.Holds r.start := fun h => by
      obtain ⟨-, h₁, h₂, -⟩ := holds_iff.mp h
      exact hin ⟨h₁, h₂⟩
    exact ⟨fun _ => ⟨fun h₁ h₂ => absurd ⟨h₁, h₂⟩ hin, fun h => absurd h hfirst⟩, fun _ h => (by cases h)⟩

/-- When a range that `isSubset` accepts is a part of the other one. -/
theorem subsetRight_iff : r.SubsetRight s ↔ r.SubsetCond s := by
  cases hr : r.interleaved with
  | true =>
    refine ⟨fun _ hr' => ?_, fun _ => Or.inl (if_pos hr)⟩
    rw [hr] at hr'
    cases hr'
  | false =>
    cases hs : s.interleaved with
    | true =>
      rw [subsetRight_interleaved hr hs]
      exact ⟨fun h _ => ⟨fun hs' => (by rw [hs] at hs'; cases hs'), fun _ => h⟩, fun h => (h hr).2 hs⟩
    | false =>
      rw [subsetRight_plain hr hs]
      exact ⟨fun h _ => ⟨fun _ => h, fun hs' => (by rw [hs] at hs'; cases hs')⟩, fun h => (h hr).1 hs⟩

end Subset

/-! ## Both -/

/-- **When the two tests are right**: `intersects` outside the test of a single address, that test, and `isSubset`. -/
theorem sets_exact {r s : AddrRange} (hs : s.start ≤ s.end_) :
    (¬ r.SingleTest s → (r.IntersectsRight s ↔ r.IntersectsCond s)) ∧
    (r.SingleTest s →
      ((∀ r' : AddrRange, r'.start ≤ r'.end_ → r'.SingleTest s → (r'.IntersectsRight s ↔ r'.StartDefined s)) ↔
      s.OnlyStart)) ∧
    (r.SubsetRight s ↔ r.SubsetCond s) :=
  ⟨intersectsRight_iff, fun h => single_iff hs h.2.2.1 h.2.2.2, subsetRight_iff⟩

theorem eightMask_fits : [8#64] ≠ [] → (0#8).toNat < 2 ^ [8#64].length := fun _ => by decide

def eightBlocks : AddrRange := ⟨0, 64, [8], 0, eightMask_fits⟩

theorem sets_eightBlocks : (rangeEx 0 4).IntersectsRight eightBlocks ∧ (rangeEx 0 4).SubsetRight eightBlocks := by
  have hsize : eightBlocks.size ≠ 1 := by decide
  have hmerge : (rangeEx 0 4).mergesWith eightBlocks = false := by rfl
  have h := sets_exact (r := rangeEx 0 4) (s := eightBlocks) (by simp [eightBlocks, BitVec.le_def])
  refine ⟨(h.1 fun hone => hsize hone.2.2.2).mpr fun _ => ⟨fun hp => ?_, fun _ => ⟨by decide, fun hm => ?_⟩⟩,
    h.2.2.mpr fun _ => ⟨fun hp => ?_, fun _ => ⟨fun _ _ => by decide, fun _ _ => ⟨8, List.mem_cons_self, by decide⟩⟩⟩⟩
  · cases hp.2
  · rw [hmerge] at hm
    cases hm
  · cases hp

theorem oddMask_fits : [1#64] ≠ [] → (1#8).toNat < 2 ^ [1#64].length := fun _ => by decide

/-- The address 1. -/
def oddOnly : AddrRange := ⟨0, 2, [1], 1, oddMask_fits⟩

/-- A range of one address that is not its start, and a range of no address. -/
theorem no_common_address :
    ((rangeSize 0 1).intersects oddOnly = .ok true ∧ ¬ (rangeSize 0 1).IntersectsRight oddOnly) ∧
    (rangeEx 5 5).intersects (rangeEx 0 10) = .ok true ∧ ¬ (rangeEx 5 5).IntersectsRight (rangeEx 0 10) := by
  have hodd : (rangeSize 0 1).intersects oddOnly = .ok true := by rfl
  have hempty : (rangeEx 5 5).intersects (rangeEx 0 10) = .ok true := by rfl
  refine ⟨⟨hodd, fun h => ?_⟩, hempty, fun h => ?_⟩
  · obtain ⟨a, ha, hs⟩ := ((intersectsRight_ok hodd).mp h).mp rfl
    obtain rfl := (holds_rangeSize_one (s := oddOnly) (by decide)).mp ha
    have hout : oddOnly.contains 0 = .ok false := by rfl
    cases hout.symm.trans hs
  · obtain ⟨a, ha, -⟩ := ((intersectsRight_ok hempty).mp h).mp rfl
    obtain ⟨h₁, h₂, -⟩ := (holds_plain rfl).mp ha
    exact absurd h₁ (BitVec.not_le.mpr h₂)

end Salam.Base.AddrRange
