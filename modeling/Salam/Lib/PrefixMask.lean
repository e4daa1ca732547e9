import Mathlib.Data.BitVec

/-!
# Masks of the leading bits

`prefixMask n` selects the `n` most significant bits of a word. `Agree n x y` says that two words have the same `n`
leading bits.

* `and_prefixMask_eq_iff`: masked words are equal exactly when they agree.
* `prefixMask_and_eq_iff`: a mask is within another exactly when it is shorter.
* `prefixMask_extend`: shifting a mask and setting the most significant bit makes it one bit longer.
-/

namespace Salam

variable {w : Nat}

/-- The mask of the `n` most significant bits. -/
def prefixMask (n : Nat) : BitVec w := BitVec.allOnes w <<< (w - n)

/-- Two words have the same `n` leading bits. -/
def Agree (n : Nat) (x y : BitVec w) : Prop := ∀ i < n, x.getMsbD i = y.getMsbD i

instance (n : Nat) (x y : BitVec w) : Decidable (Agree n x y) := inferInstanceAs (Decidable (∀ i < n, _))

section Agree

variable {n m : Nat} {x y z : BitVec w}

theorem Agree.refl (n : Nat) (x : BitVec w) : Agree n x x := fun _ _ => rfl

theorem Agree.symm (h : Agree n x y) : Agree n y x := fun i hi => (h i hi).symm

theorem Agree.trans (h : Agree n x y) (h' : Agree n y z) : Agree n x z := fun i hi => (h i hi).trans (h' i hi)

theorem Agree.mono (h : Agree n x y) (hmn : m ≤ n) : Agree m x y := fun i hi => h i (by omega)

theorem agree_zero (x y : BitVec w) : Agree 0 x y := fun _ hi => absurd hi (Nat.not_lt_zero _)

theorem agree_succ : Agree (n + 1) x y ↔ Agree n x y ∧ x.getMsbD n = y.getMsbD n := by
  constructor
  · intro h
    exact ⟨h.mono (Nat.le_succ n), h n (Nat.lt_succ_self n)⟩
  · rintro ⟨h, hn⟩ i hi
    rcases Nat.lt_succ_iff_lt_or_eq.mp hi with hi | rfl
    · exact h i hi
    · exact hn

end Agree

section Mask

variable {n m : Nat} {x y : BitVec w}

theorem getMsbD_prefixMask (n i : Nat) : (prefixMask n : BitVec w).getMsbD i = decide (i < n ∧ i < w) := by
  unfold prefixMask
  rw [BitVec.getMsbD_shiftLeft]
  simp only [BitVec.getMsbD_allOnes]
  by_cases hi : i < n ∧ i < w
  · simp only [hi, and_self, decide_true, decide_eq_true_eq]
    omega
  · simp only [hi, decide_false, decide_eq_false_iff_not]
    omega

theorem eq_of_getMsbD {x y : BitVec w} (h : ∀ i < w, x.getMsbD i = y.getMsbD i) : x = y :=
  BitVec.eq_of_getMsbD_eq fun i hi => h i hi

/-- **Masked words are equal exactly when the words agree.** -/
theorem and_prefixMask_eq_iff : x &&& prefixMask n = y &&& prefixMask n ↔ Agree n x y := by
  constructor
  · intro h i hi
    have hbit : (x &&& prefixMask n).getMsbD i = (y &&& prefixMask n).getMsbD i := by rw [h]
    simp only [BitVec.getMsbD_and, getMsbD_prefixMask] at hbit
    by_cases hw : i < w
    · simpa [hi, hw] using hbit
    · rw [BitVec.getMsbD_of_ge _ _ (by omega), BitVec.getMsbD_of_ge _ _ (by omega)]
  · intro h
    apply eq_of_getMsbD
    intro i _
    simp only [BitVec.getMsbD_and, getMsbD_prefixMask]
    by_cases hi : i < n
    · rw [h i hi]
    · simp [hi]

theorem and_prefixMask_eq_of_masked (hy : y &&& prefixMask n = y) : x &&& prefixMask n = y ↔ Agree n x y := by
  rw [← and_prefixMask_eq_iff, hy]

theorem and_prefixMask_agree (n : Nat) (x : BitVec w) : Agree n (x &&& prefixMask n) x := by
  rw [← and_prefixMask_eq_iff, BitVec.and_assoc, BitVec.and_self]

theorem and_prefixMask_and (n : Nat) (x : BitVec w) : x &&& prefixMask n &&& prefixMask n = x &&& prefixMask n := by
  rw [BitVec.and_assoc, BitVec.and_self]

/-- **One mask is within another exactly when it is shorter.** -/
theorem prefixMask_and_eq_iff (hn : n ≤ w) : (prefixMask n &&& prefixMask m : BitVec w) = prefixMask n ↔ n ≤ m := by
  constructor
  · intro h
    by_contra hlt
    have hbit : (prefixMask n &&& prefixMask m : BitVec w).getMsbD m = (prefixMask n : BitVec w).getMsbD m := by rw [h]
    simp only [BitVec.getMsbD_and, getMsbD_prefixMask] at hbit
    simp [show m < n by omega, show m < w by omega] at hbit
  · intro h
    apply eq_of_getMsbD
    intro i hi
    simp only [BitVec.getMsbD_and, getMsbD_prefixMask]
    by_cases hin : i < n
    · simp [hin, hi, show i < m by omega]
    · simp [hin]

theorem prefixMask_inj (hn : n ≤ w) (hm : m ≤ w) : (prefixMask n : BitVec w) = prefixMask m ↔ n = m := by
  constructor
  · intro h
    have hnm : n ≤ m := (prefixMask_and_eq_iff hn).mp (by rw [← h, BitVec.and_self])
    have hmn : m ≤ n := (prefixMask_and_eq_iff hm).mp (by rw [h, BitVec.and_self])
    omega
  · rintro rfl
    rfl

theorem prefixMask_zero : (prefixMask 0 : BitVec w) = 0#w := by
  apply eq_of_getMsbD
  intro i _
  simp [getMsbD_prefixMask]

theorem prefixMask_of_le (h : w ≤ n) : (prefixMask n : BitVec w) = BitVec.allOnes w := by
  rw [prefixMask, Nat.sub_eq_zero_of_le h, BitVec.shiftLeft_zero]

/-- **A mask that is shifted and given its most significant bit is one bit longer.** -/
theorem prefixMask_extend (hw : 0 < w) (n : Nat) :
    prefixMask n ||| (prefixMask n >>> 1) ||| (1#w <<< (w - 1)) = prefixMask (n + 1) := by
  apply eq_of_getMsbD
  intro i hi
  simp only [BitVec.getMsbD_or, BitVec.getMsbD_ushiftRight, BitVec.getMsbD_shiftLeft, getMsbD_prefixMask,
    BitVec.getMsbD_one]
  rcases Nat.eq_zero_or_pos i with rfl | h0
  · simp [hw]
  · by_cases hin : i < n + 1
    · simp [hin, hi, show ¬ i < 1 by omega, show i - 1 < n by omega, show i - 1 < w by omega]
    · simp [hin, show ¬ i < n by omega, show ¬ i - 1 < n by omega]
      omega

/-- The length of a mask. -/
def maskLen (m : BitVec w) : Nat := (List.range w).countP fun i => m.getMsbD i

theorem maskLen_prefixMask (hn : n ≤ w) : maskLen (prefixMask n : BitVec w) = n := by
  unfold maskLen
  simp only [getMsbD_prefixMask]
  have hsplit : List.range w = List.range n ++ (List.range (w - n)).map (n + ·) := by
    rw [← List.range_add]
    congr 1
    omega
  rw [hsplit, List.countP_append, List.countP_eq_length.mpr, List.countP_eq_zero.mpr, List.length_range]
  · rfl
  · intro a ha
    obtain ⟨b, -, rfl⟩ := List.mem_map.mp ha
    simp
  · intro a ha
    have := List.mem_range.mp ha
    simp
    omega

end Mask

end Salam
