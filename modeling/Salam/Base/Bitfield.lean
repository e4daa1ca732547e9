import Salam.Base.AddrRange

/-!
# `bitfield.hh`

Some bits of a word of 64 bits, from `last` to `first`, and the word with other bits put there. The functions are total;
where a shift can be undefined, `checkedInsertBits` says so.

* `getLsbD_mask`, `getLsbD_bits`, `getLsbD_insertBits`: the bits of what they give.
-/

namespace Salam.Base.Bitfield

def mask (nbits : Nat) : Addr := if nbits = 64 then BitVec.allOnes 64 else 1#64 <<< nbits - 1#64

def bits (val : Addr) (first last : Nat) : Addr := (val >>> last) &&& mask (first - last + 1)

def mbits (val : Addr) (first last : Nat) : Addr := val &&& (mask (first + 1) &&& ~~~mask last)

/-- `insertBits`, which puts no bits in if `first` is `last - 1`. -/
def insertBits (val : Addr) (first : Int) (last : Nat) (bit_val : Addr) : Addr :=
  let bmask := mask (first - last + 1).toNat <<< last
  ((bit_val <<< last) &&& bmask) ||| (val &&& ~~~bmask)

/-- `insertBits`, with its shifts: that of `mask(first - last + 1)`, and that by `last`. -/
def checkedInsertBits (val : Addr) (first : Int) (last : Nat) (bit_val : Addr) : Except RangeErr Addr :=
  if 0 ≤ first - last + 1 ∧ first - last + 1 ≤ 64 ∧ last < 64 then .ok (insertBits val first last bit_val)
  else .error .shift

/-- `bits(val, bit)` of a `uint8_t`, which is shifted as an `int`. -/
def checkedBit (val : BitVec 8) (bit : Nat) : Except RangeErr Addr :=
  if bit < 32 then .ok ((val >>> bit).setWidth 64 &&& 1) else .error .shift

theorem getLsbD_mask {n i : Nat} (hn : n ≤ 64) : (mask n).getLsbD i = decide (i < n) := by
  unfold mask
  split
  · rename_i h
    rw [h, BitVec.getLsbD_allOnes]
  · have hlt : n < 64 := by omega
    have hpow : 2 ^ n < 2 ^ 64 := Nat.pow_lt_pow_right (by decide) hlt
    have hpos : 0 < 2 ^ n := Nat.two_pow_pos n
    have heq : 1#64 <<< n - 1#64 = BitVec.ofNat 64 (2 ^ n - 1) := by
      apply BitVec.eq_of_toNat_eq
      rw [BitVec.toNat_sub, BitVec.toNat_shiftLeft, BitVec.toNat_ofNat, BitVec.toNat_ofNat,
        Nat.one_mod_two_pow (by decide), Nat.one_shiftLeft, Nat.mod_eq_of_lt hpow]
      omega
    rw [heq, BitVec.getLsbD_ofNat, Nat.testBit_two_pow_sub_one]
    by_cases hi : i < n
    · simp [hi, hi.trans hlt]
    · simp [hi]

theorem getLsbD_bits {val : Addr} {first last i : Nat} (hle : last ≤ first) (hn : first < 64) :
    (bits val first last).getLsbD i = (decide (i ≤ first - last) && val.getLsbD (last + i)) := by
  rw [bits, BitVec.getLsbD_and, BitVec.getLsbD_ushiftRight, getLsbD_mask (by omega), Bool.and_comm]
  congr 1
  simp only [decide_eq_decide]
  omega

/-- The `n` bits from `last` on are the low bits of `bit_val`, the others are as before. -/
theorem getLsbD_insertBits {val bit_val : Addr} {last n i : Nat} (hn : last + n ≤ 64) :
    (insertBits val (last + n - 1) last bit_val).getLsbD i =
      if last ≤ i ∧ i < last + n then bit_val.getLsbD (i - last) else val.getLsbD i := by
  have hcount : ((last : Int) + n - 1 - last + 1).toNat = n := by omega
  have hmask : (mask n <<< last).getLsbD i = decide (last ≤ i ∧ i < last + n) := by
    rw [BitVec.getLsbD_shiftLeft, getLsbD_mask (by omega)]
    by_cases hin : last ≤ i ∧ i < last + n
    · have h1 : i < 64 := by omega
      have h2 : ¬ i < last := by omega
      have h3 : i - last < n := by omega
      simp [hin, h1, h2, h3]
    · rw [decide_eq_false hin]
      by_cases hlt : i < last
      · simp [hlt]
      · have h3 : ¬ i - last < n := by omega
        simp [h3]
  rw [insertBits, hcount, BitVec.getLsbD_or, BitVec.getLsbD_and, BitVec.getLsbD_and, BitVec.getLsbD_not, hmask,
    BitVec.getLsbD_shiftLeft]
  by_cases hin : last ≤ i ∧ i < last + n
  · have h1 : i < 64 := by omega
    have h2 : ¬ i < last := by omega
    simp [hin, h1, h2]
  · by_cases hi : i < 64
    · simp [hin, hi]
    · simp [hin, BitVec.getLsbD_of_ge _ i (Nat.le_of_not_lt hi)]

/-- The bits from `last` to `first`, if there are any. -/
theorem getLsbD_insertBits_to {val bit_val : Addr} {first : Int} {last i : Nat} (hle : last ≤ first)
    (hlt : first < 64) :
    (insertBits val first last bit_val).getLsbD i =
      if last ≤ i ∧ i ≤ first.toNat then bit_val.getLsbD (i - last) else val.getLsbD i := by
  have hfirst : first = last + (first.toNat + 1 - last : Nat) - 1 := by omega
  rw [hfirst, getLsbD_insertBits (by omega), ← hfirst]
  exact if_congr (by omega) rfl rfl

theorem getLsbD_insertBit {val bit_val : Addr} {b i : Nat} (hb : b < 64) :
    (insertBits val b b bit_val).getLsbD i = if i = b then bit_val.getLsbD 0 else val.getLsbD i := by
  rw [getLsbD_insertBits_to le_rfl (by omega), Int.toNat_natCast]
  by_cases hib : i = b
  · simp [hib]
  · have : ¬ (b ≤ i ∧ i ≤ b) := by omega
    rw [if_neg this, if_neg hib]

theorem checkedInsertBits_spec (last n : Nat) (hn : last + n ≤ 64) (hlast : last < 64) (val bit_val : Addr) :
    ∃ v, checkedInsertBits val (last + n - 1) last bit_val = .ok v ∧
      ∀ j < 64, v.getLsbD j = if last ≤ j ∧ j < last + n then bit_val.getLsbD (j - last) else val.getLsbD j :=
  ⟨_, if_pos (by omega), fun _ _ => getLsbD_insertBits hn⟩

end Salam.Base.Bitfield
