import Mathlib.Algebra.Order.Group.Nat
import Mathlib.Algebra.Order.Ring.Int
import Mathlib.Data.BitVec

/-!
# Quotients and remainders of two's complement numbers

A number `X` below `M = 2 * H` stands for itself, or, from `H` on, for `X - M`. When quotients and remainders that are
taken of the one reading agree, modulo `M`, with those of the other. `M - X` is the magnitude of a negative number.

* `quotients_agree`, `remainders_agree`: both operands in the one reading, or both in the other.
* `quotients_agree_dividend`, `remainders_agree_dividend`: only the reading of the dividend differs.
* `quotients_agree_divisor`, `remainders_agree_divisor`: only that of the divisor does.
-/

namespace Salam.TwosComplement

variable {H X Y b : Nat}

theorem dvd_iff_of_lt {M s : Nat} (h : s < 2 * M) : M ∣ s ↔ s = 0 ∨ s = M := by
  constructor
  · rintro ⟨c, rfl⟩
    have hc : c < 2 := by
      by_contra hc
      have := Nat.mul_le_mul_left M (Nat.le_of_not_lt hc)
      omega
    have hc' : c = 0 ∨ c = 1 := by omega
    rcases hc' with rfl | rfl
    · left; simp
    · right; simp
  · rintro (rfl | rfl)
    · exact Nat.dvd_zero _
    · exact Nat.dvd_refl _

theorem natCast_dvd_sub_iff {M s t : Nat} (hs : s < M) (ht : t < M) : (M : Int) ∣ s - t ↔ s = t := by
  constructor
  · rintro ⟨c, hc⟩
    have hc0 : c = 0 := by
      by_contra hne
      have hlo : (M : Int) * -1 < M * c := by omega
      have hhi : (M : Int) * c < M * 1 := by omega
      have h1 : -1 < c := Int.lt_of_mul_lt_mul_left hlo (by omega)
      have h2 : c < 1 := Int.lt_of_mul_lt_mul_left hhi (by omega)
      omega
    subst hc0
    omega
  · rintro rfl
    simp

/-! ## Quotients -/

theorem dvd_div_add_div (hX : H ≤ X) (hXM : X < 2 * H) (hb : 0 < b) (hbH : b ≤ H) :
    2 * H ∣ X / b + (2 * H - X) / b ↔ b = 1 := by
  have hpos : 0 < X / b := Nat.div_pos (by omega) hb
  have hle : X / b + (2 * H - X) / b ≤ 2 * H / b := by
    have hadd := Nat.div_add_div_le_add_div (x := X) (y := 2 * H - X) (z := b)
    rwa [Nat.add_sub_cancel' (by omega)] at hadd
  have hself : 2 * H / b ≤ 2 * H := Nat.div_le_self _ _
  rw [dvd_iff_of_lt (by omega)]
  constructor
  · rintro (hzero | hsum)
    · exact absurd hpos (by rw [(Nat.add_eq_zero_iff.mp hzero).1]; omega)
    · by_contra hne
      have hhalf : 2 * H / b ≤ 2 * H / 2 := Nat.div_le_div_left (by omega) (by decide)
      omega
  · rintro rfl
    right
    omega

theorem dvd_div_iff (hX : X < 2 * H) (hb : 0 < b) : 2 * H ∣ X / b ↔ X < b := by
  have hle := Nat.div_le_self X b
  rw [dvd_iff_of_lt (by omega)]
  have hzero := Nat.div_eq_zero_iff_lt (x := X) hb
  omega

theorem dvd_div_sub_div (hX : H ≤ X) (hXM : X < 2 * H) (hY : H ≤ Y) (hYM : Y < 2 * H) :
    ((2 * H : Nat) : Int) ∣ ((2 * H - X) / (2 * H - Y) : Nat) - (X / Y : Nat) ↔ X = Y := by
  have hlt : (2 * H - X) / (2 * H - Y) ≤ 2 * H - X := Nat.div_le_self _ _
  rcases Nat.lt_or_ge X Y with hlt' | hge
  · have hzero : X / Y = 0 := Nat.div_eq_of_lt hlt'
    have hpos : 0 < (2 * H - X) / (2 * H - Y) := Nat.div_pos (by omega) (by omega)
    rw [hzero, natCast_dvd_sub_iff (by omega) (by omega)]
    omega
  · have hone : X / Y = 1 := by
      rw [Nat.div_eq_sub_div (by omega) hge, Nat.div_eq_of_lt (by omega)]
    rw [hone, natCast_dvd_sub_iff (by omega) (by omega)]
    by_cases hXY : X = Y
    · subst hXY
      simp [Nat.div_self (show 0 < 2 * H - X by omega)]
    · have hzero : (2 * H - X) / (2 * H - Y) = 0 := Nat.div_eq_of_lt (by omega)
      omega

/-- A small dividend, and a divisor in either reading. -/
theorem dvd_div_add_div_small {a : Nat} (hH : 2 ≤ H) (haH : a ≤ H) (hY : H ≤ Y) (hYM : Y < 2 * H) :
    2 * H ∣ a / (2 * H - Y) + a / Y ↔ a < 2 * H - Y := by
  have h₁ : a / (2 * H - Y) ≤ a := Nat.div_le_self _ _
  have h₂ : a / Y ≤ 1 := by
    have h := Nat.div_le_div_right (c := Y) (show a ≤ Y by omega)
    rwa [Nat.div_self (by omega)] at h
  rw [dvd_iff_of_lt (by omega)]
  constructor
  · rintro (hzero | hM)
    · exact (Nat.div_eq_zero_iff_lt (by omega)).mp (Nat.add_eq_zero_iff.mp hzero).1
    · omega
  · intro hlt
    left
    rw [Nat.div_eq_of_lt hlt, Nat.div_eq_of_lt (by omega)]

/-- A dividend that is extended by ones beyond its width, over a divisor of its width. -/
theorem dvd_extended_div {M A : Nat} (hY : 0 < Y) (hYM : Y < M) :
    (M : Int) ∣ ((M * A + X) / Y : Nat) - (X / Y : Nat) ↔ Y ∣ A := by
  have hsplit : (M * A + X) / Y = (M * A + X % Y) / Y + X / Y := by
    conv => lhs; rw [← Nat.mod_add_div X Y, ← Nat.add_assoc]
    rw [Nat.add_mul_div_left _ _ hY]
  have hsub : (((M * A + X) / Y : Nat) : Int) - (X / Y : Nat) = ((M * A + X % Y) / Y : Nat) := by
    omega
  rw [hsub, Int.natCast_dvd_natCast]
  have hr : X % Y < Y := Nat.mod_lt _ hY
  constructor
  · rintro ⟨q, hq⟩
    have hdiv := Nat.mod_add_div (M * A + X % Y) Y
    have hs : (M * A + X % Y) % Y < Y := Nat.mod_lt _ hY
    rw [hq] at hdiv
    -- both remainders are below `Y`, so they cannot be a multiple of `M` apart
    have hint : (M : Int) ∣ ((M * A + X % Y) % Y : Nat) - (X % Y : Nat) := by
      refine ⟨(A : Int) - Y * q, ?_⟩
      have hcast : (((M * A + X % Y) % Y : Nat) : Int) + Y * (M * q) = M * A + (X % Y : Nat) := by exact_mod_cast hdiv
      rw [Int.mul_sub, ← Int.mul_assoc, Int.mul_comm (M : Int) Y, Int.mul_assoc]
      omega
    have heq := (natCast_dvd_sub_iff (by omega) (by omega)).mp hint
    have hMA : M * (Y * q) = M * A := by
      have hcomm : M * (Y * q) = Y * (M * q) := Nat.mul_left_comm M Y q
      omega
    exact ⟨q, (Nat.eq_of_mul_eq_mul_left (by omega) hMA).symm⟩
  · rintro ⟨c, rfl⟩
    have hcomm : M * (Y * c) = Y * (M * c) := Nat.mul_left_comm M Y c
    rw [hcomm, Nat.add_comm, Nat.add_mul_div_left _ _ hY, Nat.div_eq_of_lt hr, Nat.zero_add]
    exact Nat.dvd_mul_right M c

/-! ## Remainders -/

theorem dvd_mod_add_mod (hX : H ≤ X) (hXM : X < 2 * H) (hY : 0 < Y) (hYM : Y < 2 * H) :
    2 * H ∣ X % Y + (2 * H - X) % Y ↔ X < Y ∨ (Y ∣ X ∧ Y ∣ 2 * H) := by
  have h₁ : X % Y < Y := Nat.mod_lt _ hY
  have hle₂ := Nat.mod_le (2 * H - X) Y
  rw [dvd_iff_of_lt (by omega)]
  constructor
  · rintro (hzero | hM)
    · right
      have hdX : Y ∣ X := Nat.dvd_of_mod_eq_zero (by omega)
      have hdM : Y ∣ 2 * H - X := Nat.dvd_of_mod_eq_zero (by omega)
      have hsum := Nat.dvd_add hdX hdM
      rw [Nat.add_sub_cancel' (by omega)] at hsum
      exact ⟨hdX, hsum⟩
    · left
      omega
  · rintro (hlt | ⟨hdX, hdM⟩)
    · right
      rw [Nat.mod_eq_of_lt hlt, Nat.mod_eq_of_lt (by omega)]
      omega
    · left
      rw [Nat.mod_eq_zero_of_dvd hdX, Nat.mod_eq_zero_of_dvd (Nat.dvd_sub hdM hdX)]

theorem dvd_mod_sub_mod (hX : X < 2 * H) (hY : H ≤ Y) (hYM : Y < 2 * H) :
    ((2 * H : Nat) : Int) ∣ (X % (2 * H - Y) : Nat) - (X % Y : Nat) ↔ X < 2 * H - Y ∨ (Y ≤ X ∧ 2 * H - Y ∣ 2 * H) := by
  have h₁ : X % (2 * H - Y) < 2 * H - Y := Nat.mod_lt _ (by omega)
  have h₂ : X % Y < Y := Nat.mod_lt _ (by omega)
  rw [natCast_dvd_sub_iff (by omega) (by omega)]
  rcases Nat.lt_or_ge X Y with hlt | hge
  · rw [Nat.mod_eq_of_lt hlt]
    constructor
    · intro h
      left
      omega
    · rintro (h | ⟨h, -⟩)
      · exact Nat.mod_eq_of_lt h
      · omega
  · have hmod : X % Y = X - Y := by
      rw [Nat.mod_eq_sub_mod hge, Nat.mod_eq_of_lt (by omega)]
    rw [hmod]
    have hb : 2 * H - Y ∣ 2 * H ↔ 2 * H - Y ∣ Y := by
      have h := Nat.dvd_add_right (c := Y) (Nat.dvd_refl (2 * H - Y))
      rwa [Nat.sub_add_cancel (by omega)] at h
    rw [hb]
    constructor
    · intro h
      right
      have hdvd := Nat.dvd_sub_mod (n := 2 * H - Y) X
      rw [h, Nat.sub_sub_self hge] at hdvd
      exact ⟨hge, hdvd⟩
    · rintro (h | ⟨-, c, hc⟩)
      · omega
      · have hsplit : X = (X - Y) + (2 * H - Y) * c := by omega
        conv => lhs; rw [hsplit]
        rw [Nat.add_mul_mod_self_left, Nat.mod_eq_of_lt (by omega)]

theorem dvd_mod_add_mod_neg (hX : H ≤ X) (hXM : X < 2 * H) (hY : H ≤ Y) (hYM : Y < 2 * H) :
    2 * H ∣ (2 * H - X) % (2 * H - Y) + X % Y ↔ X = Y := by
  have h₁ : (2 * H - X) % (2 * H - Y) < 2 * H - Y := Nat.mod_lt _ (by omega)
  rcases Nat.lt_or_ge X Y with hlt | hge
  · rw [Nat.mod_eq_of_lt hlt, dvd_iff_of_lt (by omega)]
    omega
  · have hmod : X % Y = X - Y := by
      rw [Nat.mod_eq_sub_mod hge, Nat.mod_eq_of_lt (by omega)]
    rw [hmod, dvd_iff_of_lt (by omega)]
    by_cases hXY : X = Y
    · subst hXY
      simp
    · rw [Nat.mod_eq_of_lt (show 2 * H - X < 2 * H - Y by omega)]
      omega

/-! ## Signs -/

section Signs

variable {N : Nat} {x y : BitVec N}

theorem two_pow_eq (hN : 0 < N) : 2 ^ N = 2 * 2 ^ (N - 1) := by
  rw [Nat.mul_comm, ← Nat.pow_succ, Nat.succ_eq_add_one, Nat.sub_add_cancel hN]

theorem lt_of_msb (hN : 0 < N) (h : x.msb = false) : x.toNat < 2 ^ (N - 1) := by
  have h2 := BitVec.msb_eq_false_iff_two_mul_lt.mp h
  have := two_pow_eq hN
  omega

theorem le_of_msb (hN : 0 < N) (h : x.msb = true) : 2 ^ (N - 1) ≤ x.toNat := by
  have h2 := BitVec.msb_eq_true_iff_two_mul_ge.mp h
  have := two_pow_eq hN
  omega

theorem toInt_of_msb (h : x.msb = true) : x.toInt = -((2 ^ N - x.toNat : Nat) : Int) := by
  have hlt := x.isLt
  rw [BitVec.toInt_eq_msb_cond, if_pos h]
  omega

theorem toInt_of_not_msb (h : x.msb = false) : x.toInt = (x.toNat : Int) := BitVec.toInt_eq_toNat_of_msb h

/-! ## Agreement -/

/-- The quotients of the signed and of the unsigned reading agree. -/
def QuotientsAgree (x y : BitVec N) : Prop :=
  match x.msb, y.msb with
  | false, false => True
  | true, false => y.toNat = 1
  | false, true => x.toNat < 2 ^ N - y.toNat
  | true, true => x = y

/-- The remainders of a dividend with the sign bit in either reading agree, over a divisor `c`. -/
def RemaindersAgreeDividend (x : BitVec N) (c : Int) : Prop :=
  x.toNat < c.natAbs ∨ (c.natAbs ∣ x.toNat ∧ c.natAbs ∣ 2 ^ N)

/-- The remainders of a dividend `d` over a divisor with the sign bit in either reading agree. -/
def RemaindersAgreeDivisor (d : Int) (y : BitVec N) : Prop :=
  d.natAbs < 2 ^ N - y.toNat ∨ (y.toNat ≤ d.natAbs ∧ 2 ^ N - y.toNat ∣ 2 ^ N)

/-- The remainders of the signed and of the unsigned reading agree. -/
def RemaindersAgree (x y : BitVec N) : Prop :=
  match x.msb, y.msb with
  | false, false => True
  | true, false => RemaindersAgreeDividend x y.toNat
  | false, true => RemaindersAgreeDivisor x.toNat y
  | true, true => x = y

theorem pos_of_ne_zero (hy : y ≠ 0) : 0 < y.toNat :=
  Nat.pos_of_ne_zero fun h => hy (BitVec.eq_of_toNat_eq (by simpa using h))

theorem quotients_agree (hN : 0 < N) (hy : y ≠ 0) :
    ((2 ^ N : Nat) : Int) ∣ x.toInt.tdiv y.toInt - (x.toNat / y.toNat : Nat) ↔ QuotientsAgree x y := by
  have hM := two_pow_eq hN
  have hypos := pos_of_ne_zero hy
  unfold QuotientsAgree
  cases hxs : x.msb with
  | false =>
    have hx := lt_of_msb hN hxs
    cases hys : y.msb with
    | false => simp [toInt_of_not_msb hxs, toInt_of_not_msb hys]
    | true =>
      have hY := le_of_msb hN hys
      have hzero : x.toNat / y.toNat = 0 := Nat.div_eq_of_lt (by omega)
      rw [toInt_of_not_msb hxs, toInt_of_msb hys, Int.tdiv_neg, ← Int.ofNat_tdiv, hzero, Int.ofNat_zero, Int.sub_zero,
        Int.dvd_neg, Int.natCast_dvd_natCast, hM]
      exact dvd_div_iff (by omega) (by omega)
  | true =>
    have hX := le_of_msb hN hxs
    cases hys : y.msb with
    | false =>
      have hY := lt_of_msb hN hys
      have hsum := dvd_div_add_div hX (by omega) hypos (by omega : y.toNat ≤ 2 ^ (N - 1))
      rw [toInt_of_msb hxs, toInt_of_not_msb hys, Int.neg_tdiv, ← Int.ofNat_tdiv, ← hsum, ← hM,
        ← Int.natCast_dvd_natCast, ← Int.dvd_neg]
      have hneg : -(-(((2 ^ N - x.toNat) / y.toNat : Nat) : Int) - (x.toNat / y.toNat : Nat)) =
          (x.toNat / y.toNat + (2 ^ N - x.toNat) / y.toNat : Nat) := by
        omega
      rw [hneg]
    | true =>
      have hY := le_of_msb hN hys
      have hdiff := dvd_div_sub_div hX (by omega) hY (by omega)
      rw [toInt_of_msb hxs, toInt_of_msb hys, Int.neg_tdiv_neg, ← Int.ofNat_tdiv, hM, hdiff, BitVec.toNat_inj]

/-- A sum of magnitudes stands for a difference of two results, of either sign. -/
theorem dvd_sub_iff_of_natAbs {M s t : Nat} {u v : Int} (h : (u = s ∧ v = -t) ∨ (u = -s ∧ v = t)) :
    (M : Int) ∣ u - v ↔ M ∣ s + t := by
  rw [← Int.natCast_dvd_natCast]
  rcases h with ⟨rfl, rfl⟩ | ⟨rfl, rfl⟩
  · rw [Int.sub_neg, ← Int.natCast_add]
  · rw [← Int.dvd_neg]
    have hneg : -(-(s : Int) - t) = (s + t : Nat) := by
      omega
    rw [hneg]

theorem dvd_sub_iff_of_natAbs_same {M s t : Nat} {u v : Int} (h : (u = s ∧ v = t) ∨ (u = -s ∧ v = -t)) :
    (M : Int) ∣ u - v ↔ (M : Int) ∣ s - t := by
  rcases h with ⟨rfl, rfl⟩ | ⟨rfl, rfl⟩
  · rfl
  · rw [← Int.dvd_neg]
    have hneg : -(-(s : Int) - -t) = s - t := by omega
    rw [hneg]

/-- A dividend with the sign bit, in either reading. -/
theorem quotients_agree_dividend (hN : 0 < N) (hxs : x.msb = true) {c : Int} (hc : c ≠ 0)
    (hcH : c.natAbs ≤ 2 ^ (N - 1)) : ((2 ^ N : Nat) : Int) ∣ (x.toNat : Int).tdiv c - x.toInt.tdiv c ↔
      c.natAbs = 1 := by
  have hM := two_pow_eq hN
  have hX := le_of_msb hN hxs
  have hpos : 0 < c.natAbs := Int.natAbs_pos.mpr hc
  rw [← dvd_div_add_div hX (by omega) hpos hcH, ← hM, toInt_of_msb hxs]
  apply dvd_sub_iff_of_natAbs
  rcases Int.natAbs_eq c with h | h
  · left
    rw [h, Int.neg_tdiv, ← Int.ofNat_tdiv, ← Int.ofNat_tdiv, Int.natAbs_natCast]
    exact ⟨rfl, rfl⟩
  · right
    rw [h, Int.neg_tdiv_neg, Int.tdiv_neg, ← Int.ofNat_tdiv, ← Int.ofNat_tdiv, Int.natAbs_neg, Int.natAbs_natCast]
    exact ⟨rfl, rfl⟩

/-- A divisor with the sign bit, in either reading. -/
theorem quotients_agree_divisor (hN : 2 ≤ N) (hys : y.msb = true) {d : Int} (hd : d.natAbs ≤ 2 ^ (N - 1)) :
    ((2 ^ N : Nat) : Int) ∣ d.tdiv y.toNat - d.tdiv y.toInt ↔ d.natAbs < 2 ^ N - y.toNat := by
  have hM := two_pow_eq (show 0 < N by omega)
  have hY := le_of_msb (by omega) hys
  have hH : 2 ≤ 2 ^ (N - 1) := Nat.le_self_pow (by omega) 2
  rw [toInt_of_msb hys, hM]
  rw [← dvd_div_add_div_small hH hd hY (by omega), Nat.add_comm]
  apply dvd_sub_iff_of_natAbs
  rcases Int.natAbs_eq d with h | h
  · left
    rw [h, Int.tdiv_neg, ← Int.ofNat_tdiv, ← Int.ofNat_tdiv, Int.natAbs_natCast]
    exact ⟨rfl, rfl⟩
  · right
    rw [h, Int.neg_tdiv_neg, Int.neg_tdiv, ← Int.ofNat_tdiv, ← Int.ofNat_tdiv, Int.natAbs_neg, Int.natAbs_natCast]
    exact ⟨rfl, rfl⟩

/-- A dividend with the sign bit, in either reading. -/
theorem remainders_agree_dividend (hN : 0 < N) (hxs : x.msb = true) {c : Int} (hc : c ≠ 0) (hcM : c.natAbs < 2 ^ N) :
    ((2 ^ N : Nat) : Int) ∣ (x.toNat : Int).tmod c - x.toInt.tmod c ↔ RemaindersAgreeDividend x c := by
  have hM := two_pow_eq hN
  have hX := le_of_msb hN hxs
  have hpos : 0 < c.natAbs := Int.natAbs_pos.mpr hc
  have hsum := dvd_mod_add_mod hX (by omega) hpos (by omega : c.natAbs < 2 * 2 ^ (N - 1))
  rw [← hM] at hsum
  rw [RemaindersAgreeDividend, ← hsum, toInt_of_msb hxs]
  apply dvd_sub_iff_of_natAbs
  left
  rcases Int.natAbs_eq c with h | h
  · rw [h, Int.neg_tmod, ← Int.ofNat_tmod, ← Int.ofNat_tmod, Int.natAbs_natCast]
    exact ⟨rfl, rfl⟩
  · rw [h, Int.neg_tmod, Int.tmod_neg, Int.tmod_neg, ← Int.ofNat_tmod, ← Int.ofNat_tmod, Int.natAbs_neg,
      Int.natAbs_natCast]
    exact ⟨rfl, rfl⟩

/-- A divisor with the sign bit, in either reading. -/
theorem remainders_agree_divisor (hN : 0 < N) (hys : y.msb = true) {d : Int} (hd : d.natAbs < 2 ^ N) :
    ((2 ^ N : Nat) : Int) ∣ d.tmod y.toInt - d.tmod y.toNat ↔ RemaindersAgreeDivisor d y := by
  have hM := two_pow_eq hN
  have hY := le_of_msb hN hys
  have hdiff := dvd_mod_sub_mod (by omega : d.natAbs < 2 * 2 ^ (N - 1)) hY (by omega)
  rw [← hM] at hdiff
  rw [RemaindersAgreeDivisor, ← hdiff, toInt_of_msb hys]
  apply dvd_sub_iff_of_natAbs_same
  rcases Int.natAbs_eq d with h | h
  · left
    rw [h, Int.tmod_neg, ← Int.ofNat_tmod, ← Int.ofNat_tmod, Int.natAbs_natCast]
    exact ⟨rfl, rfl⟩
  · right
    rw [h, Int.neg_tmod, Int.tmod_neg, Int.neg_tmod, ← Int.ofNat_tmod, ← Int.ofNat_tmod, Int.natAbs_neg,
      Int.natAbs_natCast]
    exact ⟨rfl, rfl⟩

/-- Both operands in the one reading, or both in the other. -/
theorem remainders_agree (hN : 0 < N) (hy : y ≠ 0) :
    ((2 ^ N : Nat) : Int) ∣ x.toInt.tmod y.toInt - (x.toNat % y.toNat : Nat) ↔ RemaindersAgree x y := by
  have hM := two_pow_eq hN
  have hypos := pos_of_ne_zero hy
  have hxlt := x.isLt
  have hylt := y.isLt
  unfold RemaindersAgree
  cases hxs : x.msb with
  | false =>
    cases hys : y.msb with
    | false =>
      rw [toInt_of_not_msb hxs, toInt_of_not_msb hys, ← Int.ofNat_tmod, Int.sub_self]
      simp
    | true =>
      rw [toInt_of_not_msb hxs, Int.ofNat_tmod]
      exact remainders_agree_divisor hN hys (by simpa using hxlt)
  | true =>
    cases hys : y.msb with
    | false =>
      rw [toInt_of_not_msb hys, Int.ofNat_tmod, ← Int.dvd_neg, Int.neg_sub]
      exact remainders_agree_dividend hN hxs (by omega) (by simpa using hylt)
    | true =>
      have hX := le_of_msb hN hxs
      have hY := le_of_msb hN hys
      have hsum := dvd_mod_add_mod_neg hX (by omega) hY (by omega)
      rw [← BitVec.toNat_inj, ← hsum, toInt_of_msb hxs, toInt_of_msb hys, ← hM]
      apply dvd_sub_iff_of_natAbs
      right
      rw [Int.neg_tmod, Int.tmod_neg, ← Int.ofNat_tmod]
      exact ⟨rfl, rfl⟩

end Signs

end Salam.TwosComplement
