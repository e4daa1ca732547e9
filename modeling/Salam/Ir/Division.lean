import Salam.Ir.Modular
import Salam.Lib.TwosComplement

/-!
# Division and right shifts

`udiv`, `sdiv`, `urem`, `srem`, `lshr` and `ashr` need the operands themselves, not only their low bits. `compute()`
takes a register as it is held, zero-extended, converts it for the type `i32` only, and always computes on `int64_t`,
except for `udiv` with an immediate.

* `word_int32`, `word_uint32`: which extension of an operand the engine computes with.
* `division_committed`: exactly when the result of LLVM is committed.
-/

namespace Salam.Ir

open CString TwosComplement
open BitVec (eq_of_toInt_eq eq_of_toNat_eq toInt_ofInt toNat_inj toNat_ofNat toNat_setWidth)

/-! ## The extensions of the operands -/

/-- An `N`-bit value in 64 bits. -/
def extend {N : Nat} (zero : Bool) (x : BitVec N) : Word := if zero then x.setWidth 64 else x.signExtend 64

/-- The types that no `compute()` converts and that are less than the 64 bits it computes on. -/
def IntTy.small : IntTy → Bool
  | i8 | i16 => true
  | i32 | i64 => false

/-- The types of less than 64 bits. -/
def IntTy.narrow : IntTy → Bool
  | i8 | i16 | i32 => true
  | i64 => false

/-- A literal is the signed number that LLVM prints for a value of the type. -/
def Operand.Printed (N : Nat) : Operand → Prop
  | reg _ => True
  | imm l => -2 ^ (N - 1) ≤ l.value ∧ l.value < 2 ^ (N - 1)

variable {regs : Regs}

theorem value_eq_read {N : Nat} {name : Text} (h : (regs name).value.toNat < 2 ^ N) :
    (regs name).value = ((Operand.reg name).read N regs).setWidth 64 := by
  apply eq_of_toNat_eq
  rw [Operand.read, toNat_setWidth, toNat_setWidth, Nat.mod_eq_of_lt h,
    Nat.mod_eq_of_lt (BitVec.isLt _)]

variable {ty : IntTy}

/-- A literal that LLVM prints is read as its sign extension. -/
theorem word_imm {l : Literal} (h : (Operand.imm l).Printed ty.bits) (conv : Word → Word) (regs : Regs) :
    (Operand.imm l).word ty conv regs = extend false ((Operand.imm l).read ty.bits regs) := by
  obtain ⟨hlo, hhi⟩ := h
  have hpow := ty.two_pow_le
  rw [Operand.word, strtol_of_fits l ⟨by omega, by omega⟩, Operand.read, extend]
  apply eq_of_toInt_eq
  rw [if_neg (by decide), BitVec.toInt_signExtend_of_le ty.bits_le, toInt_ofInt, toInt_ofInt]
  cases ty <;> simp only [IntTy.bits] at * <;> rw [Int.bmod_def, Int.bmod_def] <;> omega

theorem word_int32 {o : Operand} (hp : o.Printed ty.bits) (hheld : o.Held ty.bits regs) :
    o.word ty int32 regs = extend (o.isReg && ty.small) (o.read ty.bits regs) := by
  cases o with
  | imm l => exact word_imm hp int32 regs
  | reg name =>
    have hvalue := value_eq_read hheld
    cases ty with
    | i8 | i16 => exact hvalue
    | i32 => rfl
    | i64 =>
      rw [Operand.word, if_neg (by decide), hvalue]
      simp [extend, IntTy.bits, IntTy.small, Operand.read]

/-- The classes that convert to `uint32_t`. -/
theorem word_uint32 {o : Operand} (hp : o.Printed ty.bits) (hheld : o.Held ty.bits regs) :
    o.word ty uint32 regs = extend (o.isReg && ty.narrow) (o.read ty.bits regs) := by
  cases o with
  | imm l => exact word_imm hp uint32 regs
  | reg name =>
    have hvalue := value_eq_read hheld
    cases ty with
    | i8 | i16 => exact hvalue
    | i32 => rfl
    | i64 =>
      rw [Operand.word, if_neg (by decide), hvalue]
      simp [extend, IntTy.bits, IntTy.narrow, Operand.read]

/-! ## What the engine computes -/

section Extended

variable {N : Nat} {x y : BitVec N} {z z₁ z₂ : Bool} {a b : Word}

/-- The number that the engine computes with for an operand. -/
def reading (z : Bool) (x : BitVec N) : Int := if z then x.toNat else x.toInt

theorem toInt_extend (hN : N ≤ 64) (hz : z = true → N < 64) : (extend z x).toInt = reading z x := by
  unfold extend reading
  cases z with
  | false => exact BitVec.toInt_signExtend_of_le hN
  | true =>
    have hlt : N < 64 := hz rfl
    have hpow : 2 ^ N ≤ 2 ^ 63 := Nat.pow_le_pow_right (by decide) (by omega)
    rw [if_pos rfl, if_pos rfl, BitVec.toInt_eq_toNat_of_lt, toNat_setWidth, Nat.mod_eq_of_lt (by omega)]
    rw [toNat_setWidth, Nat.mod_eq_of_lt (by omega)]
    omega

theorem reading_ne_zero (hy : y ≠ 0) : reading z y ≠ 0 := by
  have hpos := pos_of_ne_zero hy
  unfold reading
  split
  · omega
  · exact fun h => hy (eq_of_toInt_eq (by simpa using h))

theorem extend_ne_zero (hN : N ≤ 64) (hz : z = true → N < 64) (hy : y ≠ 0) : extend z y ≠ 0 := fun h => by
  have hint := toInt_extend (x := y) hN hz
  rw [h] at hint
  exact reading_ne_zero hy (hint.symm.trans (by simp))

theorem ofInt_eq_iff (s t : Int) : BitVec.ofInt N s = BitVec.ofInt N t ↔ ((2 ^ N : Nat) : Int) ∣ s - t := by
  rw [Int.dvd_iff_emod_eq_zero, ← Int.emod_eq_emod_iff_emod_sub_eq_zero, ← toNat_inj, BitVec.toNat_ofInt,
    BitVec.toNat_ofInt]
  have hpos : ((2 ^ N : Nat) : Int) ≠ 0 := by
    have := Nat.two_pow_pos N
    omega
  omega

/-- A quotient that does not trap, and its low bits. -/
theorem idiv_low (hN : N ≤ 64) (hb : b ≠ 0) (hov : ¬(a = BitVec.intMin 64 ∧ b = -1)) (t : Int) :
    (∃ r, idiv a b = .ok r ∧ r.setWidth N = BitVec.ofInt N t) ↔ ((2 ^ N : Nat) : Int) ∣ a.toInt.tdiv b.toInt - t := by
  have hdiv : a.sdiv b = BitVec.ofInt 64 (a.toInt.tdiv b.toInt) := by
    apply eq_of_toInt_eq
    rw [BitVec.toInt_sdiv, toInt_ofInt]
  have hok : idiv a b = .ok (a.sdiv b) := by
    rw [idiv, if_neg (by tauto)]
  rw [hok, ← ofInt_eq_iff, ← setWidth_ofInt hN (a.toInt.tdiv b.toInt), ← hdiv]
  simp

/-- A remainder that does not trap, and its low bits. -/
theorem imod_low (hN : N ≤ 64) (hb : b ≠ 0) (hov : ¬(a = BitVec.intMin 64 ∧ b = -1)) (t : Int) :
    (∃ r, imod a b = .ok r ∧ r.setWidth N = BitVec.ofInt N t) ↔ ((2 ^ N : Nat) : Int) ∣ a.toInt.tmod b.toInt - t := by
  have hmod : a.srem b = BitVec.ofInt 64 (a.toInt.tmod b.toInt) := by rw [← BitVec.toInt_srem, BitVec.ofInt_toInt]
  have hok : imod a b = .ok (a.srem b) := by
    rw [imod, if_neg (by tauto)]
  rw [hok, ← ofInt_eq_iff, ← setWidth_ofInt hN (a.toInt.tmod b.toInt), ← hmod]
  simp

/-- An unsigned quotient, and its low bits. -/
theorem uidiv_low (hN : N ≤ 64) (hb : b ≠ 0) (t : Int) : (∃ r, uidiv a b = .ok r ∧ r.setWidth N = BitVec.ofInt N t) ↔
      ((2 ^ N : Nat) : Int) ∣ (a.toNat / b.toNat : Nat) - t := by
  have hdiv : a / b = BitVec.ofInt 64 (a.toNat / b.toNat : Nat) := by
    apply eq_of_toNat_eq
    rw [BitVec.ofInt_natCast, toNat_ofNat, BitVec.toNat_udiv, Nat.mod_eq_of_lt]
    exact Nat.lt_of_le_of_lt (Nat.div_le_self _ _) a.isLt
  have hok : uidiv a b = .ok (a / b) := by
    rw [uidiv, if_neg hb]
  rw [hok, ← ofInt_eq_iff, ← setWidth_ofInt hN (a.toNat / b.toNat : Nat), ← hdiv]
  simp

theorem udiv_eq_ofInt : x / y = BitVec.ofInt N (x.toNat / y.toNat : Nat) := by
  apply eq_of_toNat_eq
  rw [BitVec.ofInt_natCast, toNat_ofNat, BitVec.toNat_udiv, Nat.mod_eq_of_lt]
  exact Nat.lt_of_le_of_lt (Nat.div_le_self _ _) x.isLt

theorem umod_eq_ofInt : x % y = BitVec.ofInt N (x.toNat % y.toNat : Nat) := by
  apply eq_of_toNat_eq
  have hlt : x.toNat % y.toNat < 2 ^ N := Nat.lt_of_le_of_lt (Nat.mod_le _ _) x.isLt
  rw [BitVec.ofInt_natCast, toNat_ofNat, BitVec.toNat_umod, Nat.mod_eq_of_lt hlt]

theorem sdiv_eq_ofInt : x.sdiv y = BitVec.ofInt N (x.toInt.tdiv y.toInt) := by
  apply eq_of_toInt_eq
  rw [BitVec.toInt_sdiv, toInt_ofInt]

theorem srem_eq_ofInt : x.srem y = BitVec.ofInt N (x.toInt.tmod y.toInt) := by
  rw [← BitVec.toInt_srem, BitVec.ofInt_toInt]

/-! ## Exactly when the reading does not matter -/

/-- A quotient of two readings is the signed one. -/
def SignedQuotient (z₁ z₂ : Bool) (x y : BitVec N) : Prop :=
  match z₁, z₂ with
  | false, false => True
  | true, true => QuotientsAgree x y
  | true, false => x.msb → y.toInt.natAbs = 1
  | false, true => y.msb → x.toInt.natAbs < 2 ^ N - y.toNat

/-- A remainder of two readings is the signed one. -/
def SignedRemainder (z₁ z₂ : Bool) (x y : BitVec N) : Prop :=
  match z₁, z₂ with
  | false, false => True
  | true, true => RemaindersAgree x y
  | true, false => x.msb → RemaindersAgreeDividend x y.toInt
  | false, true => y.msb → RemaindersAgreeDivisor x.toInt y

/-- A remainder of two readings is the unsigned one. -/
def UnsignedRemainder (z₁ z₂ : Bool) (x y : BitVec N) : Prop :=
  match z₁, z₂ with
  | true, true => True
  | false, false => RemaindersAgree x y
  | true, false => y.msb → RemaindersAgreeDivisor x.toNat y
  | false, true => x.msb → RemaindersAgreeDividend x y.toNat

theorem natAbs_toInt_le (hN : 0 < N) : x.toInt.natAbs ≤ 2 ^ (N - 1) := by
  have hM := two_pow_eq hN
  cases hxs : x.msb with
  | false =>
    have := lt_of_msb hN hxs
    rw [toInt_of_not_msb hxs]
    omega
  | true =>
    have := le_of_msb hN hxs
    rw [toInt_of_msb hxs]
    omega

theorem signedQuotient_iff (hN : 2 ≤ N) (hy : y ≠ 0) :
    ((2 ^ N : Nat) : Int) ∣ (reading z₁ x).tdiv (reading z₂ y) - x.toInt.tdiv y.toInt ↔ SignedQuotient z₁ z₂ x y := by
  have hyne : y.toInt ≠ 0 := fun h => hy (eq_of_toInt_eq (by simpa using h))
  cases z₁ with
  | false =>
    cases z₂ with
    | false => simp [SignedQuotient, reading]
    | true =>
      cases hys : y.msb with
      | false => simp [SignedQuotient, reading, hys, toInt_of_not_msb hys]
      | true => simpa [SignedQuotient, reading, hys] using quotients_agree_divisor hN hys (natAbs_toInt_le (by omega))
  | true =>
    cases z₂ with
    | true =>
      rw [← Int.dvd_neg, Int.neg_sub]
      exact quotients_agree (by omega) hy
    | false =>
      cases hxs : x.msb with
      | false => simp [SignedQuotient, reading, hxs, toInt_of_not_msb hxs]
      | true =>
        simpa [SignedQuotient, reading, hxs] using
          quotients_agree_dividend (by omega) hxs hyne (natAbs_toInt_le (by omega))

theorem signedRemainder_iff (hN : 0 < N) (hy : y ≠ 0) :
    ((2 ^ N : Nat) : Int) ∣ (reading z₁ x).tmod (reading z₂ y) - x.toInt.tmod y.toInt ↔ SignedRemainder z₁ z₂ x y := by
  have hyne : y.toInt ≠ 0 := fun h => hy (eq_of_toInt_eq (by simpa using h))
  have hlt : 2 ^ (N - 1) < 2 ^ N := Nat.pow_lt_pow_right (by decide) (by omega)
  have hxabs := natAbs_toInt_le (x := x) hN
  have hyabs := natAbs_toInt_le (x := y) hN
  cases z₁ with
  | false =>
    cases z₂ with
    | false => simp [SignedRemainder, reading]
    | true =>
      cases hys : y.msb with
      | false => simp [SignedRemainder, reading, hys, toInt_of_not_msb hys]
      | true =>
        rw [← Int.dvd_neg, Int.neg_sub]
        simpa [SignedRemainder, reading, hys] using remainders_agree_divisor hN hys (by omega)
  | true =>
    cases z₂ with
    | true =>
      rw [← Int.dvd_neg, Int.neg_sub]
      exact remainders_agree hN hy
    | false =>
      cases hxs : x.msb with
      | false => simp [SignedRemainder, reading, hxs, toInt_of_not_msb hxs]
      | true => simpa [SignedRemainder, reading, hxs] using remainders_agree_dividend hN hxs hyne (by omega)

theorem unsignedRemainder_iff (hN : 0 < N) (hy : y ≠ 0) :
    ((2 ^ N : Nat) : Int) ∣ (reading z₁ x).tmod (reading z₂ y) - (x.toNat % y.toNat : Nat) ↔
    UnsignedRemainder z₁ z₂ x y := by
  have hypos := pos_of_ne_zero hy
  have hxlt := x.isLt
  have hylt := y.isLt
  rw [Int.ofNat_tmod]
  cases z₁ with
  | true =>
    cases z₂ with
    | true => simp [UnsignedRemainder, reading]
    | false =>
      cases hys : y.msb with
      | false => simp [UnsignedRemainder, reading, hys, toInt_of_not_msb hys]
      | true =>
        have h := remainders_agree_divisor (d := x.toNat) hN hys (by simpa using hxlt)
        simpa [UnsignedRemainder, reading, hys] using h
  | false =>
    cases z₂ with
    | false =>
      have h := remainders_agree (x := x) hN hy
      rwa [Int.ofNat_tmod] at h
    | true =>
      cases hxs : x.msb with
      | false => simp [UnsignedRemainder, reading, hxs, toInt_of_not_msb hxs]
      | true =>
        have h := remainders_agree_dividend (c := y.toNat) hN hxs (by omega) (by simpa using hylt)
        rw [← Int.dvd_neg, Int.neg_sub]
        simpa [UnsignedRemainder, reading, hxs] using h

/-! ## Unsigned division by and of an immediate -/

theorem toNat_extend_of_not_msb (hN : N ≤ 64) (h : x.msb = false) : (extend z x).toNat = x.toNat := by
  have hlt : x.toNat < 2 ^ 64 := Nat.lt_of_lt_of_le x.isLt (Nat.pow_le_pow_right (by decide) hN)
  unfold extend
  split
  · rw [toNat_setWidth, Nat.mod_eq_of_lt hlt]
  · rw [BitVec.signExtend_eq_setWidth_of_msb_false h, toNat_setWidth, Nat.mod_eq_of_lt hlt]

theorem toNat_extend_zero (hN : N ≤ 64) : (extend true x).toNat = x.toNat := by
  have hlt : x.toNat < 2 ^ 64 := Nat.lt_of_lt_of_le x.isLt (Nat.pow_le_pow_right (by decide) hN)
  rw [extend, if_pos rfl, toNat_setWidth, Nat.mod_eq_of_lt hlt]

theorem toNat_extend_of_msb (hN : N ≤ 64) (h : x.msb = true) :
    (extend false x).toNat = 2 ^ N * (2 ^ (64 - N) - 1) + x.toNat := by
  have hpow : 2 ^ N * 2 ^ (64 - N) = 2 ^ 64 := by
    rw [← Nat.pow_add]
    congr 1
    omega
  have hle : 2 ^ N ≤ 2 ^ 64 := Nat.pow_le_pow_right (by decide) hN
  rw [extend, if_neg (by decide), BitVec.toNat_signExtend, h, if_pos rfl, toNat_setWidth,
    Nat.mod_eq_of_lt (Nat.lt_of_lt_of_le x.isLt hle), Nat.mul_sub, hpow, Nat.mul_one, Nat.add_comm]

/-- An immediate divisor: a negative one is extended by ones, and greater than any register. -/
theorem udiv_immSecond_iff (hN : N < 64) (hN0 : 0 < N) (hy : y ≠ 0) :
    ((2 ^ N : Nat) : Int) ∣ ((extend true x).toNat / (extend false y).toNat : Nat) - (x.toNat / y.toNat : Nat) ↔
      (y.msb → x.toNat < y.toNat) := by
  rw [toNat_extend_zero (by omega)]
  cases hys : y.msb with
  | false => simp [toNat_extend_of_not_msb (Nat.le_of_lt hN) hys]
  | true =>
    have hM := two_pow_eq hN0
    have hone : 1 < 2 ^ (64 - N) := Nat.one_lt_two_pow (by omega)
    have hbig : 2 ^ N * 1 ≤ 2 ^ N * (2 ^ (64 - N) - 1) := Nat.mul_le_mul_left _ (by omega)
    have hzero : x.toNat / (extend false y).toNat = 0 := by
      rw [toNat_extend_of_msb (by omega) hys]
      exact Nat.div_eq_of_lt (by omega)
    have hdiv := dvd_div_iff (H := 2 ^ (N - 1)) (X := x.toNat) (by omega) (pos_of_ne_zero hy)
    rw [hzero, Int.ofNat_zero, Int.zero_sub, Int.dvd_neg, Int.natCast_dvd_natCast, hM, hdiv]
    simp

theorem udiv_immFirst_iff (hN : N ≤ 64) (hy : y ≠ 0) :
    ((2 ^ N : Nat) : Int) ∣ ((extend false x).toNat / (extend true y).toNat : Nat) - (x.toNat / y.toNat : Nat) ↔
      (x.msb → y.toNat ∣ 2 ^ (64 - N) - 1) := by
  rw [toNat_extend_zero hN]
  cases hxs : x.msb with
  | false => simp [toNat_extend_of_not_msb hN hxs]
  | true =>
    rw [toNat_extend_of_msb hN hxs, dvd_extended_div (pos_of_ne_zero hy) y.isLt]
    simp

/-! ## Shifts -/

theorem toNat_extend_of_lt (hN : N ≤ 64) (h : y.toNat < N) : (extend z y).toNat = y.toNat := by
  apply toNat_extend_of_not_msb hN
  have hM := two_pow_eq (show 0 < N by omega)
  have hself : N - 1 < 2 ^ (N - 1) := Nat.lt_two_pow_self
  rw [BitVec.msb_eq_false_iff_two_mul_lt]
  omega

/-- The sign extension is shifted like a signed number. -/
theorem shift_extend_sign (hN : N ≤ 64) (k : Nat) : ((extend false x).sshiftRight k).setWidth N = x.sshiftRight k := by
  have hmsb : (x.signExtend 64).msb = x.msb := by
    rw [BitVec.msb_eq_getLsbD_last, BitVec.getLsbD_signExtend]
    by_cases h64 : N = 64
    · subst h64
      simp [BitVec.msb_eq_getLsbD_last]
    · have hge : ¬64 - 1 < N := by omega
      simp [hge]
  apply BitVec.eq_of_getLsbD_eq
  intro i hi
  have hi64 : ¬64 ≤ i := by omega
  rw [extend, if_neg (by decide), BitVec.getLsbD_setWidth, BitVec.getLsbD_sshiftRight, BitVec.getLsbD_sshiftRight, hmsb,
    BitVec.getLsbD_signExtend]
  by_cases hk : k + i < 64
  · simp [hi, hi64, hk, Nat.not_le.mpr hi]
  · have hkN : ¬k + i < N := by omega
    simp [hi, hi64, hk, hkN, Nat.not_le.mpr hi]

/-- The zero extension is shifted like an unsigned number. -/
theorem shift_extend_zero (hN : N < 64) (k : Nat) : ((extend true x).sshiftRight k).setWidth N = x >>> k := by
  have hmsb : (x.setWidth 64).msb = false := by
    rw [BitVec.msb_setWidth, BitVec.getLsbD_of_ge _ _ (by omega)]
    simp
  rw [extend, if_pos rfl, BitVec.sshiftRight_eq_of_msb_false hmsb]
  apply BitVec.eq_of_getLsbD_eq
  intro i hi
  by_cases hk : k + i < 64
  · simp [hi, hk]
  · have hx : x.getLsbD (k + i) = false := BitVec.getLsbD_of_ge _ _ (by omega)
    simp [hx]

/-- The two right shifts differ in the sign bit of the result. -/
theorem sshiftRight_eq_iff (k : Nat) : x.sshiftRight k = x >>> k ↔ (x.msb → k = 0) := by
  cases hxs : x.msb with
  | false => simp [BitVec.sshiftRight_eq_of_msb_false hxs]
  | true =>
    constructor
    · intro h _
      have hbit : (x.sshiftRight k).msb = (x >>> k).msb := by rw [h]
      rw [BitVec.msb_sshiftRight, hxs, BitVec.msb_ushiftRight] at hbit
      by_contra hne
      simp [hne] at hbit
    · intro h
      rw [h rfl]
      simp

end Extended

/-! ## Division instructions -/

/-- LLVM defines the result: no division by zero, no signed overflow, and no shift by the width or more. -/
def Defined {N : Nat} (op : Opcode) (x y : BitVec N) : Prop :=
  match op with
  | .udiv | .urem => y ≠ 0
  | .sdiv | .srem => y ≠ 0 ∧ ¬(x = BitVec.intMin N ∧ y = -1)
  | .shl | .lshr | .ashr => y.toNat < N
  | .add | .sub | .mul | .and | .or | .xor => True

/-- Exactly when the engine commits the result of LLVM; `r₁` and `r₂` say which operands are registers. -/
def Exact (op : Opcode) (ty : IntTy) (r₁ r₂ : Bool) (x y : BitVec ty.bits) : Prop :=
  match op with
  | .udiv =>
    match r₁, r₂ with
    | true, true => ty = .i64 → QuotientsAgree x y
    | true, false => ty.narrow → y.msb → x.toNat < y.toNat
    | false, _ => ty.narrow → x.msb → y.toNat ∣ 2 ^ (64 - ty.bits) - 1
  | .sdiv => SignedQuotient (r₁ && ty.small) (r₂ && ty.small) x y
  | .urem => UnsignedRemainder (r₁ && ty.narrow) (r₂ && ty.narrow) x y
  | .srem => SignedRemainder (r₁ && ty.small) (r₂ && ty.small) x y
  | .lshr => x.msb → (r₁ && ty.small) = false → y = 0
  | .ashr => x.msb → (r₁ && ty.small) = true → y = 0
  | .add | .sub | .mul | .shl | .and | .or | .xor => True

namespace IntTy

theorem two_le_bits (ty : IntTy) : 2 ≤ ty.bits := by cases ty <;> decide

variable {ty : IntTy}

theorem narrow_of_small (h : ty.small = true) : ty.narrow = true := by cases ty <;> simp_all [small, narrow]

theorem bits_lt_of_narrow (h : ty.narrow = true) : ty.bits < 64 := by
  cases ty with
  | i8 | i16 | i32 => decide
  | i64 => cases h

theorem not_narrow_iff : ty.narrow = false ↔ ty = .i64 := by cases ty <;> simp [narrow]

end IntTy

section Instruction

variable {ty : IntTy} {x y : BitVec ty.bits} {z₁ z₂ : Bool}

theorem extend_i64 {z : Bool} (x : BitVec IntTy.i64.bits) : extend z x = x := by
  cases z with
  | false => exact BitVec.signExtend_eq x
  | true => exact BitVec.setWidth_eq x

theorem toNat_extend_i64 {z : Bool} (x : BitVec IntTy.i64.bits) : (extend z x).toNat = x.toNat :=
  congrArg BitVec.toNat (extend_i64 x)

/-- Only on 64 bits the division of the engine overflows. -/
theorem overflow_of_extend (h₁ : z₁ = true → ty.narrow = true) (h₂ : z₂ = true → ty.narrow = true)
    (h : extend z₁ x = BitVec.intMin 64 ∧ extend z₂ y = -1) : ty = .i64 ∧ x = BitVec.intMin ty.bits ∧ y = -1 := by
  cases hnarrow : ty.narrow with
  | true =>
    have hlt := IntTy.bits_lt_of_narrow hnarrow
    have hint := toInt_extend (x := x) ty.bits_le fun h => IntTy.bits_lt_of_narrow (h₁ h)
    have hpow : 2 ^ (ty.bits - 1) < 2 ^ 63 := Nat.pow_lt_pow_right (by decide) (by omega)
    have habs := natAbs_toInt_le (x := x) ty.bits_pos
    have hmin : (BitVec.intMin 64).toInt = -2 ^ 63 := by decide
    rw [h.1, hmin] at hint
    unfold reading at hint
    split at hint <;> omega
  | false =>
    have hi64 := IntTy.not_narrow_iff.mp hnarrow
    subst hi64
    rw [extend_i64, extend_i64] at h
    exact ⟨rfl, h⟩

theorem eq_false_of_narrow {z : Bool} (h : z = true → IntTy.i64.narrow = true) : z = false := by
  cases z with
  | false => rfl
  | true => exact absurd (h rfl) (by decide)

/-- What is committed is what `compute()` gives in the low bits. -/
theorem exec_committed_iff {i : Binary} {final : Word} {regs : Regs}
    (hsize : (regs i.returnRegister).size = ty.bits / 8)
    (hheld : (regs i.returnRegister).value.toNat < 2 ^ ty.bits) (t : BitVec ty.bits) :
    (∃ regs', i.exec final regs = .ok regs' ∧ (regs' i.returnRegister).value = t.setWidth 64) ↔
      ∃ r, i.compute (i.operands.map fun name => (regs name).value) = .ok r ∧ r.setWidth ty.bits = t := by
  cases hc : i.compute (i.operands.map fun name => (regs name).value) with
  | error e => simp [Binary.exec, hc, bind, Except.bind]
  | ok r =>
    have hexec : i.exec final regs = .ok (commit regs i.returnRegister final r) := by
      rw [Binary.exec, hc]
      rfl
    have hinj : (r.setWidth ty.bits).setWidth 64 = t.setWidth 64 ↔ r.setWidth ty.bits = t := by
      rw [← toNat_inj, BitVec.toNat_setWidth_of_le ty.bits_le, BitVec.toNat_setWidth_of_le ty.bits_le,
        toNat_inj]
    rw [hexec]
    simp [commit_value hsize hheld, hinj]

section

variable (h₁ : z₁ = true → ty.narrow = true) (h₂ : z₂ = true → ty.narrow = true)
include h₁ h₂

theorem idiv_sdiv_iff (hdef : Defined .sdiv x y) :
    (∃ r, idiv (extend z₁ x) (extend z₂ y) = .ok r ∧ r.setWidth ty.bits = x.sdiv y) ↔ SignedQuotient z₁ z₂ x y := by
  have hlt₁ := fun h => IntTy.bits_lt_of_narrow (h₁ h)
  have hlt₂ := fun h => IntTy.bits_lt_of_narrow (h₂ h)
  rw [sdiv_eq_ofInt, idiv_low ty.bits_le (extend_ne_zero ty.bits_le hlt₂ hdef.1)
    (fun h => hdef.2 (overflow_of_extend h₁ h₂ h).2), toInt_extend ty.bits_le hlt₁, toInt_extend ty.bits_le hlt₂]
  exact signedQuotient_iff ty.two_le_bits hdef.1

theorem imod_srem_iff (hdef : Defined .srem x y) :
    (∃ r, imod (extend z₁ x) (extend z₂ y) = .ok r ∧ r.setWidth ty.bits = x.srem y) ↔ SignedRemainder z₁ z₂ x y := by
  have hlt₁ := fun h => IntTy.bits_lt_of_narrow (h₁ h)
  have hlt₂ := fun h => IntTy.bits_lt_of_narrow (h₂ h)
  rw [srem_eq_ofInt, imod_low ty.bits_le (extend_ne_zero ty.bits_le hlt₂ hdef.1)
    (fun h => hdef.2 (overflow_of_extend h₁ h₂ h).2), toInt_extend ty.bits_le hlt₁, toInt_extend ty.bits_le hlt₂]
  exact signedRemainder_iff ty.bits_pos hdef.1

theorem imod_urem_iff (hdef : Defined .urem x y) :
    (∃ r, imod (extend z₁ x) (extend z₂ y) = .ok r ∧ r.setWidth ty.bits = x % y) ↔ UnsignedRemainder z₁ z₂ x y := by
  have hlt₁ := fun h => IntTy.bits_lt_of_narrow (h₁ h)
  have hlt₂ := fun h => IntTy.bits_lt_of_narrow (h₂ h)
  by_cases hov : extend z₁ x = BitVec.intMin 64 ∧ extend z₂ y = -1
  · -- the engine traps, and the two numbers are negative and differ
    obtain ⟨rfl, rfl, rfl⟩ := overflow_of_extend h₁ h₂ hov
    obtain rfl := eq_false_of_narrow h₁
    obtain rfl := eq_false_of_narrow h₂
    have htrap : imod (extend false (BitVec.intMin IntTy.i64.bits)) (extend false (-1 : BitVec IntTy.i64.bits)) =
      .error .trap := by
      rw [imod, if_pos (.inr hov)]
    constructor
    · rintro ⟨r, hr, -⟩
      cases hr
    · intro h
      exact absurd (show BitVec.intMin 64 = -1 from h) (by decide)
  · rw [umod_eq_ofInt, imod_low ty.bits_le (extend_ne_zero ty.bits_le hlt₂ hdef) hov, toInt_extend ty.bits_le hlt₁,
      toInt_extend ty.bits_le hlt₂]
    exact unsignedRemainder_iff ty.bits_pos hdef

end

/-- An unsigned division of the engine that takes both operands as `int64_t`. -/
theorem idiv_udiv_iff (hdef : Defined .udiv x y) :
    (∃ r, idiv (extend ty.narrow x) (extend ty.narrow y) = .ok r ∧ r.setWidth ty.bits = x / y) ↔
      (ty = .i64 → QuotientsAgree x y) := by
  by_cases hov : extend ty.narrow x = BitVec.intMin 64 ∧ extend ty.narrow y = -1
  · obtain ⟨rfl, rfl, rfl⟩ := overflow_of_extend id id hov
    have htrap : idiv (extend IntTy.i64.narrow (BitVec.intMin IntTy.i64.bits))
        (extend IntTy.i64.narrow (-1 : BitVec IntTy.i64.bits)) = .error .trap := by
      rw [idiv, if_pos (.inr hov)]
    constructor
    · rintro ⟨r, hr, -⟩
      cases hr
    · intro h
      exact absurd (show BitVec.intMin 64 = -1 from h rfl) (by decide)
  · rw [udiv_eq_ofInt, idiv_low ty.bits_le (extend_ne_zero ty.bits_le IntTy.bits_lt_of_narrow hdef) hov,
      toInt_extend ty.bits_le IntTy.bits_lt_of_narrow, toInt_extend ty.bits_le IntTy.bits_lt_of_narrow]
    cases hnarrow : ty.narrow with
    | true =>
      have hne : ty ≠ .i64 := by
        rintro rfl
        cases hnarrow
      simp [reading, hne]
    | false =>
      have hi64 := IntTy.not_narrow_iff.mp hnarrow
      simpa [reading, hi64] using quotients_agree (x := x) ty.bits_pos hdef

theorem uidiv_immSecond_iff (hdef : Defined .udiv x y) :
    (∃ r, uidiv (extend ty.narrow x) (extend false y) = .ok r ∧ r.setWidth ty.bits = x / y) ↔
      (ty.narrow → y.msb → x.toNat < y.toNat) := by
  rw [udiv_eq_ofInt, uidiv_low ty.bits_le (extend_ne_zero ty.bits_le (by simp) hdef)]
  cases hnarrow : ty.narrow with
  | true => simpa using udiv_immSecond_iff (IntTy.bits_lt_of_narrow hnarrow) ty.bits_pos hdef
  | false =>
    obtain rfl := IntTy.not_narrow_iff.mp hnarrow
    rw [toNat_extend_i64, toNat_extend_i64, Int.sub_self]
    simp

theorem uidiv_immFirst_iff (hdef : Defined .udiv x y) :
    (∃ r, uidiv (extend false x) (extend ty.narrow y) = .ok r ∧ r.setWidth ty.bits = x / y) ↔
      (ty.narrow → x.msb → y.toNat ∣ 2 ^ (64 - ty.bits) - 1) := by
  rw [udiv_eq_ofInt, uidiv_low ty.bits_le (extend_ne_zero ty.bits_le IntTy.bits_lt_of_narrow hdef)]
  cases hnarrow : ty.narrow with
  | true => simpa using udiv_immFirst_iff (x := x) ty.bits_le hdef
  | false =>
    obtain rfl := IntTy.not_narrow_iff.mp hnarrow
    rw [toNat_extend_i64, toNat_extend_i64, Int.sub_self]
    simp

/-- A right shift of the engine: its low bits are those of an unsigned or of a signed shift. -/
theorem ishr_low (h₁ : z₁ = true → ty.narrow = true) (hlt : y.toNat < ty.bits) (t : BitVec ty.bits) :
    (∃ r, ishr (extend z₁ x) (extend z₂ y) = .ok r ∧ r.setWidth ty.bits = t) ↔
      (if z₁ then x >>> y.toNat else x.sshiftRight y.toNat) = t := by
  have hle := ty.bits_le
  have hamount := toNat_extend_of_lt (z := z₂) hle hlt
  have hok : ishr (extend z₁ x) (extend z₂ y) = .ok ((extend z₁ x).sshiftRight y.toNat) := by
    rw [ishr, if_pos (by omega), hamount]
  rw [hok]
  cases z₁ with
  | false => simp [shift_extend_sign hle]
  | true => simp [shift_extend_zero (IntTy.bits_lt_of_narrow (h₁ rfl))]

end Instruction

/-- The opcodes of this module. -/
def Opcode.dividing (op : Opcode) : Bool := !op.modular

section Words

variable {ty : IntTy} {o₁ o₂ : Operand} {regs : Regs}

theorem computed_signed (harr : o₁.isReg ∨ o₂.isReg) (h₁ : o₁.Printed ty.bits) (h₂ : o₂.Printed ty.bits)
    (hheld₁ : o₁.Held ty.bits regs) (hheld₂ : o₂.Held ty.bits regs) (op : Opcode) (ret : Text)
    (f : Word → Word → Except Err Word) :
    Binary.computed int32 f f (.ofOperands op ty ret o₁ o₂)
        ((Binary.ofOperands op ty ret o₁ o₂).operands.map fun name => (regs name).value) =
      f (extend (o₁.isReg && ty.small) (o₁.read ty.bits regs))
        (extend (o₂.isReg && ty.small) (o₂.read ty.bits regs)) := by
  rw [computed_same harr, word_int32 h₁ hheld₁, word_int32 h₂ hheld₂]

theorem computed_unsigned (harr : o₁.isReg ∨ o₂.isReg) (h₁ : o₁.Printed ty.bits) (h₂ : o₂.Printed ty.bits)
    (hheld₁ : o₁.Held ty.bits regs) (hheld₂ : o₂.Held ty.bits regs) (op : Opcode) (ret : Text)
    (withImm onRegs : Word → Word → Except Err Word) :
    Binary.computed uint32 withImm onRegs (.ofOperands op ty ret o₁ o₂)
        ((Binary.ofOperands op ty ret o₁ o₂).operands.map fun name => (regs name).value) =
      (if o₁.isReg ∧ o₂.isReg then onRegs else withImm) (extend (o₁.isReg && ty.narrow) (o₁.read ty.bits regs))
        (extend (o₂.isReg && ty.narrow) (o₂.read ty.bits regs)) := by
  rw [computed_operands harr, word_uint32 h₁ hheld₁, word_uint32 h₂ hheld₂]

theorem compute_dividing_iff {op : Opcode} (hop : op.dividing) (harr : o₁.isReg ∨ o₂.isReg) (h₁ : o₁.Printed ty.bits)
    (h₂ : o₂.Printed ty.bits) (hheld₁ : o₁.Held ty.bits regs) (hheld₂ : o₂.Held ty.bits regs)
    (hdef : Defined op (o₁.read ty.bits regs) (o₂.read ty.bits regs)) (ret : Text) :
    (∃ r, (Binary.ofOperands op ty ret o₁ o₂).compute
        ((Binary.ofOperands op ty ret o₁ o₂).operands.map fun name => (regs name).value) = .ok r ∧
      r.setWidth ty.bits = llvm op (o₁.read ty.bits regs) (o₂.read ty.bits regs)) ↔
      Exact op ty o₁.isReg o₂.isReg (o₁.read ty.bits regs) (o₂.read ty.bits regs) := by
  have hsmall : ∀ b : Bool, (b && ty.small) = true → ty.narrow = true := fun b h =>
    IntTy.narrow_of_small (by simp_all)
  have hnarrow : ∀ b : Bool, (b && ty.narrow) = true → ty.narrow = true := fun b h => by simp_all
  have hsigned := computed_signed harr h₁ h₂ hheld₁ hheld₂ op ret
  have hunsigned := computed_unsigned harr h₁ h₂ hheld₁ hheld₂ op ret
  cases op with
  | sdiv =>
    rw [show (Binary.ofOperands .sdiv ty ret o₁ o₂).compute _ = _ from hsigned idiv]
    exact idiv_sdiv_iff (hsmall _) (hsmall _) hdef
  | srem =>
    rw [show (Binary.ofOperands .srem ty ret o₁ o₂).compute _ = _ from hsigned imod]
    exact imod_srem_iff (hsmall _) (hsmall _) hdef
  | urem =>
    rw [show (Binary.ofOperands .urem ty ret o₁ o₂).compute _ = _ from hunsigned imod imod, ite_self]
    exact imod_urem_iff (hnarrow _) (hnarrow _) hdef
  | udiv =>
    rw [show (Binary.ofOperands .udiv ty ret o₁ o₂).compute _ = _ from hunsigned uidiv idiv]
    cases hr₁ : o₁.isReg with
    | true =>
      cases hr₂ : o₂.isReg with
      | true => simpa [Exact, llvm] using idiv_udiv_iff hdef
      | false => simpa [Exact, llvm] using uidiv_immSecond_iff hdef
    | false =>
      have hr₂ : o₂.isReg = true := by simpa [hr₁] using harr
      simpa [Exact, hr₂, llvm] using uidiv_immFirst_iff hdef
  | lshr =>
    rw [show (Binary.ofOperands .lshr ty ret o₁ o₂).compute _ = _ from hsigned ishr, ishr_low (hsmall _) hdef]
    cases hz : o₁.isReg && ty.small with
    | true => simp [Exact, llvm, hz]
    | false =>
      have hzero : ∀ y : BitVec ty.bits, y.toNat = 0 ↔ y = 0 := fun y => by rw [← toNat_inj]; simp
      simp only [Exact, llvm, hz, sshiftRight_eq_iff, hzero, forall_true_left, Bool.false_eq_true, if_false]
  | ashr =>
    rw [show (Binary.ofOperands .ashr ty ret o₁ o₂).compute _ = _ from hsigned ishr, ishr_low (hsmall _) hdef]
    cases hz : o₁.isReg && ty.small with
    | false => simp [Exact, llvm, hz]
    | true =>
      have hzero : ∀ y : BitVec ty.bits, y.toNat = 0 ↔ y = 0 := fun y => by rw [← toNat_inj]; simp
      simp only [Exact, llvm, hz, if_true, eq_comm (a := _ >>> _), sshiftRight_eq_iff, hzero, forall_true_left]
  | add | sub | mul | and | or | xor | shl => cases hop

end Words

/-- **Division and right shifts.** A line of `udiv`, `sdiv`, `urem`, `srem`, `lshr` or `ashr` is parsed to an
instruction that commits the result of LLVM, zero-extended, exactly when the extensions that the engine takes for the
operands do not matter. -/
theorem division_committed {op : Opcode} (hop : op.dividing) (ty : IntTy) (ret : Text) (flags : List Text)
    {o₁ o₂ : Operand} (harr : o₁.isReg ∨ o₂.isReg) (h₁ : o₁.Printed ty.bits) (h₂ : o₂.Printed ty.bits) (parsed : Regs) :
    ∃ i parsed', parse op ret (flags ++ [ty.text, o₁.text, o₂.text]) parsed = .ok (i, parsed') ∧
      ∀ (final : Word) (regs : Regs), (regs ret).size = (parsed' ret).size →
        o₁.Held ty.bits regs → o₂.Held ty.bits regs → (regs ret).value.toNat < 2 ^ ty.bits →
        Defined op (o₁.read ty.bits regs) (o₂.read ty.bits regs) →
        ((∃ regs', i.exec final regs = .ok regs' ∧
            (regs' ret).value = (llvm op (o₁.read ty.bits regs) (o₂.read ty.bits regs)).setWidth 64) ↔
          Exact op ty o₁.isReg o₂.isReg (o₁.read ty.bits regs) (o₂.read ty.bits regs)) := by
  refine ⟨_, _, parse_operands op ty ret flags o₁ o₂ parsed, ?_⟩
  intro final regs hsize hheld₁ hheld₂ hret hdef
  have hsize' : (regs ret).size = ty.bits / 8 := by simpa using hsize
  refine (exec_committed_iff (i := .ofOperands op ty ret o₁ o₂) hsize' hret
    (llvm op (o₁.read ty.bits regs) (o₂.read ty.bits regs))).trans ?_
  exact compute_dividing_iff hop harr h₁ h₂ hheld₁ hheld₂ hdef ret

/-- Registers of one byte: `%a` holds -8, `%b` holds 2 and the rest 0. -/
def byteRegs (name : Text) : Register :=
  if name = ['a'] then ⟨0xf8, 1⟩ else if name = ['b'] then ⟨2, 1⟩ else ⟨0, 1⟩

/-- `%x = udiv i8 %a, %b`. -/
theorem division_committed_udiv : ∃ i parsed',
    parse .udiv ['x'] ["i8".toList, "%a".toList, "%b".toList] (fun _ => .new) = .ok (i, parsed') ∧
      ∃ regs', i.exec 0 byteRegs = .ok regs' ∧ (regs' ['x']).value = 0x7c := by
  obtain ⟨i, parsed', hparse, hexec⟩ := division_committed (show Opcode.udiv.dividing = true from rfl) .i8 ['x'] []
    (show (Operand.reg ['a']).isReg = true ∨ (Operand.reg ['b']).isReg = true from .inl rfl) trivial
      trivial fun _ => .new
  have hp : parsed' ['x'] = ⟨0, 1⟩ := by
    have h := hparse.symm.trans (parse_operands .udiv .i8 ['x'] [] (.reg ['a']) (.reg ['b']) fun _ => .new)
    cases h
    rfl
  have hdef : Defined .udiv ((Operand.reg ['a']).read 8 byteRegs) ((Operand.reg ['b']).read 8 byteRegs) := by
    show (byteRegs ['b']).value.setWidth 8 ≠ 0
    decide
  have hiff := hexec 0 byteRegs (by rw [hp]; decide) (show _ < _ by decide) (show _ < _ by decide) (by decide) hdef
  obtain ⟨regs', hr, hvalue⟩ := hiff.mpr fun h => by cases h
  exact ⟨i, parsed', hparse, regs', hr, hvalue.trans (by decide)⟩

/-- `%x = sdiv i8 %a, %b` gives 124 for -8 and 2. -/
theorem negative_byte_divided : ¬ ∀ (op : Opcode) (ty : IntTy) (ret : Text) (o₁ o₂ : Operand) (parsed : Regs),
    op.dividing → o₁.isReg ∨ o₂.isReg → o₁.Printed ty.bits → o₂.Printed ty.bits →
    ∃ i parsed', parse op ret [ty.text, o₁.text, o₂.text] parsed = .ok (i, parsed') ∧
      ∀ (final : Word) (regs : Regs), (regs ret).size = (parsed' ret).size →
        o₁.Held ty.bits regs → o₂.Held ty.bits regs → (regs ret).value.toNat < 2 ^ ty.bits →
        Defined op (o₁.read ty.bits regs) (o₂.read ty.bits regs) →
        ∃ regs', i.exec final regs = .ok regs' ∧
          (regs' ret).value = (llvm op (o₁.read ty.bits regs) (o₂.read ty.bits regs)).setWidth 64 := by
  intro h
  obtain ⟨i, parsed', hparse, hexec⟩ := h .sdiv .i8 ['x'] (.reg ['a']) (.reg ['b']) (fun _ => .new) rfl (.inl rfl)
    trivial trivial
  have hp := hparse.symm.trans (parse_operands .sdiv .i8 ['x'] [] (.reg ['a']) (.reg ['b']) fun _ => .new)
  cases hp
  have hdef : Defined .sdiv ((Operand.reg ['a']).read 8 byteRegs) ((Operand.reg ['b']).read 8 byteRegs) := by
    show (byteRegs ['b']).value.setWidth 8 ≠ 0 ∧ ¬((byteRegs ['a']).value.setWidth 8 = BitVec.intMin 8 ∧
      (byteRegs ['b']).value.setWidth 8 = -1)
    decide
  obtain ⟨regs', hr, hvalue⟩ := hexec 0 byteRegs (by decide) (show _ < _ by decide) (show _ < _ by decide)
    (by decide) hdef
  cases hr
  exact absurd hvalue (by decide)

end Salam.Ir
