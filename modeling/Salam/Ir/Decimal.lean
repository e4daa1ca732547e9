import Mathlib.Algebra.Order.Field.Rat
import Mathlib.Algebra.Order.Group.Nat
import Mathlib.Algebra.Order.Ring.Rat
import Mathlib.Tactic.NormNum
import Mathlib.Tactic.FieldSimp
import Mathlib.Tactic.Ring
import Salam.Ir.Binary
import Salam.Lib.System

/-!
# Decimal immediates

`sciToDecimal` writes a floating-point literal of LLVM, such as `1.500000e+02`, without its exponent: it moves the point
to the right, one character at a time, and cuts the exponent off. It takes the size of the exponent and not its sign.

* `sciToDecimal_text`: what it returns.
* `sci_decimal`: exactly when that is the same number.
-/

namespace Salam.Ir

open CString

/-- The last position of a character in the rest of a string that starts at `i`, otherwise `loc`. -/
def lastAt (c : Char) : Text → Nat → Nat → Nat
  | [], _, loc => loc
  | d :: s, i, loc => lastAt c s (i + 1) (if d = c then i else loc)

/-- `s[i]` for reading. A null character stands behind the last one. -/
def charAt (s : Text) (i : Nat) : Except Err Char :=
  match s[i]? with
  | some c => .ok c
  | none => if i = s.length then .ok '\x00' else .error .undefined

/-- `s[i] = c`. -/
def setChar (s : Text) (i : Nat) (c : Char) : Except Err Text :=
  if i < s.length ∨ i = s.length ∧ c = '\x00' then .ok (s.set i c) else .error .undefined

/-- `n` characters from `i` on are replaced by the ones behind them. -/
def moveBack (s : Text) (i : Nat) : Nat → Except Err Text
  | 0 => .ok s
  | n + 1 => do
    let c ← charAt s (i + 1)
    let s' ← setChar s i c
    moveBack s' (i + 1) n

/-- `sciToDecimal`. The positions are searched up to the last character but one; for the empty string that bound wraps
around. -/
def sciToDecimal (immediateValue : Text) : Except Err Text :=
  if immediateValue = [] then .error .undefined
  else
    let decimalLocation := lastAt '.' immediateValue.dropLast 0 0
    let magnitudeLoc := lastAt 'e' immediateValue.dropLast 0 0
    if immediateValue.length < magnitudeLoc + 2 then .error .outOfRange
    else
      let magnitude := (strtol (immediateValue.drop (magnitudeLoc + 2))).bmod (2 ^ 32)
      do
        let moved ← moveBack immediateValue decimalLocation magnitude.toNat
        if (decimalLocation : Int) + magnitude < 0 then .error .undefined
        else do
          let pointed ← setChar moved (decimalLocation + magnitude).toNat '.'
          return substr pointed 0 magnitudeLoc

/-! ## Literals -/

/-- A literal `[-]d.ddd…e(+|-)dd…`, with any number of digits behind the point and up to nine in the exponent. -/
structure SciLiteral where
  neg : Bool
  lead : Char
  frac : Text
  expNeg : Bool
  exp : Text
  lead_isDigit : lead.isDigit
  frac_isDigit : ∀ c ∈ frac, c.isDigit
  exp_isDigit : ∀ c ∈ exp, c.isDigit
  exp_ne_nil : exp ≠ []
  exp_length : exp.length ≤ 9

namespace SciLiteral

/-- What stands in front of the point. -/
def front (l : SciLiteral) : Text := (if l.neg then ['-'] else []) ++ [l.lead]

/-- The literal as it is written. -/
def text (l : SciLiteral) : Text :=
  l.front ++ '.' :: (l.frac ++ 'e' :: (if l.expNeg then '-' else '+') :: l.exp)

/-- The digits without the point. -/
def mantissa (l : SciLiteral) : Nat := Nat.ofDigitChars 10 (l.lead :: l.frac) 0

/-- The exponent without its sign. -/
def magnitude (l : SciLiteral) : Nat := Nat.ofDigitChars 10 l.exp 0

/-- `1` or `-1`. -/
def sign (neg : Bool) : ℚ := if neg then -1 else 1

/-- The number that the literal denotes. -/
def value (l : SciLiteral) : ℚ :=
  sign l.neg * (l.mantissa / 10 ^ l.frac.length * if l.expNeg then 1 / 10 ^ l.magnitude else 10 ^ l.magnitude)

end SciLiteral

/-- The number that a decimal `ddd` or `ddd.ddd` without a sign denotes. -/
def unsignedDecimal (s : Text) : Option ℚ :=
  let digits := s.takeWhile Char.isDigit
  if digits = [] then none
  else
    match s.dropWhile Char.isDigit with
    | [] => some (Nat.ofDigitChars 10 digits 0 : ℚ)
    | c :: frac =>
      if c = '.' ∧ frac.all Char.isDigit then some ((Nat.ofDigitChars 10 (digits ++ frac) 0 : ℚ) / 10 ^ frac.length)
      else none

/-- The number that a decimal denotes. -/
def decimal (s : Text) : Option ℚ :=
  match s with
  | [] => none
  | c :: t => if c = '-' then (unsignedDecimal t).map (SciLiteral.sign true * ·) else unsignedDecimal (c :: t)

/-! ## What is returned -/

variable {c : Char}

theorem digit_le (h : c.isDigit) : c.toNat - '0'.toNat ≤ 9 := by
  rw [Char.isDigit, Bool.and_eq_true, decide_eq_true_eq, decide_eq_true_eq] at h
  have hle : c.toNat ≤ 57 := h.2
  exact Nat.sub_le_of_le_add hle

variable {s : Text}

/-- A number of `n` digits is less than `10 ^ n`. -/
theorem ofDigitChars_lt (h : ∀ c ∈ s, c.isDigit) : Nat.ofDigitChars 10 s 0 < 10 ^ s.length := by
  induction s with
  | nil => simp
  | cons c s ih =>
    have hc := digit_le (h c (by simp))
    have hs := ih fun d hd => h d (List.mem_cons_of_mem _ hd)
    have hmul := Nat.mul_le_mul_left (10 ^ s.length) hc
    rw [Nat.ofDigitChars_cons, Nat.ofDigitChars_eq_ofDigitChars_zero, List.length_cons, Nat.pow_succ, Nat.mul_zero,
      Nat.zero_add]
    omega

theorem lastAt_of_not_mem (h : c ∉ s) (i loc : Nat) : lastAt c s i loc = loc := by
  induction s generalizing i with
  | nil => rfl
  | cons d s ih =>
    simp only [List.mem_cons, not_or] at h
    rw [lastAt, if_neg fun he => h.1 he.symm, ih h.2]

theorem lastAt_append {v : Text} (h : c ∉ v) (u : Text) (i loc : Nat) :
    lastAt c (u ++ c :: v) i loc = i + u.length := by
  induction u generalizing i loc with
  | nil => rw [List.nil_append, lastAt, if_pos rfl, lastAt_of_not_mem h]; rfl
  | cons d u ih =>
    rw [List.cons_append, lastAt, ih, List.length_cons]
    omega

/-- The characters of `v` move one place to the front. -/
theorem moveBack_append (u v w : Text) (x : Char) :
    ∃ y, moveBack (u ++ x :: (v ++ w)) u.length v.length = .ok (u ++ (v ++ y :: w)) := by
  induction v generalizing u x with
  | nil => exact ⟨x, rfl⟩
  | cons a v ih =>
    have hread : charAt (u ++ x :: (a :: v ++ w)) (u.length + 1) = .ok a := by
      simp [charAt]
    have hwrite : setChar (u ++ x :: (a :: v ++ w)) u.length a = .ok ((u ++ [a]) ++ a :: (v ++ w)) := by
      simp [setChar]
    obtain ⟨y, hy⟩ := ih (u ++ [a]) a
    refine ⟨y, ?_⟩
    rw [List.length_cons, moveBack, hread]
    simp only [bind, Except.bind]
    rw [hwrite]
    simp only
    rw [List.length_append, List.length_singleton] at hy
    rw [hy]
    simp

theorem setChar_length {s s' : Text} {i : Nat} (h : setChar s i c = .ok s') : s'.length = s.length := by
  rw [setChar] at h
  split at h
  · cases h
    exact List.length_set
  · cases h

theorem moveBack_length {s s' : Text} {i n : Nat} (h : moveBack s i n = .ok s') : s'.length = s.length := by
  induction n generalizing s i with
  | zero =>
    cases h
    rfl
  | succ n ih =>
    obtain ⟨c, -, h⟩ := ok_of_bind h
    obtain ⟨t, ht, h⟩ := ok_of_bind h
    rw [ih h, setChar_length ht]

theorem setChar_error {i : Nat} {e : Err} (h : setChar s i c = .error e) : e = .undefined := by
  rw [setChar] at h
  split at h
  · cases h
  · exact (Except.error.inj h).symm

theorem charAt_error {i : Nat} {e : Err} (h : charAt s i = .error e) : e = .undefined := by
  rw [charAt] at h
  split at h
  · cases h
  · split at h
    · cases h
    · exact (Except.error.inj h).symm

theorem moveBack_error {i n : Nat} {e : Err} (h : moveBack s i n = .error e) : e = .undefined := by
  induction n generalizing s i with
  | zero => cases h
  | succ n ih =>
    rcases error_of_bind h with h | ⟨c, -, h⟩
    · exact charAt_error h
    · rcases error_of_bind h with h | ⟨t, -, h⟩
      · exact setChar_error h
      · exact ih h

namespace SciLiteral

variable (l : SciLiteral)

/-- The exponent is read, without its sign. -/
theorem strtol_exp : (strtol l.exp).bmod (2 ^ 32) = l.magnitude := by
  have hlt : l.magnitude < 10 ^ 9 :=
    Nat.lt_of_lt_of_le (ofDigitChars_lt l.exp_isDigit) (Nat.pow_le_pow_right (by decide) l.exp_length)
  have hread : strtol l.exp = l.magnitude :=
    strtol_of_fits ⟨false, l.exp, l.exp_isDigit, l.exp_ne_nil⟩ (by
      simp only [Literal.value, signed, Bool.false_eq_true, if_false]
      rw [magnitude] at hlt
      omega)
  rw [hread, Int.bmod_eq_of_le (by omega) (by omega)]

theorem not_mem_frac {c : Char} (hd : c.isDigit = false) : c ∉ l.frac := fun hc => by
  rw [l.frac_isDigit c hc] at hd
  cases hd

theorem not_mem_exp {c : Char} (hd : c.isDigit = false) : c ∉ l.exp.dropLast := fun hc => by
  rw [l.exp_isDigit c (List.mem_of_mem_dropLast hc)] at hd
  cases hd

/-- What stands behind the point. -/
def rest : Text := l.frac ++ 'e' :: (if l.expNeg then '-' else '+') :: l.exp

theorem text_eq : l.text = l.front ++ '.' :: l.rest := rfl

theorem text_dropLast :
    l.text.dropLast = l.front ++ '.' :: (l.frac ++ 'e' :: (if l.expNeg then '-' else '+') :: l.exp.dropLast) := by
  have hlast : l.text = l.front ++ '.' :: (l.frac ++ 'e' :: (if l.expNeg then '-' else '+') :: l.exp.dropLast) ++
      [l.exp.getLast l.exp_ne_nil] := by
    rw [text, List.append_assoc, List.cons_append, List.append_assoc, List.cons_append, List.cons_append,
      List.dropLast_append_getLast]
  rw [hlast, List.dropLast_concat]

theorem decimalLocation_eq : lastAt '.' l.text.dropLast 0 0 = l.front.length := by
  have hrest : '.' ∉ l.frac ++ 'e' :: (if l.expNeg then '-' else '+') :: l.exp.dropLast := by
    have hfrac := l.not_mem_frac (c := '.') rfl
    have hexp := l.not_mem_exp (c := '.') rfl
    split <;> simp [hfrac, hexp]
  rw [text_dropLast, lastAt_append hrest, Nat.zero_add]

theorem magnitudeLoc_eq : lastAt 'e' l.text.dropLast 0 0 = l.front.length + 1 + l.frac.length := by
  have hrest : 'e' ∉ (if l.expNeg then '-' else '+') :: l.exp.dropLast := by
    have hexp := l.not_mem_exp (c := 'e') rfl
    split <;> simp [hexp]
  have htext : l.text.dropLast =
      (l.front ++ '.' :: l.frac) ++ 'e' :: (if l.expNeg then '-' else '+') :: l.exp.dropLast := by
    rw [text_dropLast]
    simp
  rw [htext, lastAt_append hrest]
  simp
  omega

/-- **The point is moved to the right by the size of the exponent.** -/
theorem sciToDecimal_text :
    sciToDecimal l.text =
      if l.magnitude ≤ l.rest.length then
        .ok ((l.front ++ (l.rest.take l.magnitude ++ '.' :: l.rest.drop l.magnitude)).take
          (l.front.length + 1 + l.frac.length)) else .error .undefined := by
  have hne : l.text ≠ [] := by simp [text]
  have hlen : l.text.length = l.front.length + 1 + l.rest.length := by
    rw [text_eq]
    simp
    omega
  have hrest : l.rest.length = l.frac.length + 2 + l.exp.length := by
    rw [rest]
    simp
    omega
  have hexp : l.text.drop (l.front.length + 1 + l.frac.length + 2) = l.exp := by
    have htext : l.text = (l.front ++ '.' :: (l.frac ++ ['e', if l.expNeg then '-' else '+'])) ++ l.exp := by
      simp [text]
    rw [htext, List.drop_left']
    simp
    omega
  have hlong : ¬l.text.length < l.front.length + 1 + l.frac.length + 2 := by omega
  have hnonneg : ¬((l.front.length : Int) + l.magnitude < 0) := by omega
  have hpoint : ((l.front.length : Int) + l.magnitude).toNat = l.front.length + l.magnitude := by omega
  rw [sciToDecimal, if_neg hne]
  simp only [decimalLocation_eq, magnitudeLoc_eq, hlong, if_false, hexp, strtol_exp, Int.toNat_natCast, hnonneg, hpoint]
  by_cases hm : l.magnitude ≤ l.rest.length
  · obtain ⟨y, hy⟩ := moveBack_append l.front (l.rest.take l.magnitude) (l.rest.drop l.magnitude) '.'
    rw [List.take_append_drop, List.length_take, Nat.min_eq_left hm] at hy
    have hset : setChar (l.front ++ (l.rest.take l.magnitude ++ y :: l.rest.drop l.magnitude))
      (l.front.length + l.magnitude) '.' =
        .ok (l.front ++ (l.rest.take l.magnitude ++ '.' :: l.rest.drop l.magnitude)) := by
      have hlt : l.front.length + l.magnitude <
          (l.front ++ (l.rest.take l.magnitude ++ y :: l.rest.drop l.magnitude)).length := by
        simp
        omega
      rw [setChar, if_pos (.inl hlt)]
      simp [Nat.min_eq_left hm]
    rw [text_eq, hy, if_pos hm]
    simp only [bind, Except.bind]
    rw [hset]
    rfl
  · rw [if_neg hm]
    cases hmove : moveBack l.text l.front.length l.magnitude with
    | error e => rw [moveBack_error hmove]; rfl
    | ok moved =>
      have hpast : ¬l.front.length + l.magnitude < moved.length := by
        rw [moveBack_length hmove]
        omega
      simp only [bind, Except.bind, setChar, hpast, false_or]
      rw [if_neg fun h => absurd h.2 (by decide)]

/-! ## The number -/

/-- What stands in front of the point is the sign and a digit. -/
theorem decimal_front (t : Text) : decimal (l.front ++ t) = (unsignedDecimal (l.lead :: t)).map (sign l.neg * ·) := by
  cases hneg : l.neg with
  | true =>
    have hfront : l.front = ['-', l.lead] := by simp [front, hneg]
    rw [hfront]
    rfl
  | false =>
    have hfront : l.front = [l.lead] := by simp [front, hneg]
    have hlead : l.lead ≠ '-' := by
      intro he
      have hd := l.lead_isDigit
      rw [he] at hd
      cases hd
    rw [hfront, List.singleton_append, decimal]
    simp [hlead, sign]

/-- The digits in front of another character. -/
theorem digits_split {m : Nat} {c : Char} (hc : c.isDigit = false) (t : Text) :
    (l.lead :: (l.frac.take m ++ c :: t)).takeWhile Char.isDigit = l.lead :: l.frac.take m ∧
      (l.lead :: (l.frac.take m ++ c :: t)).dropWhile Char.isDigit = c :: t := by
  have hdigits : ∀ d ∈ l.lead :: l.frac.take m, d.isDigit := by
    intro d hd
    rcases List.mem_cons.mp hd with rfl | hd
    · exact l.lead_isDigit
    · exact l.frac_isDigit d (List.mem_of_mem_take hd)
  rw [← List.cons_append, List.takeWhile_append_of_pos hdigits, List.dropWhile_append_of_pos hdigits]
  simp [hc]

/-- The decimal with the point behind `m` more digits. -/
theorem decimal_moved (m : Nat) :
    decimal (l.front ++ (l.frac.take m ++ '.' :: l.frac.drop m)) =
      some (sign l.neg * (l.mantissa / 10 ^ (l.frac.length - m))) := by
  obtain ⟨htake, hdrop⟩ := l.digits_split (m := m) (c := '.') rfl (l.frac.drop m)
  have hall : (l.frac.drop m).all Char.isDigit := by
    rw [List.all_eq_true]
    exact fun c hc => l.frac_isDigit c (List.mem_of_mem_drop hc)
  rw [decimal_front, unsignedDecimal, htake, hdrop, if_neg (List.cons_ne_nil _ _)]
  simp only [hall, and_self, if_true]
  rw [List.cons_append, List.take_append_drop, List.length_drop]
  rfl

/-- With an `e` at its end, it is no decimal. -/
theorem decimal_e : decimal (l.front ++ (l.frac ++ ['e'])) = none := by
  obtain ⟨htake, hdrop⟩ := l.digits_split (m := l.frac.length) (c := 'e') rfl []
  rw [List.take_length] at htake hdrop
  rw [decimal_front, unsignedDecimal, htake, hdrop, if_neg (List.cons_ne_nil _ _)]
  rfl

/-- What is denoted when the point stays among the digits. -/
theorem returned_moved (hm : l.magnitude ≤ l.frac.length) :
    ∃ s, sciToDecimal l.text = .ok s ∧ decimal s =
    some (sign l.neg * (l.mantissa / 10 ^ (l.frac.length - l.magnitude))) := by
  have hrest : l.magnitude ≤ l.rest.length := by
    rw [rest, List.length_append]
    omega
  have hcut : (l.front ++ (l.rest.take l.magnitude ++ '.' :: l.rest.drop l.magnitude)).take
      (l.front.length + 1 + l.frac.length) = l.front ++
        (l.frac.take l.magnitude ++ '.' :: l.frac.drop l.magnitude) := by
    have htake : l.rest.take l.magnitude = l.frac.take l.magnitude := by rw [rest, List.take_append_of_le_length hm]
    have hdrop : l.rest.drop l.magnitude =
        l.frac.drop l.magnitude ++ 'e' :: (if l.expNeg then '-' else '+') :: l.exp := by
      rw [rest, List.drop_append_of_le_length hm]
    rw [htake, hdrop, ← List.cons_append, ← List.append_assoc, ← List.append_assoc]
    refine (List.take_left' ?_).trans (List.append_assoc _ _ _)
    simp
    omega
  rw [sciToDecimal_text, if_pos hrest, hcut]
  exact ⟨_, rfl, l.decimal_moved l.magnitude⟩

theorem returned_e (hm : l.frac.length < l.magnitude) (s : Text) (hs : sciToDecimal l.text = .ok s) :
    decimal s = none := by
  rw [sciToDecimal_text] at hs
  split at hs
  · have hcut : (l.front ++ (l.rest.take l.magnitude ++ '.' :: l.rest.drop l.magnitude)).take
        (l.front.length + 1 + l.frac.length) = l.front ++ (l.frac ++ ['e']) := by
      obtain ⟨k, hk⟩ : ∃ k, l.magnitude = (l.frac ++ ['e']).length + k := by
        refine ⟨l.magnitude - (l.frac ++ ['e']).length, ?_⟩
        rw [List.length_append, List.length_singleton]
        omega
      have hsplit : l.rest = (l.frac ++ ['e']) ++ (if l.expNeg then '-' else '+') :: l.exp := by simp [rest]
      have htake : l.rest.take l.magnitude =
          (l.frac ++ ['e']) ++ ((if l.expNeg then '-' else '+') :: l.exp).take k := by
        rw [hsplit, hk, List.take_length_add_append]
      rw [htake, List.append_assoc, ← List.append_assoc l.front]
      refine List.take_left' ?_
      simp
      omega
    rw [hcut] at hs
    cases hs
    exact l.decimal_e
  · cases hs

end SciLiteral

/-- Moving the point the other way gives another number, unless there is nothing to move. -/
theorem moved_left_iff (n a m : Nat) : (n / (10 ^ a * 10 ^ m) * (1 / 10 ^ m) : ℚ) = n / 10 ^ a ↔ m = 0 ∨ n = 0 := by
  constructor
  · intro h
    rw [or_iff_not_imp_right]
    intro hn
    have hone : (10 : ℚ) ^ (m + m) = 1 := by
      rw [pow_add]
      field_simp at h
      rw [← pow_two]
      exact h.symm
    by_contra hm
    exact absurd hone (one_lt_pow₀ (by norm_num) (by omega)).ne'
  · rintro (rfl | rfl)
    · simp
    · simp

/-- **A literal keeps its value exactly when its exponent is no larger than its number of digits behind the point and
not negative, or zero.** -/
theorem sci_decimal (l : SciLiteral) : (∃ s, sciToDecimal l.text = .ok s ∧ decimal s = some l.value) ↔
    l.magnitude ≤ l.frac.length ∧ (l.expNeg = false ∨ l.magnitude = 0 ∨ l.mantissa = 0) := by
  by_cases hm : l.magnitude ≤ l.frac.length
  · obtain ⟨s, hs, hvalue⟩ := l.returned_moved hm
    have hpow : (10 : ℚ) ^ l.frac.length = 10 ^ (l.frac.length - l.magnitude) * 10 ^ l.magnitude := by
      rw [← pow_add, Nat.sub_add_cancel hm]
    have hsign : SciLiteral.sign l.neg ≠ 0 := by
      rw [SciLiteral.sign]
      split <;> norm_num
    have hiff : l.value = SciLiteral.sign l.neg * (l.mantissa / 10 ^ (l.frac.length - l.magnitude)) ↔
        l.expNeg = false ∨ l.magnitude = 0 ∨ l.mantissa = 0 := by
      rw [SciLiteral.value, mul_right_inj' hsign, hpow]
      cases hneg : l.expNeg with
      | false =>
        refine iff_of_true ?_ (.inl rfl)
        simp only [Bool.false_eq_true, if_false]
        field_simp
      | true =>
        simp only [if_true, Bool.true_eq_false, false_or]
        exact moved_left_iff _ _ _
    refine ⟨fun ⟨s', hs', hvalue'⟩ => ⟨hm, hiff.mp ?_⟩, fun ⟨_, h⟩ => ⟨s, hs, by rw [hvalue, hiff.mpr h]⟩⟩
    cases hs.symm.trans hs'
    exact Option.some.inj (hvalue'.symm.trans hvalue)
  · refine iff_of_false ?_ fun h => hm h.1
    rintro ⟨s, hs, hvalue⟩
    rw [l.returned_e (Nat.lt_of_not_le hm) s hs] at hvalue
    cases hvalue

/-- `1.000000e-01`. -/
def tenth : SciLiteral :=
  ⟨false, '1', List.replicate 6 '0', true, ['0', '1'], rfl, by simp, by simp, by simp, by simp⟩

/-- `1.000000e-01` becomes `10.00000`. -/
theorem tenth_becomes_ten : ¬ ∀ l : SciLiteral, ∃ s, sciToDecimal l.text = .ok s ∧ decimal s = some l.value := by
  intro h
  obtain ⟨s, hs, hvalue⟩ := h tenth
  have hten : sciToDecimal tenth.text = .ok "10.00000".toList := by rfl
  cases hten.symm.trans hs
  have hread : decimal "10.00000".toList = some (1000000 / 10 ^ 5 : ℚ) := by rfl
  have hten := Option.some.inj (hread.symm.trans hvalue)
  have htenth : tenth.value = 1 * (1000000 / 10 ^ 6 * (1 / 10 ^ 1)) := by rfl
  rw [htenth] at hten
  norm_num at hten

end Salam.Ir
