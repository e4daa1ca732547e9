import Mathlib.Data.BitVec
import Mathlib.Data.List.Basic

/-!
# The strings of the C++ library

`std::string` as a list of characters: the searches, `substr`, and the conversions of decimal numbers.

* `strtol_literal`: `strtol` reads a decimal literal, and stops at what follows it, up to the ends of the range of
  `long`.
-/

namespace Salam.CString

/-- A `std::string`. -/
abbrev Text := List Char

/-- `s.find(c, pos)`; `none` is `npos`. -/
def find (s : Text) (c : Char) (pos : Nat) : Option Nat := ((s.drop pos).findIdx? (· == c)).map (pos + ·)

/-- `s.find(t)` for a string; `none` is `npos`. -/
def search (t : Text) : Text → Option Nat
  | [] => if t = [] then some 0 else none
  | c :: s => if t.isPrefixOf (c :: s) then some 0 else (search t s).map (· + 1)

/-- `s.substr(pos, n)`, without the exception for a `pos` past the end. -/
def substr (s : Text) (pos n : Nat) : Text := (s.drop pos).take n

/-- `isspace`. -/
def isSpace (c : Char) : Bool := [' ', '\t', '\n', '\x0b', '\x0c', '\r'].contains c

/-- What `strtol` and `stoi` read: blanks, a sign, and the longest run of digits. -/
def scan (s : Text) : Bool × Text :=
  match s.dropWhile isSpace with
  | '-' :: t => (true, t.takeWhile Char.isDigit)
  | '+' :: t => (false, t.takeWhile Char.isDigit)
  | t => (false, t.takeWhile Char.isDigit)

/-- The number with this sign and these digits. -/
def signed (neg : Bool) (digits : Text) : Int :=
  if neg then -(Nat.ofDigitChars 10 digits 0 : Int) else Nat.ofDigitChars 10 digits 0

/-- `strtol(s, &end, 10)`, also `atol(s)`: out of range, the end of the range of `long`. -/
def strtol (s : Text) : Int := max (-2 ^ 63) (min (2 ^ 63 - 1) (signed (scan s).1 (scan s).2))

/-- `stoi(s)`: `none` stands for the exceptions, without a digit and outside the range of `int`. -/
def stoi (s : Text) : Option Int :=
  let v := signed (scan s).1 (scan s).2
  if (scan s).2 = [] then none else if -2 ^ 31 ≤ v ∧ v < 2 ^ 31 then some v else none

/-! ## Searching -/

theorem find_eq (s : Text) (c : Char) (pos : Nat) : find s c pos = (find (s.drop pos) c 0).map (pos + ·) := by
  simp [find]

variable {c : Char}

theorem findIdx?_eq_none {s : Text} (h : c ∉ s) : s.findIdx? (· == c) = none := by
  rw [List.findIdx?_eq_none_iff]
  intro d hd
  exact beq_false_of_ne fun he => h (he ▸ hd)

theorem find_append {s t : Text} (h : c ∉ s) : find (s ++ c :: t) c 0 = some s.length := by
  simp [find, List.findIdx?_append, findIdx?_eq_none h, List.findIdx?_cons]

theorem find_eq_none {s : Text} (h : c ∉ s) : find s c 0 = none := by
  simp [find, findIdx?_eq_none h]

theorem find_append_right {u : Text} (h : c ∉ u) (s : Text) : find (u ++ s) c 0 = (find s c 0).map (u.length + ·) := by
  simp [find, List.findIdx?_append, findIdx?_eq_none h, Nat.add_comm]
  rfl

theorem find_drop {u s t : Text} (h : c ∉ s) : find (u ++ (s ++ c :: t)) c u.length = some (u.length + s.length) := by
  rw [find_eq, List.drop_left, find_append h, Option.map_some]

variable {pat : Text}

theorem search_cons {s : Text} (h : pat.isPrefixOf (c :: s) = false) :
    search pat (c :: s) = (search pat s).map (· + 1) := by
  simp [search, h]

theorem search_cons_of_ne {p : Char} (s : Text) (h : c ≠ p) :
    search (p :: pat) (c :: s) = (search (p :: pat) s).map (· + 1) := by
  have hne : (p == c) = false := beq_false_of_ne fun he => h he.symm
  exact search_cons (by simp [List.isPrefixOf, hne])

/-- A string that starts with a character the text in front does not contain. -/
theorem search_append {u s : Text} {p : Char} (h : p ∉ u) :
    search (p :: pat) (u ++ s) = (search (p :: pat) s).map (u.length + ·) := by
  induction u with
  | nil => simp
  | cons c u ih =>
    have hc : c ≠ p := fun he => h (by simp [he])
    rw [List.cons_append, search_cons_of_ne _ hc, ih fun hm => h (List.mem_cons_of_mem _ hm), Option.map_map]
    congr 1
    funext k
    simp only [Function.comp_apply, List.length_cons]
    omega

theorem search_self (pat s : Text) : search pat (pat ++ s) = some 0 := by
  cases hps : pat ++ s with
  | nil => simp [search, (List.append_eq_nil_iff.mp hps).1]
  | cons c t =>
    have hpre : pat.isPrefixOf (c :: t) = true := by
      rw [← hps, List.isPrefixOf_iff_prefix]
      exact List.prefix_append pat s
    simp [search, hpre]

theorem search_isSome_iff (pat s : Text) : (search pat s).isSome = true ↔ pat <:+: s := by
  induction s with
  | nil =>
    rw [search, List.infix_nil]
    split <;> simp_all
  | cons c s ih =>
    rw [search, List.infix_cons_iff]
    split
    · rename_i h
      simp [List.isPrefixOf_iff_prefix.mp h]
    · rename_i h
      rw [List.isPrefixOf_iff_prefix] at h
      rw [Option.isSome_map, ih]
      simp [h]

/-! ## Decimal literals -/

/-- A decimal literal: digits, with a minus sign or without. -/
structure Literal where
  neg : Bool
  digits : Text
  isDigit : ∀ c ∈ digits, c.isDigit
  ne_nil : digits ≠ []
  deriving DecidableEq

namespace Literal

/-- The literal as it is written. -/
def text (l : Literal) : Text := if l.neg then '-' :: l.digits else l.digits

/-- The number that it denotes. -/
def value (l : Literal) : Int := signed l.neg l.digits

end Literal

theorem literal_ne_nil (l : Literal) : ∃ c s, l.text = c :: s ∧ (c = '-' ∨ c.isDigit) := by
  obtain ⟨neg, ds, hd, hne⟩ := l
  cases neg with
  | true => exact ⟨'-', ds, rfl, .inl rfl⟩
  | false =>
    cases ds with
    | nil => exact absurd rfl hne
    | cons d ds => exact ⟨d, ds, rfl, .inr (hd d (by simp))⟩

/-- A literal has digits, and a sign in front. -/
theorem not_mem_literal (l : Literal) (hc : c.isDigit = false) (hm : c ≠ '-') : c ∉ l.text := by
  obtain ⟨neg, ds, hd, hne⟩ := l
  have hdigit : c ∉ ds := fun h => by
    rw [hd c h] at hc
    cases hc
  cases neg with
  | true => simp [Literal.text, hdigit, hm]
  | false => simpa [Literal.text] using hdigit

theorem isSpace_of_isDigit (h : c.isDigit) : isSpace c = false := by
  by_contra hs
  simp only [isSpace, List.contains_eq_mem, Bool.not_eq_false, decide_eq_true_eq, List.mem_cons, List.not_mem_nil,
    or_false] at hs
  rcases hs with rfl | rfl | rfl | rfl | rfl | rfl <;> exact absurd h (by decide)

theorem takeWhile_digits {ds rest : Text} (hd : ∀ c ∈ ds, c.isDigit)
    (hr : ∀ c, rest.head? = some c → c.isDigit = false) :
    (ds ++ rest).takeWhile Char.isDigit = ds := by
  rw [List.takeWhile_append_of_pos hd]
  cases rest with
  | nil => simp
  | cons c rest => simp [hr c rfl]

/-- A literal is read up to the first character that is no digit. -/
theorem scan_literal (l : Literal) {rest : Text} (hr : ∀ c, rest.head? = some c → c.isDigit = false) :
    scan (l.text ++ rest) = (l.neg, l.digits) := by
  obtain ⟨neg, ds, hd, hne⟩ := l
  have htake := takeWhile_digits hd hr
  cases neg with
  | true =>
    have hdrop : ('-' :: (ds ++ rest)).dropWhile isSpace = '-' :: (ds ++ rest) := by simp [isSpace]
    simp [scan, Literal.text, hdrop, htake]
  | false =>
    cases ds with
    | nil => exact absurd rfl hne
    | cons d ds =>
      have hdigit : d.isDigit := hd d (by simp)
      have hdrop : (d :: (ds ++ rest)).dropWhile isSpace = d :: (ds ++ rest) := by
        simp [isSpace_of_isDigit hdigit]
      have hscan : scan (d :: (ds ++ rest)) = (false, (d :: (ds ++ rest)).takeWhile Char.isDigit) := by
        unfold scan
        rw [hdrop]
        split
        · rename_i heq
          cases heq
          exact absurd hdigit (by decide)
        · rename_i heq
          cases heq
          exact absurd hdigit (by decide)
        · rfl
      simpa [Literal.text, hscan] using htake

theorem strtol_literal (l : Literal) {rest : Text} (hr : ∀ c, rest.head? = some c → c.isDigit = false) :
    strtol (l.text ++ rest) = max (-2 ^ 63) (min (2 ^ 63 - 1) l.value) := by
  rw [strtol, scan_literal l hr, Literal.value]

/-- A literal in the range of `long` is read as it is. -/
theorem strtol_of_fits (l : Literal) (h : -2 ^ 63 ≤ l.value ∧ l.value < 2 ^ 63) : strtol l.text = l.value := by
  have hread : strtol (l.text ++ []) = _ := strtol_literal l (by simp)
  rw [List.append_nil] at hread
  omega

/-- A literal in the range of `int` is read as it is. -/
theorem stoi_literal (l : Literal) : stoi l.text = if -2 ^ 31 ≤ l.value ∧ l.value < 2 ^ 31 then some l.value
    else none := by
  have hread : scan (l.text ++ []) = (l.neg, l.digits) := scan_literal l (by simp)
  rw [List.append_nil] at hread
  simp only [stoi, hread, l.ne_nil, if_false]
  rfl

theorem not_mem_toDigits {n : Nat} (h : c.isDigit = false) : c ∉ Nat.toDigits 10 n := fun hm => by
  rw [Nat.isDigit_of_mem_toDigits (by decide) (by decide) hm] at h
  cases h

/-- The literal of a number. -/
def Literal.ofNat (n : Nat) : Literal where
  neg := false
  digits := Nat.toDigits 10 n
  isDigit _ hc := Nat.isDigit_of_mem_toDigits (by decide) (by decide) hc
  ne_nil := Nat.toDigits_ne_nil

theorem Literal.value_ofNat (n : Nat) : (Literal.ofNat n).value = n := by
  simp [Literal.value, Literal.ofNat, signed]

/-- The digits of a number are read as the number. -/
theorem stoi_toDigits (n : Nat) : stoi (Nat.toDigits 10 n) = if n < 2 ^ 31 then some (n : Int) else none := by
  have hread : stoi (Nat.toDigits 10 n) = _ := stoi_literal (.ofNat n)
  rw [hread, Literal.value_ofNat]
  by_cases h : n < 2 ^ 31
  · rw [if_pos h, if_pos (by omega)]
  · rw [if_neg h, if_neg (by omega)]

end Salam.CString
