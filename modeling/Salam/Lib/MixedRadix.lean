import Mathlib.Data.Finset.Prod
import Mathlib.Data.Finset.Card
import Mathlib.Data.Finset.Range
import Mathlib.Algebra.Order.Group.Nat

/-!
# Mixed radix

The places of a number from the lowest, each with its radix and, where it is fixed, the digit that is to be there.

* `card_mod_div`: a number below a product is its lowest digit and the rest.
* `card_fits`: how many numbers have the fixed digits.
-/

namespace Salam.MixedRadix

structure Place where
  radix : Nat
  digit : Option Nat

/-- The numbers that the places have room for. -/
def size : List Place → Nat
  | [] => 1
  | p :: ps => p.radix * size ps

/-- The product of the radices that are not fixed. -/
def free : List Place → Nat
  | [] => 1
  | ⟨radix, none⟩ :: ps => radix * free ps
  | ⟨_, some _⟩ :: ps => free ps

def Place.Fits (p : Place) (d : Nat) : Prop := ∀ e ∈ p.digit, d = e

instance (p : Place) : DecidablePred p.Fits := fun d => inferInstanceAs (Decidable (∀ e ∈ p.digit, d = e))

/-- The number has the digits that are fixed. -/
def Fits : List Place → Nat → Prop
  | [], _ => True
  | p :: ps, n => p.Fits (n % p.radix) ∧ Fits ps (n / p.radix)

instance decidableFits : (ps : List Place) → DecidablePred (Fits ps)
  | [], _ => inferInstanceAs (Decidable True)
  | p :: ps, n => @instDecidableAnd _ _ _ (decidableFits ps (n / p.radix))

theorem mod_div_of_lt {r d : Nat} (hd : d < r) (n : Nat) : (d + r * n) % r = d ∧ (d + r * n) / r = n := by
  constructor
  · rw [Nat.add_mul_mod_self_left, Nat.mod_eq_of_lt hd]
  · rw [Nat.add_mul_div_left _ _ (Nat.zero_lt_of_lt hd), Nat.div_eq_of_lt hd, Nat.zero_add]

/-- **The lowest digit and the rest.** -/
theorem card_mod_div (r s : Nat) (P Q : Nat → Prop) [DecidablePred P] [DecidablePred Q] :
    ((Finset.range (r * s)).filter fun n => P (n % r) ∧ Q (n / r)).card =
      ((Finset.range r).filter P).card * ((Finset.range s).filter Q).card := by
  rw [← Finset.card_product]
  refine Finset.card_nbij' (fun n => (n % r, n / r)) (fun x => x.1 + r * x.2) ?_ ?_ ?_ ?_
  · intro n hn
    simp only [Finset.coe_filter, Finset.mem_range, Set.mem_ofPred_eq] at hn
    have hpos : 0 < r := Nat.pos_of_mul_pos_right (Nat.zero_lt_of_lt hn.1)
    simp only [Finset.coe_product, Finset.coe_filter, Finset.mem_range, Set.mem_prod, Set.mem_ofPred_eq]
    exact ⟨⟨Nat.mod_lt n hpos, hn.2.1⟩, Nat.div_lt_of_lt_mul hn.1, hn.2.2⟩
  · intro x hx
    simp only [Finset.coe_product, Finset.coe_filter, Finset.mem_range, Set.mem_prod, Set.mem_ofPred_eq] at hx
    simp only [Finset.coe_filter, Finset.mem_range, Set.mem_ofPred_eq]
    obtain ⟨hmod, hdiv⟩ := mod_div_of_lt hx.1.1 x.2
    have hmul : r * (x.2 + 1) ≤ r * s := Nat.mul_le_mul_left r hx.2.1
    rw [Nat.mul_add, Nat.mul_one] at hmul
    rw [hmod, hdiv]
    exact ⟨by omega, hx.1.2, hx.2.2⟩
  · intro n _
    exact Nat.mod_add_div n r
  · intro x hx
    simp only [Finset.coe_product, Finset.coe_filter, Finset.mem_range, Set.mem_prod, Set.mem_ofPred_eq] at hx
    obtain ⟨hmod, hdiv⟩ := mod_div_of_lt hx.1.1 x.2
    exact Prod.ext hmod hdiv

theorem card_place (p : Place) (h : ∀ d ∈ p.digit, d < p.radix) :
    ((Finset.range p.radix).filter p.Fits).card = (p.digit.elim p.radix fun _ => 1) := by
  obtain ⟨radix, digit⟩ := p
  cases digit with
  | none =>
    rw [Finset.filter_true_of_mem fun d _ e he => by cases he]
    exact Finset.card_range radix
  | some d =>
    have hone : (Finset.range radix).filter (Place.Fits ⟨radix, some d⟩) = {d} := by
      ext e
      simp only [Finset.mem_filter, Finset.mem_range, Finset.mem_singleton, Place.Fits, Option.mem_def,
        Option.some.injEq, forall_eq']
      exact and_iff_right_of_imp fun he => he ▸ h d rfl
    rw [hone]
    rfl

/-- **How many numbers have the fixed digits**: each combination of the other ones once. -/
theorem card_fits (ps : List Place) (h : ∀ p ∈ ps, ∀ d ∈ p.digit, d < p.radix) :
    ((Finset.range (size ps)).filter (Fits ps)).card = free ps := by
  induction ps with
  | nil => rfl
  | cons p ps ih =>
    have hrest := ih fun q hq => h q (List.mem_cons_of_mem p hq)
    have hsplit := card_mod_div p.radix (size ps) p.Fits (Fits ps)
    rw [card_place p (h p List.mem_cons_self), hrest] at hsplit
    obtain ⟨radix, digit⟩ := p
    cases digit with
    | none => exact hsplit
    | some d =>
      rw [Option.elim_some, Nat.one_mul] at hsplit
      exact hsplit

end Salam.MixedRadix
