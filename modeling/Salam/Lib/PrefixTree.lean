import Mathlib.Logic.Relation
import Salam.Lib.PrefixMask

/-!
# Prefix trees with links

The nodes of a prefix tree by their addresses: each has a prefix (a key and a number of leading bits), a parent and up
to two kids. `Shape` says what the links have to look like.

* `shape_addKid`, `shape_addAbove`, `shape_splice`: adding a kid, adding a node above a kid and taking a node with at
  most one kid out keep the shape.
* `Shape.above_root`: every node is below the root, and starts with the prefixes of what is above it
  (`Shape.above_agree`); `Shape.kid_unique`: at most one kid of a node is a prefix of a key.
-/

namespace Salam

/-- The nodes of a prefix tree. -/
structure PrefixTree (w : Nat) where
  live : Nat → Prop
  key : Nat → BitVec w
  len : Nat → Nat
  parent : Nat → Option Nat
  kid : Nat → Bool → Option Nat

namespace PrefixTree

variable {w : Nat}

/-- A kid knows its parent and its prefix is longer; two kids differ in the bit after the prefix of their parent. -/
structure Shape (s : PrefixTree w) : Prop where
  root : s.live 0 ∧ s.len 0 = 0 ∧ s.parent 0 = none
  kid : ∀ a i b, s.live a → s.kid a i = some b →
    s.live b ∧ s.parent b = some a ∧ s.len a < s.len b ∧ Agree (s.len a) (s.key a) (s.key b)
  parent : ∀ a, s.live a → a ≠ 0 → ∃ p i, s.live p ∧ s.parent a = some p ∧ s.kid p i = some a
  fork : ∀ a b c, s.live a → s.kid a false = some b → s.kid a true = some c →
    (s.key b).getMsbD (s.len a) ≠ (s.key c).getMsbD (s.len a)
  first : ∀ a, s.live a → s.kid a false = none → s.kid a true = none

/-- A new kid `c` of `a`. -/
def addKid (s : PrefixTree w) (a : Nat) (i : Bool) (c : Nat) (key : BitVec w) (len : Nat) : PrefixTree w where
  live x := x = c ∨ s.live x
  key x := if x = c then key else s.key x
  len x := if x = c then len else s.len x
  parent x := if x = c then some a else s.parent x
  kid x j := if x = c then none else if x = a ∧ j = i then some c else s.kid x j

/-- A new node `c` between `a` and its kid `b`. -/
def addAbove (s : PrefixTree w) (a : Nat) (i : Bool) (b c : Nat) (key : BitVec w) (len : Nat) : PrefixTree w where
  live x := x = c ∨ s.live x
  key x := if x = c then key else s.key x
  len x := if x = c then len else s.len x
  parent x := if x = c then some a else if x = b then some c else s.parent x
  kid x j := if x = c then if j = false then some b else none else if x = a ∧ j = i then some c else s.kid x j

/-- Take `a`, a kid of `p`, out; its own kid, if any, takes its place. -/
def splice (s : PrefixTree w) (p : Nat) (i : Bool) (a : Nat) : PrefixTree w where
  live x := x ≠ a ∧ s.live x
  key := s.key
  len := s.len
  parent x := if s.kid a false = some x then some p else s.parent x
  kid x j :=
    if x = p then
      if s.kid a false = none ∧ i = false then if j = false then s.kid p true else none
      else if j = i then s.kid a false else s.kid p j
    else s.kid x j

section Shape

variable {s : PrefixTree w} {a b c : Nat} {i j : Bool} {key x : BitVec w} {len : Nat}

theorem Shape.kid_inj (h : Shape s) (ha : s.live a) (hi : s.kid a i = some b) (hj : s.kid a j = some b) : i = j := by
  have hne : ¬ (s.kid a false = some b ∧ s.kid a true = some b) := fun hb => h.fork a b b ha hb.1 hb.2 rfl
  cases i <;> cases j <;> simp_all

theorem Shape.kid_parent_inj (h : Shape s) {a' : Nat} (ha : s.live a) (ha' : s.live a') (hi : s.kid a i = some b)
    (hj : s.kid a' j = some b) : a = a' := by
  have hp := (h.kid a i b ha hi).2.1
  have hp' := (h.kid a' j b ha' hj).2.1
  exact Option.some.inj (hp.symm.trans hp')

theorem Shape.kid_ne (h : Shape s) (ha : s.live a) (hi : s.kid a i = some b) : b ≠ a := by
  have hlen := (h.kid a i b ha hi).2.2.1
  rintro rfl
  omega

theorem Shape.kid_ne_zero (h : Shape s) (ha : s.live a) (hi : s.kid a i = some b) : b ≠ 0 := by
  have hlen := (h.kid a i b ha hi).2.2.1
  have h0 := h.root.2.1
  rintro rfl
  omega

/-! ## Adding a kid -/

theorem shape_addKid (h : Shape s) (ha : s.live a) (hi : s.kid a i = none) (hc : ¬ s.live c) (hlen : s.len a < len)
    (hag : Agree (s.len a) (s.key a) key)
    (hfork : i = true → ∃ b, s.kid a false = some b ∧ (s.key b).getMsbD (s.len a) ≠ key.getMsbD (s.len a)) :
    Shape (s.addKid a i c key len) := by
  have hac : a ≠ c := by
    rintro rfl
    exact hc ha
  have hold : ∀ x, s.live x → x ≠ c := by
    rintro x hx rfl
    exact hc hx
  constructor <;> simp only [addKid]
  · have h0 : (0 : Nat) ≠ c := hold 0 h.root.1
    simp only [if_neg h0]
    exact ⟨.inr h.root.1, h.root.2⟩
  · intro x j b hx hb
    by_cases hxc : x = c
    · rw [if_pos hxc] at hb
      cases hb
    · have hx : s.live x := hx.resolve_left hxc
      rw [if_neg hxc] at hb
      by_cases hxa : x = a ∧ j = i
      · rw [if_pos hxa] at hb
        obtain ⟨rfl, rfl⟩ := hxa
        cases hb
        simp only [if_true, if_neg hac]
        exact ⟨.inl trivial, trivial, hlen, hag⟩
      · rw [if_neg hxa] at hb
        obtain ⟨h₁, h₂⟩ := h.kid x j b hx hb
        simp only [if_neg hxc, if_neg (hold b h₁)]
        exact ⟨.inr h₁, h₂⟩
  · intro x hx hx0
    by_cases hxc : x = c
    · subst hxc
      exact ⟨a, i, .inr ha, by simp, by simp [hac]⟩
    · obtain ⟨p, j, h₁, h₂, h₃⟩ := h.parent x (hx.resolve_left hxc) hx0
      refine ⟨p, j, .inr h₁, by rw [if_neg hxc, h₂], ?_⟩
      rw [if_neg (hold p h₁), if_neg, h₃]
      rintro ⟨rfl, rfl⟩
      rw [hi] at h₃
      cases h₃
  · intro x b d hx hb hd
    by_cases hxc : x = c
    · rw [if_pos hxc] at hb
      cases hb
    · have hx : s.live x := hx.resolve_left hxc
      rw [if_neg hxc] at hb hd
      by_cases hxa : x = a
      · subst hxa
        cases i with
        | false =>
          rw [if_neg (by simp), h.first x hx hi] at hd
          cases hd
        | true =>
          rw [if_neg (by simp)] at hb
          rw [if_pos (by simp)] at hd
          cases hd
          obtain ⟨b', hb', hne⟩ := hfork rfl
          cases hb'.symm.trans hb
          have hbc : b ≠ c := hold b (h.kid x false b hx hb).1
          simpa only [if_true, if_neg hac, if_neg hbc] using hne
      · rw [if_neg (by simp [hxa])] at hb hd
        have hbc : b ≠ c := hold b (h.kid x false b hx hb).1
        have hdc : d ≠ c := hold d (h.kid x true d hx hd).1
        simpa only [if_neg hxc, if_neg hbc, if_neg hdc] using h.fork x b d hx hb hd
  · intro x hx hx0
    by_cases hxc : x = c
    · rw [if_pos hxc]
    · rw [if_neg hxc] at hx0 ⊢
      by_cases hxa : x = a ∧ false = i
      · rw [if_pos hxa] at hx0
        cases hx0
      · rw [if_neg hxa] at hx0
        have h1 := h.first x (hx.resolve_left hxc) hx0
        rw [if_neg, h1]
        rintro ⟨rfl, rfl⟩
        obtain ⟨b, hb, -⟩ := hfork rfl
        rw [hx0] at hb
        cases hb

/-! ## Adding a node above a kid -/

theorem shape_addAbove (h : Shape s) (ha : s.live a) (hi : s.kid a i = some b) (hc : ¬ s.live c) (hlen : s.len a < len)
    (hlen' : len < s.len b) (hag : Agree len key (s.key b)) : Shape (s.addAbove a i b c key len) := by
  obtain ⟨hb, hpb, hab, hagb⟩ := h.kid a i b ha hi
  have hagk : Agree (s.len a) (s.key a) key := hagb.trans (hag.mono hlen.le).symm
  have hbit : key.getMsbD (s.len a) = (s.key b).getMsbD (s.len a) := hag _ hlen
  have hold : ∀ x, s.live x → x ≠ c := by
    rintro x hx rfl
    exact hc hx
  have hac := hold a ha
  have hbc := hold b hb
  constructor <;> simp only [addAbove]
  · have h0 : (0 : Nat) ≠ c := hold 0 h.root.1
    simp only [if_neg h0, if_neg (h.kid_ne_zero ha hi).symm]
    exact ⟨.inr h.root.1, h.root.2⟩
  · intro x j d hx hd
    by_cases hxc : x = c
    · rw [if_pos hxc] at hd
      split at hd
      · cases hd
        simp only [if_neg hbc, if_pos hxc, if_true]
        exact ⟨.inr hb, by rw [hxc], hlen', hag⟩
      · cases hd
    · have hx : s.live x := hx.resolve_left hxc
      rw [if_neg hxc] at hd
      by_cases hxa : x = a ∧ j = i
      · rw [if_pos hxa] at hd
        obtain ⟨rfl, rfl⟩ := hxa
        cases hd
        simp only [if_true, if_neg hac]
        exact ⟨.inl trivial, trivial, hlen, hagk⟩
      · rw [if_neg hxa] at hd
        obtain ⟨h₁, h₂⟩ := h.kid x j d hx hd
        have hdb : d ≠ b := by
          rintro rfl
          cases h.kid_parent_inj hx ha hd hi
          exact hxa ⟨rfl, h.kid_inj hx hd hi⟩
        simp only [if_neg hxc, if_neg (hold d h₁), if_neg hdb]
        exact ⟨.inr h₁, h₂⟩
  · intro x hx hx0
    by_cases hxc : x = c
    · subst hxc
      exact ⟨a, i, .inr ha, by simp, by simp [hac]⟩
    · by_cases hxb : x = b
      · subst hxb
        exact ⟨c, false, .inl rfl, by simp [hxc], by simp⟩
      · obtain ⟨p, j, h₁, h₂, h₃⟩ := h.parent x (hx.resolve_left hxc) hx0
        refine ⟨p, j, .inr h₁, by rw [if_neg hxc, if_neg hxb, h₂], ?_⟩
        rw [if_neg (hold p h₁), if_neg, h₃]
        rintro ⟨rfl, rfl⟩
        exact hxb (Option.some.inj (h₃.symm.trans hi))
  · intro x d e hx hd he
    by_cases hxc : x = c
    · rw [if_pos hxc, if_neg (by simp)] at he
      cases he
    · have hx : s.live x := hx.resolve_left hxc
      rw [if_neg hxc] at hd he
      -- the kid of `x` before, with the same next bit as its kid now
      have hkid : ∀ j d, (if x = a ∧ j = i then some c else s.kid x j) = some d →
          ∃ d', s.kid x j = some d' ∧
            (if d = c then key else s.key d).getMsbD (s.len x) = (s.key d').getMsbD (s.len x) := by
        intro j d hd
        by_cases hxa : x = a ∧ j = i
        · rw [if_pos hxa] at hd
          exact ⟨b, by rw [hxa.1, hxa.2, hi], by rw [if_pos (Option.some.inj hd).symm, hxa.1, hbit]⟩
        · rw [if_neg hxa] at hd
          exact ⟨d, hd, by rw [if_neg (hold d (h.kid x j d hx hd).1)]⟩
      obtain ⟨d', hd', hbd⟩ := hkid false d hd
      obtain ⟨e', he', hbe⟩ := hkid true e he
      simp only [if_neg hxc, hbd, hbe]
      exact h.fork x d' e' hx hd' he'
  · intro x hx hx0
    by_cases hxc : x = c
    · rw [if_pos hxc, if_neg (by simp)]
    · rw [if_neg hxc] at hx0 ⊢
      by_cases hxa : x = a ∧ false = i
      · rw [if_pos hxa] at hx0
        cases hx0
      · rw [if_neg hxa] at hx0
        have h1 := h.first x (hx.resolve_left hxc) hx0
        rw [if_neg, h1]
        rintro ⟨rfl, rfl⟩
        rw [hi] at h1
        cases h1

/-! ## Taking a node out -/

theorem splice_kid_self (p : Nat) (j : Bool) : (s.splice p i a).kid p j =
    if s.kid a false = none ∧ i = false then if j = false then s.kid p true else none
    else if j = i then s.kid a false else s.kid p j := if_pos rfl

/-- What the kids of the parent are after a node was taken out. -/
theorem splice_kid_cases {p : Nat} (hp : s.kid p i = some a) (h : Shape s) (hlive : s.live p)
    (hd : (s.splice p i a).kid p j = some b) :
    s.kid a false = some b ∧ j = i ∨ ∃ k, s.kid p k = some b ∧ b ≠ a ∧ (s.kid a false = none ∨ k = j) := by
  have hne : ∀ {k}, s.kid p k = some b → k ≠ i → b ≠ a := by
    rintro k hk hki rfl
    exact hki (h.kid_inj hlive hk hp)
  simp only [splice, if_true] at hd
  split at hd
  · rename_i hcase
    split at hd
    · exact .inr ⟨true, hd, hne hd (by simp [hcase.2]), .inl hcase.1⟩
    · cases hd
  · split at hd
    · exact .inl ⟨hd, ‹_›⟩
    · exact .inr ⟨j, hd, hne hd ‹_›, .inr rfl⟩

theorem shape_splice {p : Nat} (h : Shape s) (hlive : s.live p) (hp : s.kid p i = some a) (ha : s.kid a true = none) :
    Shape (s.splice p i a) := by
  obtain ⟨hla, hpa, hlena, haga⟩ := h.kid p i a hlive hp
  have hap := h.kid_ne hlive hp
  -- the kid of `a` starts with the prefix of `p` and has the same bit after it as `a`
  have hkid : ∀ k, s.kid a false = some k → s.live k ∧ k ≠ a ∧ s.len p < s.len k ∧
      Agree (s.len p) (s.key p) (s.key k) ∧ (s.key a).getMsbD (s.len p) = (s.key k).getMsbD (s.len p) := by
    intro k hk
    obtain ⟨h₁, -, h₃, h₄⟩ := h.kid a false k hla hk
    exact ⟨h₁, h.kid_ne hla hk, hlena.trans h₃, haga.trans (h₄.mono hlena.le), h₄ _ hlena⟩
  have hother : ∀ x j, x ≠ p → (s.splice p i a).kid x j = s.kid x j := fun x j hx => by simp only [splice, if_neg hx]
  -- a kid other than `a` and its kid keeps its parent
  have hparent : ∀ x j b, s.live x → x ≠ a → s.kid x j = some b → (s.splice p i a).parent b = some x := by
    intro x j b hx hxa hb
    simp only [splice]
    rw [if_neg, (h.kid x j b hx hb).2.1]
    intro hk
    exact hxa (h.kid_parent_inj hx hla hb hk)
  constructor
  · simp only [splice]
    rw [if_neg]
    · exact ⟨⟨(h.kid_ne_zero hlive hp).symm, h.root.1⟩, h.root.2⟩
    · intro hk
      exact h.kid_ne_zero hla hk rfl
  · rintro x j b ⟨hxa, hx⟩ hb
    by_cases hxp : x = p
    · subst hxp
      rcases splice_kid_cases hp h hx hb with ⟨hk, rfl⟩ | ⟨k, hk, hba, -⟩
      · obtain ⟨h₁, h₂, h₃, h₄, -⟩ := hkid b hk
        exact ⟨⟨h₂, h₁⟩, by simp [splice, hk], h₃, h₄⟩
      · obtain ⟨h₁, -, h₃⟩ := h.kid x k b hx hk
        exact ⟨⟨hba, h₁⟩, hparent x k b hx hxa hk, h₃⟩
    · rw [hother x j hxp] at hb
      obtain ⟨h₁, -, h₃⟩ := h.kid x j b hx hb
      refine ⟨⟨?_, h₁⟩, hparent x j b hx hxa hb, h₃⟩
      rintro rfl
      exact hxp (h.kid_parent_inj hx hlive hb hp)
  · rintro x ⟨hxa, hx⟩ hx0
    by_cases hk : s.kid a false = some x
    · refine ⟨p, i, ⟨hap.symm, hlive⟩, by simp [splice, hk], ?_⟩
      simp [splice, hk]
    · obtain ⟨q, j, h₁, h₂, h₃⟩ := h.parent x hx hx0
      have hqa : q ≠ a := by
        rintro rfl
        cases j with
        | false => exact hk h₃
        | true =>
          rw [ha] at h₃
          cases h₃
      have hpar : (s.splice p i a).parent x = some q := by simp [splice, hk, h₂]
      by_cases hqp : q = p
      · subst hqp
        have hji : j ≠ i := by
          rintro rfl
          exact hxa (Option.some.inj (h₃.symm.trans hp))
        by_cases hcase : s.kid a false = none ∧ i = false
        · have hj : j = true := by
            cases j with
            | false => exact absurd hcase.2.symm hji
            | true => rfl
          exact ⟨q, false, ⟨hqa, h₁⟩, hpar, by simp [splice, hcase, ← hj, h₃]⟩
        · exact ⟨q, j, ⟨hqa, h₁⟩, hpar, by simp [splice, hcase, hji, h₃]⟩
      · exact ⟨q, j, ⟨hqa, h₁⟩, hpar, by rw [hother q j hqp, h₃]⟩
  · rintro x d e ⟨hxa, hx⟩ hd he
    by_cases hxp : x = p
    · subst hxp
      by_cases hcase : s.kid a false = none ∧ i = false
      · simp [splice, hcase] at he
      · simp only [splice, if_true, if_neg hcase] at hd he ⊢
        cases i with
        | false =>
          rw [← (hkid d hd).2.2.2.2]
          exact h.fork x a e hx hp he
        | true =>
          rw [← (hkid e he).2.2.2.2]
          exact h.fork x d a hx hd hp
    · rw [hother x _ hxp] at hd he
      exact h.fork x d e hx hd he
  · rintro x ⟨hxa, hx⟩ hx0
    by_cases hxp : x = p
    · subst hxp
      by_cases hcase : s.kid a false = none ∧ i = false
      · simp [splice, hcase]
      · simp only [splice, if_true, if_neg hcase] at hx0 ⊢
        cases i with
        | false =>
          exact absurd ⟨hx0, rfl⟩ hcase
        | true =>
          rw [h.first x hx hx0] at hp
          cases hp
    · rw [hother x _ hxp] at hx0 ⊢
      exact h.first x hx hx0

/-! ## Above and below -/

/-- `b` is `a` or below it. -/
def Above (s : PrefixTree w) : Nat → Nat → Prop := Relation.ReflTransGen fun a b => ∃ i, s.kid a i = some b

theorem Shape.above_agree (h : Shape s) (ha : s.live a) (hab : s.Above a b) :
    s.live b ∧ s.len a ≤ s.len b ∧ Agree (s.len a) (s.key a) (s.key b) := by
  induction hab with
  | refl => exact ⟨ha, le_refl _, Agree.refl _ _⟩
  | tail _ hbc ih =>
    obtain ⟨h₁, h₂, h₃⟩ := ih
    obtain ⟨i, hi⟩ := hbc
    obtain ⟨h₁', -, h₂', h₃'⟩ := h.kid _ i _ h₁ hi
    exact ⟨h₁', h₂.trans h₂'.le, h₃.trans (h₃'.mono h₂)⟩

/-- **Every node is below the root.** -/
theorem Shape.above_root (h : Shape s) (hb : s.live b) : s.Above 0 b := by
  induction hn : s.len b using Nat.strong_induction_on generalizing b with
  | _ n ih =>
    by_cases hb0 : b = 0
    · rw [hb0]
      exact .refl
    · obtain ⟨p, i, h₁, -, h₃⟩ := h.parent b hb hb0
      have hlt := (h.kid p i b h₁ h₃).2.2.1
      exact (ih (s.len p) (by omega) h₁ rfl).tail ⟨i, h₃⟩

/-- What is below a node and is not it is below one of its kids. -/
theorem Above.kid_of_ne (hab : s.Above a b) (hne : b ≠ a) : ∃ i c, s.kid a i = some c ∧ s.Above c b := by
  rcases Relation.ReflTransGen.cases_head hab with rfl | ⟨c, ⟨i, hi⟩, hcb⟩
  · exact absurd rfl hne
  · exact ⟨i, c, hi, hcb⟩

/-- At most one kid of a node is a prefix of a key. -/
theorem Shape.kid_unique (h : Shape s) (ha : s.live a) (hi : s.kid a i = some b) (hj : s.kid a j = some c)
    (hb : Agree (s.len b) (s.key b) x) (hc : Agree (s.len c) (s.key c) x) : i = j := by
  have hlenb := (h.kid a i b ha hi).2.2.1
  have hlenc := (h.kid a j c ha hj).2.2.1
  have hbit : (s.key b).getMsbD (s.len a) = (s.key c).getMsbD (s.len a) := (hb _ hlenb).trans (hc _ hlenc).symm
  cases i <;> cases j
  · rfl
  · exact absurd hbit (h.fork a b c ha hi hj)
  · exact absurd hbit.symm (h.fork a c b ha hj hi)
  · rfl

end Shape

end PrefixTree

end Salam
