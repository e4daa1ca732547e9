import Mathlib.Data.List.MinMax
import Salam.Base.TrieShape
import Salam.Lib.System

/-!
# Runs of a trie

What each call does to the prefixes that are in the trie, and what holds after any sequence of calls.

* `lookupFrom_spec`: a look-up ends at the shortest prefix that matches.
* `insert_spec`, `remove_spec`: what insertion and removal do to the nodes and the values.
* `trie_refines_map`: a trie is a map from prefixes to values.
-/

namespace Salam.Base.Trie

variable {w : Nat} {V : Type}

/-- A node without a value has two kids, but for the root and the nodes of `E`. -/
def Inner (t : Trie w V) (s : PrefixTree w) (E : List Nat) : Prop :=
  ∀ x, s.live x → x ≠ 0 → x ∉ E → t.valueAt x = none → s.kid x true ≠ none

/-! ## Looking a key up -/

section Lookup

variable {t : Trie w V} {s : PrefixTree w} {D : List Nat} {a b : Nat} {key : BitVec w}

theorem matchingKid_spec (h : Rep t s D) (hsh : s.Shape) (ha : s.live a) (i : Bool) (key : BitVec w) :
    ∃ r, t.matchingKid (s.kid a i) key = .ok r ∧ ∀ k, r = some k ↔ s.kid a i = some k ∧
    Agree (s.len k) (s.key k) key := by
  cases hk : s.kid a i with
  | none => exact ⟨none, rfl, by simp⟩
  | some k =>
    obtain ⟨n, -, hnode, hs⟩ := h.node_of_live (hsh.kid a i k ha hk).1
    refine ⟨if n.matchesKey key then some k else none, by simp only [matchingKid, hnode]; rfl, fun k' => ?_⟩
    have hm : n.matchesKey key = true ↔ Agree (s.len k) (s.key k) key := by
      rw [hs.prefixed.matches_iff, hs.len, hs.key]
    rw [Option.ite_none_right_eq_some, hm, and_comm]
    exact and_congr_right fun hkk => by rw [Option.some.inj hkk]

/-- **A look-up ends at the shortest prefix that matches.** -/
theorem lookupFrom_spec (key : BitVec w) (h : Rep t s D) (hsh : s.Shape) :
    ∀ (fuel a : Nat), s.live a → Agree (s.len a) (s.key a) key →
    w + 1 ≤ s.len a + fuel → ∃ r, t.lookupFrom key fuel a = .ok r ∧
      (∀ b, r = some b → s.live b ∧ t.valueAt b ≠ none ∧ Agree (s.len b) (s.key b) key) ∧
      ∀ c, s.Above a c → t.valueAt c ≠ none → Agree (s.len c) (s.key c) key → ∃ b, r = some b ∧ s.len b ≤ s.len c := by
  intro fuel
  induction fuel with
  | zero =>
    intro a ha _ hfuel
    obtain ⟨n, -, -, hs⟩ := h.node_of_live ha
    have := hs.prefixed.len_le
    rw [hs.len] at hfuel
    omega
  | succ fuel ih =>
    intro a ha hag hfuel
    obtain ⟨n, hn, hnode, hs⟩ := h.node_of_live ha
    have hval : t.valueAt a = n.value := by simp [valueAt, hn]
    simp only [lookupFrom, hnode, bind, Except.bind]
    by_cases hv : n.value.isSome
    · refine ⟨some a, by rw [if_pos hv]; rfl, ?_, ?_⟩
      · rintro b hb
        cases hb
        exact ⟨ha, by rw [hval]; exact Option.isSome_iff_ne_none.mp hv, hag⟩
      · intro c hac _ _
        exact ⟨a, rfl, (hsh.above_agree ha hac).2.1⟩
    · rw [if_neg hv]
      have hnone : t.valueAt a = none := by
        rw [hval]
        simpa using hv
      -- the answer of a matching kid is the answer of the node
      have hkid : ∀ i k, s.kid a i = some k → Agree (s.len k) (s.key k) key →
          ∃ r, t.lookupFrom key fuel k = .ok r ∧
            (∀ b, r = some b → s.live b ∧ t.valueAt b ≠ none ∧ Agree (s.len b) (s.key b) key) ∧
            ∀ c, s.Above a c → t.valueAt c ≠ none → Agree (s.len c) (s.key c) key →
              ∃ b, r = some b ∧ s.len b ≤ s.len c := by
        intro i k hk hagk
        obtain ⟨hlk, -, hlenk, -⟩ := hsh.kid a i k ha hk
        obtain ⟨r, hr, hsome, hall⟩ := ih k hlk hagk (by omega)
        refine ⟨r, hr, hsome, fun c hac hvc hagc => ?_⟩
        have hne : c ≠ a := by
          rintro rfl
          exact hvc hnone
        obtain ⟨j, k', hk', hkc⟩ := hac.kid_of_ne hne
        obtain ⟨-, hlen', hag'⟩ := hsh.above_agree (hsh.kid a j k' ha hk').1 hkc
        have hji := hsh.kid_unique ha hk' hk (hag'.trans (hagc.mono hlen')) hagk
        subst hji
        cases hk'.symm.trans hk
        exact hall c hkc hvc hagc
      obtain ⟨r₀, hr₀, hm₀⟩ := matchingKid_spec h hsh ha false key
      obtain ⟨r₁, hr₁, hm₁⟩ := matchingKid_spec h hsh ha true key
      rw [hs.kid] at hr₀ hr₁
      simp only [pure, Except.pure, hr₀]
      cases r₀ with
      | some k =>
        obtain ⟨hk, hagk⟩ := (hm₀ k).mp rfl
        exact hkid false k hk hagk
      | none =>
        simp only [hr₁]
        cases r₁ with
        | some k =>
          obtain ⟨hk, hagk⟩ := (hm₁ k).mp rfl
          exact hkid true k hk hagk
        | none =>
          refine ⟨none, rfl, by simp, fun c hac hvc hagc => ?_⟩
          have hne : c ≠ a := by
            rintro rfl
            exact hvc hnone
          obtain ⟨j, k', hk', hkc⟩ := hac.kid_of_ne hne
          obtain ⟨-, hlen', hag'⟩ := hsh.above_agree (hsh.kid a j k' ha hk').1 hkc
          have hagk' := hag'.trans (hagc.mono hlen')
          cases j with
          | false => exact absurd ((hm₀ k').mpr ⟨hk', hagk'⟩) (by simp)
          | true => exact absurd ((hm₁ k').mpr ⟨hk', hagk'⟩) (by simp)

end Lookup

/-! ## Insertion -/

section Insert

variable {t : Trie w V} {s : PrefixTree w} {D : List Nat} {a b K : Nat} {key : BitVec w} {val : Option V}

theorem goesAfter_spec (h : Rep t s D) (hsh : s.Shape) (ha : s.live a) (i : Bool) (key : BitVec w) (K : Nat) :
    ∃ r, t.goesAfter (s.kid a i) key (prefixMask K) = .ok r ∧
      ∀ k, r = some k ↔ s.kid a i = some k ∧ Agree (s.len k) (s.key k) key ∧ s.len k ≤ K := by
  cases hk : s.kid a i with
  | none => exact ⟨none, rfl, by simp⟩
  | some k =>
    obtain ⟨n, -, hnode, hs⟩ := h.node_of_live (hsh.kid a i k ha hk).1
    refine ⟨if n.matchesKey key ∧ n.mask &&& prefixMask K = n.mask then some k else none,
      by simp only [goesAfter, hnode]; rfl, fun k' => ?_⟩
    have hm : n.matchesKey key = true ∧ n.mask &&& prefixMask K = n.mask ↔
        Agree (s.len k) (s.key k) key ∧ s.len k ≤ K := by
      rw [hs.prefixed.matches_iff, hs.prefixed.within_iff, hs.len, hs.key]
    rw [Option.ite_none_right_eq_some, hm, and_comm]
    exact and_congr_right fun hkk => by rw [Option.some.inj hkk]

/-- No kid of `a` is a prefix of what is inserted. -/
def Last (s : PrefixTree w) (a : Nat) (key : BitVec w) (K : Nat) : Prop :=
  ∀ i k, s.kid a i = some k → Agree (s.len k) (s.key k) key → K < s.len k

theorem walk_spec (key : BitVec w) (K : Nat) (h : Rep t s D) (hsh : s.Shape) :
    ∀ (fuel a : Nat), s.live a → Agree (s.len a) (s.key a) key →
    s.len a ≤ K → w + 1 ≤ s.len a + fuel → ∃ b, t.walk key (prefixMask K) fuel a = .ok b ∧ s.live b ∧
      Agree (s.len b) (s.key b) key ∧ s.len b ≤ K ∧ Last s b key K := by
  intro fuel
  induction fuel with
  | zero =>
    intro a ha _ _ hfuel
    obtain ⟨n, -, -, hs⟩ := h.node_of_live ha
    have := hs.prefixed.len_le
    rw [hs.len] at hfuel
    omega
  | succ fuel ih =>
    intro a ha hag hK hfuel
    obtain ⟨n, -, hnode, hs⟩ := h.node_of_live ha
    obtain ⟨r₀, hr₀, hm₀⟩ := goesAfter_spec h hsh ha false key K
    obtain ⟨r₁, hr₁, hm₁⟩ := goesAfter_spec h hsh ha true key K
    rw [hs.kid] at hr₀ hr₁
    simp only [walk, hnode, bind, Except.bind, hr₀]
    cases r₀ with
    | some k =>
      obtain ⟨hk, hagk, hKk⟩ := (hm₀ k).mp rfl
      obtain ⟨hlk, -, hlenk, -⟩ := hsh.kid a false k ha hk
      exact ih k hlk hagk hKk (by omega)
    | none =>
      simp only [hr₁]
      cases r₁ with
      | some k =>
        obtain ⟨hk, hagk, hKk⟩ := (hm₁ k).mp rfl
        obtain ⟨hlk, -, hlenk, -⟩ := hsh.kid a true k ha hk
        exact ih k hlk hagk hKk (by omega)
      | none =>
        refine ⟨a, rfl, ha, hag, hK, fun i k hk hagk => ?_⟩
        by_contra hle
        cases i with
        | false => exact absurd ((hm₀ k).mpr ⟨hk, hagk, by omega⟩) (by simp)
        | true => exact absurd ((hm₁ k).mpr ⟨hk, hagk, by omega⟩) (by simp)

/-- The walk down a leg ends at the first bit that does not match, or when the bits run out. -/
theorem walkLeg_spec {kidKey : BitVec w} (hK : K ≤ w) (hw : 0 < w) : ∀ (fuel n : Nat), n ≤ K → w + 1 ≤ n + fuel →
    Agree n key kidKey → ∃ m, walkLeg key kidKey (prefixMask K) fuel (prefixMask n) = .ok (prefixMask m) ∧ n ≤ m ∧
      m ≤ K ∧ Agree m key kidKey ∧ (m < K → key.getMsbD m ≠ kidKey.getMsbD m) := by
  intro fuel
  induction fuel with
  | zero =>
    intro n hn hfuel
    omega
  | succ fuel ih =>
    intro n hn hfuel hag
    simp only [walkLeg, extendMask_prefixMask hw]
    by_cases hstop : key &&& prefixMask (n + 1) ≠ kidKey &&& prefixMask (n + 1) ∨
      (prefixMask n : BitVec w) = prefixMask K
    · rw [if_pos hstop]
      refine ⟨n, rfl, le_refl n, hn, hag, fun hlt hbit => ?_⟩
      rcases hstop with hne | heq
      · exact hne (and_prefixMask_eq_iff.mpr (agree_succ.mpr ⟨hag, hbit⟩))
      · have := (prefixMask_inj (hn.trans hK) hK).mp heq
        omega
    · rw [if_neg hstop]
      simp only [not_or, not_not] at hstop
      have hne : n ≠ K := by
        rintro rfl
        exact hstop.2 rfl
      obtain ⟨m, hm, h₁, h₂⟩ := ih (n + 1) (by omega) (by omega) (and_prefixMask_eq_iff.mp hstop.1)
      exact ⟨m, hm, by omega, h₂⟩

/-- What an insertion does: a node that had no value gets it, and every other node keeps its prefix and its value. -/
structure Inserted (t : Trie w V) (s : PrefixTree w) (t' : Trie w V) (s' : PrefixTree w) (h : Nat) (key : BitVec w)
    (K : Nat) (val : Option V) : Prop where
  rep : Rep t' s' []
  shape : s'.Shape
  inner : Inner t' s' []
  live : s'.live h
  key : s'.key h = key
  len : s'.len h = K
  value : t'.valueAt h = val
  noValue : t.valueAt h = none
  others : ∀ x, x ≠ h → t'.valueAt x = t.valueAt x
  keeps : ∀ x, s.live x → s'.live x ∧ s'.key x = s.key x ∧ s'.len x = s.len x

theorem Rep.valueAt_next (h : Rep t s []) : t.valueAt t.next = none := by
  rw [valueAt, h.dead _ h.next_not_live List.not_mem_nil]
  rfl

/-- The key that is inserted goes on after the prefix of `a`. -/
structure Extends (s : PrefixTree w) (a : Nat) (key : BitVec w) (K : Nat) : Prop where
  live : s.live a
  le : K ≤ w
  lt : s.len a < K
  agree : Agree (s.len a) (s.key a) key
  masked : key &&& prefixMask K = key

theorem addKid_inserted (h : Rep t s []) (hsh : s.Shape) (hE : Extends s a key K) {i : Bool} (hval : val ≠ none)
    (hinner : Inner t s (if i then [a] else [])) (hi : s.kid a i = none)
    (hfork : i = true → ∃ b, s.kid a false = some b ∧ (s.key b).getMsbD (s.len a) ≠ key.getMsbD (s.len a)) :
    ∃ t' s', t.addKid a i key (prefixMask K) val = .ok (t', t.next) ∧ Inserted t s t' s' t.next key K val := by
  obtain ⟨t', ht', hrep, hvals⟩ := addKid_spec h hE.live i key hE.le val
  rw [hE.masked] at hrep
  refine ⟨t', _, ht', hrep, PrefixTree.shape_addKid hsh hE.live hi h.next_not_live hE.lt hE.agree hfork, ?_,
    .inl rfl, ?_, ?_, ?_, h.valueAt_next, ?_, ?_⟩
  · intro x hx hx0 _ hnone
    rw [hvals] at hnone
    by_cases hxc : x = t.next
    · rw [if_pos hxc] at hnone
      exact absurd hnone hval
    · rw [if_neg hxc] at hnone
      simp only [PrefixTree.addKid, if_neg hxc]
      split
      · simp
      · rename_i hxa
        refine hinner x (hx.resolve_left hxc) hx0 ?_ hnone
        cases i with
        | false => simp
        | true => simpa using hxa
  · simp [PrefixTree.addKid]
  · simp [PrefixTree.addKid]
  · rw [hvals, if_pos rfl]
  · intro x hx
    rw [hvals, if_neg hx]
  · intro x hx
    have hxc := h.ne_next hx
    exact ⟨.inr hx, by simp [PrefixTree.addKid, hxc], by simp [PrefixTree.addKid, hxc]⟩

theorem insertLeg_spec (h : Rep t s []) (hsh : s.Shape) (hinner : Inner t s []) (hw : 0 < w) (hE : Extends s a key K)
    (hlast : Last s a key K) (hval : val ≠ none) (i : Bool)
    (hfork : i = true → ∃ b, s.kid a false = some b ∧ (s.key b).getMsbD (s.len a) ≠ key.getMsbD (s.len a)) :
    (∃ k, s.kid a i = some k ∧ (s.key k).getMsbD (s.len a) ≠ key.getMsbD (s.len a) ∧
      t.insertLeg a key (prefixMask K) val i (prefixMask (s.len a)) = .ok (prefixMask (s.len a), none)) ∨
    ∃ c t' s' x, t.insertLeg a key (prefixMask K) val i (prefixMask (s.len a)) = .ok (c, some (t', x)) ∧
      Inserted t s t' s' x key K val := by
  obtain ⟨n, -, hnode, hs⟩ := h.node_of_live hE.live
  have hmask : n.mask = prefixMask (s.len a) := by rw [hs.prefixed.mask, hs.len]
  simp only [insertLeg, hnode, bind, Except.bind, ← hs.kid]
  cases hk : s.kid a i with
  | none =>
    obtain ⟨t', s', ht', hins⟩ := addKid_inserted h hsh hE hval
      (fun x hx h0 _ hn => hinner x hx h0 (by simp) hn) hk hfork
    exact .inr ⟨_, t', s', t.next, by simp only [ht']; rfl, hins⟩
  | some k =>
    obtain ⟨hlk, -, hlenk, hagk⟩ := hsh.kid a i k hE.live hk
    obtain ⟨kn, -, hknode, hks⟩ := h.node_of_live hlk
    obtain ⟨m, hm, h₁, h₂, hagm, hstop⟩ := walkLeg_spec hE.le hw (rounds w) (s.len a) hE.lt.le
      (by unfold rounds; omega) (hE.agree.symm.trans hagk)
    rw [hks.key] at hm
    simp only [hknode, hm, hmask]
    rcases Nat.eq_or_lt_of_le h₁ with rfl | hlt
    · rw [if_pos rfl]
      exact .inl ⟨k, rfl, (hstop hE.lt).symm, rfl⟩
    · -- the walk stops before the end of the prefix of the kid
      have hmk : m < s.len k := by
        by_contra hle
        have := hlast i k hk (hagm.mono (by omega)).symm
        omega
      rw [if_neg (by rw [prefixMask_inj (by have := hE.le; omega) (by have := hE.le; have := hE.lt; omega)]; omega)]
      have hmw : m ≤ w := h₂.trans hE.le
      obtain ⟨t₁, ht₁, hrep₁, hvals₁⟩ := addAbove_spec h hE.live hlk (hsh.kid_ne hE.live hk).symm i key hmw
      have hkeym : Agree m (key &&& prefixMask m) (s.key k) := (and_prefixMask_agree m key).trans hagm
      have hsh₁ := PrefixTree.shape_addAbove hsh hE.live hk h.next_not_live hlt hmk hkeym
      have hinner₁ : Inner t₁ (s.addAbove a i k t.next (key &&& prefixMask m) m) [t.next] := by
        intro x hx hx0 hxc hnone
        have hxc : x ≠ t.next := by simpa using hxc
        rw [hvals₁, if_neg hxc] at hnone
        simp only [PrefixTree.addAbove, if_neg hxc]
        split
        · simp
        · exact hinner x (hx.resolve_left hxc) hx0 (by simp) hnone
      simp only [ht₁]
      rcases Nat.eq_or_lt_of_le h₂ with rfl | hmK
      · -- the bits ran out: the value goes into the new node
        obtain ⟨t₂, ht₂, hrep₂, hvals₂⟩ := setValue_spec hrep₁ (.inl rfl) val
        refine .inr ⟨_, t₂, _, t.next, by simp only [ht₂]; rfl, hrep₂, hsh₁, ?_, .inl rfl, ?_, ?_, ?_,
          h.valueAt_next, ?_, ?_⟩
        · intro x hx hx0 _ hnone
          rw [hvals₂] at hnone
          split at hnone
          · exact absurd hnone hval
          · rename_i hxc
            exact hinner₁ x hx hx0 (by simpa using hxc) hnone
        · simp [PrefixTree.addAbove, hE.masked]
        · simp [PrefixTree.addAbove]
        · rw [hvals₂, if_pos rfl]
        · intro x hx
          rw [hvals₂, if_neg hx, hvals₁, if_neg hx]
        · intro x hx
          exact ⟨.inr hx, by simp [PrefixTree.addAbove, h.ne_next hx], by simp [PrefixTree.addAbove, h.ne_next hx]⟩
      · -- the rest of the bits get a node of their own
        rw [if_neg (by rw [prefixMask_inj hmw hE.le]; omega)]
        have hE₁ : Extends (s.addAbove a i k t.next (key &&& prefixMask m) m) t.next key K := by
          refine ⟨.inl rfl, hE.le, ?_, ?_, hE.masked⟩
          · simpa [PrefixTree.addAbove] using hmK
          · simpa [PrefixTree.addAbove] using and_prefixMask_agree m key
        have hfork₁ : ∃ b, (s.addAbove a i k t.next (key &&& prefixMask m) m).kid t.next false = some b ∧
            ((s.addAbove a i k t.next (key &&& prefixMask m) m).key b).getMsbD
              ((s.addAbove a i k t.next (key &&& prefixMask m) m).len t.next) ≠
            key.getMsbD ((s.addAbove a i k t.next (key &&& prefixMask m) m).len t.next) := by
          refine ⟨k, by simp [PrefixTree.addAbove], ?_⟩
          simpa [PrefixTree.addAbove, h.ne_next hlk] using (hstop hmK).symm
        obtain ⟨t₂, s₂, ht₂, hins⟩ := addKid_inserted (i := true) hrep₁ hsh₁ hE₁ hval hinner₁
          (by simp [PrefixTree.addAbove]) fun _ => hfork₁
        have hvals : ∀ x, t₁.valueAt x = t.valueAt x := by
          intro x
          rw [hvals₁]
          split
          · rename_i hx
            rw [hx, h.valueAt_next]
          · rfl
        refine .inr ⟨_, t₂, s₂, t₁.next, by simp only [ht₂]; rfl, hins.rep, hins.shape, hins.inner, hins.live,
          hins.key, hins.len, hins.value, ?_, ?_, ?_⟩
        · rw [← hvals]
          exact hins.noValue
        · intro x hx
          rw [← hvals]
          exact hins.others x hx
        · intro x hx
          obtain ⟨h₃, h₄, h₅⟩ := hins.keeps x (.inr hx)
          exact ⟨h₃, by simpa [PrefixTree.addAbove, h.ne_next hx] using h₄,
            by simpa [PrefixTree.addAbove, h.ne_next hx] using h₅⟩

/-- **An insertion of a prefix that is not in the trie ends well**, and does nothing but that. -/
theorem insert_spec (h : Rep t s []) (hsh : s.Shape) (hinner : Inner t s []) {width : Nat} (hpos : 0 < width)
    (hle : width ≤ w)
    (hval : val ≠ none) (habsent : ∀ x, s.live x → s.len x = width → Agree width (s.key x) key → t.valueAt x = none) :
    ∃ t' s' x, t.insert key width val = .ok (t', x) ∧ Inserted t s t' s' x (key &&& prefixMask width) width val := by
  have hw : 0 < w := by omega
  have hv : val.isNone = false := by
    cases val with
    | none => exact absurd rfl hval
    | some v => rfl
  obtain ⟨h0, hlen0, -⟩ := hsh.root
  obtain ⟨a, hwalk, ha, hag, hK, hlast⟩ := walk_spec (key &&& prefixMask width) width h hsh (rounds w) 0 h0
    (by rw [hlen0]; exact agree_zero _ _) (by omega) (by unfold rounds; omega)
  obtain ⟨n, hn, hnode, hs⟩ := h.node_of_live ha
  simp only [insert, hv, widthMask_eq, bind, Except.bind, Bool.false_eq_true, if_false, pure, Except.pure, hwalk, hnode]
  have hmask : n.mask = prefixMask (s.len a) := by rw [hs.prefixed.mask, hs.len]
  rw [hmask]
  rcases Nat.eq_or_lt_of_le hK with hKa | hlt
  · -- the node is there already
    have hnone : t.valueAt a = none := habsent a ha hKa ((hag.mono hKa.ge).trans (and_prefixMask_agree width key))
    have hnv : n.value = none := by simpa [valueAt, hn] using hnone
    obtain ⟨t', ht', hrep, hvals⟩ := setValue_spec h ha val
    refine ⟨t', s, a, by simp [hKa, hnv, ht'], hrep, hsh, ?_, ha, ?_, hKa, ?_, hnone, ?_, fun x hx => ⟨hx, rfl, rfl⟩⟩
    · intro x hx hx0 _ hxn
      rw [hvals] at hxn
      split at hxn
      · exact absurd hxn hval
      · exact hinner x hx hx0 (by simp) hxn
    · have hp := hs.prefixed.masked
      rw [← hs.key, ← hs.len, hKa] at hp
      rw [← hp, and_prefixMask_eq_iff]
      exact (hag.mono hKa.ge).trans (and_prefixMask_agree width key)
    · rw [hvals, if_pos rfl]
    · intro x hx
      rw [hvals, if_neg hx]
  · have hE : Extends s a (key &&& prefixMask width) width := ⟨ha, hle, hlt, hag, and_prefixMask_and width key⟩
    rw [if_neg (by rw [prefixMask_inj (by omega) hle]; omega)]
    rcases insertLeg_spec h hsh hinner hw hE hlast hval false (by simp) with
      ⟨k, hk, hne, hleg⟩ | ⟨c, t', s', x, hleg, hins⟩
    · rw [hleg]
      rcases insertLeg_spec h hsh hinner hw hE hlast hval true (fun _ => ⟨k, hk, hne⟩) with
        ⟨k', hk', hne', -⟩ | ⟨c, t', s', x, hleg', hins⟩
      · -- one of the kids has the next bit of the key
        have hfork := hsh.fork a k k' ha hk hk'
        revert hne hne' hfork
        cases (s.key k).getMsbD (s.len a) <;> cases (s.key k').getMsbD (s.len a) <;>
          cases (key &&& prefixMask width).getMsbD (s.len a) <;> simp
      · exact ⟨t', s', x, by simp only [hleg'], hins⟩
    · exact ⟨t', s', x, by simp only [hleg], hins⟩

end Insert

/-! ## Removal -/

section Remove

variable {t : Trie w V} {s : PrefixTree w} {D : List Nat} {a p : Nat} {i : Bool}

/-- What a removal does: the value of the node is gone, and every other node that stays keeps its prefix and its
value. -/
structure Removed (t : Trie w V) (s : PrefixTree w) (t' : Trie w V) (s' : PrefixTree w) (a : Nat) (D : List Nat) :
    Prop where
  rep : Rep t' s' D
  shape : s'.Shape
  inner : Inner t' s' []
  next : t'.next = t.next
  value : t'.valueAt a = none
  others : ∀ x, s.live x → x ≠ a → t.valueAt x ≠ none → t'.valueAt x = t.valueAt x
  keeps : ∀ x, s'.live x → s.live x ∧ s'.key x = s.key x ∧ s'.len x = s.len x ∧ (x ≠ a → t'.valueAt x = t.valueAt x)

/-- A node without a second kid is taken out; its parent is not removed with it. -/
theorem removeFrom_last (h : Rep t s D) (hsh : s.Shape) (hinner : Inner t s [a]) (hp : s.live p)
    (hi : s.kid p i = some a)
    (ha : s.kid a true = none)
    (hstop : p ≠ 0 → t.valueAt p = none → (s.splice p i a).kid p true ≠ none) (fuel : Nat) :
    ∃ t', t.removeFrom (fuel + 1) a = .ok (t', t.valueAt a) ∧ Removed t s t' (s.splice p i a) a D := by
  obtain ⟨hla, -, -⟩ := hsh.kid p i a hp hi
  have hap := hsh.kid_ne hp hi
  obtain ⟨n, hn, hnode, hs⟩ := h.node_of_live hla
  have hval : t.valueAt a = n.value := by simp [valueAt, hn]
  obtain ⟨t₁, ht₁, hrep₁, hnext₁, hvals₁⟩ := unlink_spec h hsh hp hi hn
  have hsh₁ := PrefixTree.shape_splice hsh hp hi ha
  have hp₁ : (s.splice p i a).live p := ⟨hap.symm, hp⟩
  obtain ⟨pn, hpn, hpnode, hps⟩ := hrep₁.node_of_live hp₁
  have hcond : ¬ (pn.kids true = none ∧ pn.value.isNone = true ∧ pn.parent ≠ none) := by
    rintro ⟨hkid, hv, hpar⟩
    refine hstop ?_ ?_ (by rw [hps.kid, hkid])
    · rintro rfl
      rw [← hps.parent, hsh₁.root.2.2] at hpar
      exact hpar rfl
    · rw [← hvals₁]
      simpa [valueAt, hpn] using hv
  have hdead : ¬ (s.splice p i a).live a := fun hl => hl.1 rfl
  obtain ⟨hrep₂, hvals₂⟩ := delete_spec hrep₁ hdead
  have hvals : ∀ x, x ≠ a → (t₁.delete a).valueAt x = t.valueAt x := by
    intro x hx
    rw [hvals₂, if_neg hx, hvals₁]
  refine ⟨t₁.delete a, ?_, hrep₂, hsh₁, ?_, hnext₁, by rw [hvals₂, if_pos rfl], fun x _ hx _ => hvals x hx,
    fun x hx => ⟨hx.2, rfl, rfl, hvals x⟩⟩
  · simp only [removeFrom, hnode, bind, Except.bind, ← hs.kid, ha, ne_eq, not_true, if_false, ht₁, hpnode,
      if_neg hcond, hval]
    rfl
  · rintro x ⟨hxa, hx⟩ hx0 _ hnone
    rw [hvals x hxa] at hnone
    by_cases hxp : x = p
    · subst hxp
      exact hstop hx0 hnone
    · simp only [PrefixTree.splice, if_neg hxp]
      exact hinner x hx hx0 (by simpa using hxa) hnone

/-- **A removal ends well**, returns the value, and does nothing to the other values. -/
theorem remove_spec (h : Rep t s []) (hsh : s.Shape) (hinner : Inner t s []) (ha : s.live a) (ha0 : a ≠ 0)
    (hval : t.valueAt a ≠ none) : ∃ t' s', t.remove a = .ok (t', t.valueAt a) ∧ Removed t s t' s' a [] := by
  obtain ⟨n, hn, hnode, hs⟩ := h.node_of_live ha
  have hvn : t.valueAt a = n.value := by simp [valueAt, hn]
  by_cases hkid : s.kid a true = none
  · obtain ⟨p, i, hp, hpa, hi⟩ := hsh.parent a ha ha0
    have hap := hsh.kid_ne hp hi
    by_cases hstop : p ≠ 0 → t.valueAt p = none → (s.splice p i a).kid p true ≠ none
    · obtain ⟨t', ht', hrem⟩ := removeFrom_last h hsh (fun x hx h0 _ hnone => hinner x hx h0 (by simp) hnone) hp hi hkid
        hstop (w + 1)
      exact ⟨t', _, ht', hrem⟩
    · -- the parent goes too: it has one kid left, and its own parent loses none
      simp only [not_forall, not_not] at hstop
      obtain ⟨hp0, hpnone, hpkid⟩ := hstop
      obtain ⟨t₁, ht₁, hrep₁, hnext₁, hvals₁⟩ := unlink_spec h hsh hp hi hn
      have hsh₁ := PrefixTree.shape_splice hsh hp hi hkid
      have hp₁ : (s.splice p i a).live p := ⟨hap.symm, hp⟩
      obtain ⟨pn, hpn, hpnode, hps⟩ := hrep₁.node_of_live hp₁
      obtain ⟨q, j, hq₁, hqp, hj₁⟩ := hsh₁.parent p hp₁ hp0
      have hpq := hsh₁.kid_ne hq₁ hj₁
      have hcond : pn.kids true = none ∧ pn.value.isNone = true ∧ pn.parent ≠ none := by
        refine ⟨by rw [← hps.kid, hpkid], ?_, by rw [← hps.parent, hqp]; simp⟩
        rw [← hvals₁] at hpnone
        simpa [valueAt, hpn] using hpnone
      have hinner₁ : Inner t₁ (s.splice p i a) [p] := by
        rintro x ⟨hxa, hx⟩ hx0 hxp hnone
        rw [hvals₁] at hnone
        have hxp : x ≠ p := by simpa using hxp
        simp only [PrefixTree.splice, if_neg hxp]
        exact hinner x hx hx0 (by simp) hnone
      -- the kid of the parent that is left
      have hleft : (s.splice p i a).kid p false ≠ none := by
        have htrue := hinner p hp hp0 (by simp) hpnone
        have hfalse : s.kid p false ≠ none := fun hf => htrue (hsh.first p hp hf)
        simp only [PrefixTree.splice, if_true]
        split
        · exact htrue
        · rename_i hc
          split
          · rename_i hfi
            intro hk
            exact hc ⟨hk, hfi.symm⟩
          · exact hfalse
      have hstop₁ : q ≠ 0 → t₁.valueAt q = none → ((s.splice p i a).splice q j p).kid q true ≠ none := by
        intro hq0 hqnone
        have hqtrue := hinner₁ q hq₁ hq0 (by simpa using hpq.symm) hqnone
        rw [PrefixTree.splice_kid_self, if_neg (fun hc => hleft hc.1)]
        split
        · exact hleft
        · exact hqtrue
      obtain ⟨t₂, ht₂, hrem⟩ := removeFrom_last hrep₁ hsh₁ hinner₁ hq₁ hj₁ hpkid hstop₁ w
      have hdead : ¬ ((s.splice p i a).splice q j p).live a := fun hl => hl.2.1 rfl
      obtain ⟨hrep₃, hvals₃⟩ := delete_spec hrem.rep hdead
      refine ⟨t₂.delete a, _, ?_, hrep₃, hrem.shape, ?_, hrem.next.trans hnext₁, by rw [hvals₃, if_pos rfl], ?_, ?_⟩
      · rw [remove, rounds, removeFrom]
        simp only [hnode, bind, Except.bind, ← hs.kid, hkid, ne_eq, not_true, if_false, ht₁, hpnode, if_pos hcond,
          ht₂, hvn]
        rfl
      · intro x hx hx0 hxD hnone
        rw [hvals₃, if_neg hx.2.1] at hnone
        exact hrem.inner x hx hx0 hxD hnone
      · intro x hx hxa hv
        have hxp : x ≠ p := by
          rintro rfl
          exact hv hpnone
        rw [hvals₃, if_neg hxa, hrem.others x ⟨hxa, hx⟩ hxp (by rw [hvals₁]; exact hv), hvals₁]
      · intro x hx
        refine ⟨hx.2.2, rfl, rfl, fun hxa => ?_⟩
        rw [hvals₃, if_neg hxa, (hrem.keeps x hx).2.2.2 hx.1, hvals₁]
  · -- an inner node stays without its value
    obtain ⟨t', ht', hrep, hvals⟩ := setValue_spec h ha none
    have hvs : n.value.isNone = false := by
      rw [hvn] at hval
      cases hv : n.value with
      | none => exact absurd hv hval
      | some v => rfl
    have hset : t' = t.set a { n with value := none } := by
      simp only [setValue, hnode, bind, Except.bind, pure, Except.pure, Except.ok.injEq] at ht'
      exact ht'.symm
    refine ⟨t', s, ?_, hrep, hsh, ?_, by rw [hset]; rfl, by rw [hvals, if_pos rfl], ?_, ?_⟩
    · rw [remove, rounds, removeFrom]
      simp only [hnode, bind, Except.bind, ← hs.kid, ne_eq, hkid, not_false_iff, if_true, hvs,
        Bool.false_eq_true, if_false, hset, hvn]
      rfl
    · intro x hx hx0 _ hnone
      by_cases hxa : x = a
      · subst hxa
        exact hkid
      · rw [hvals, if_neg hxa] at hnone
        exact hinner x hx hx0 (by simp) hnone
    · intro x _ hxa _
      rw [hvals, if_neg hxa]
    · intro x hx
      exact ⟨hx, rfl, rfl, fun hxa => by rw [hvals, if_neg hxa]⟩

end Remove

/-! ## Runs -/

/-- A prefix that is in the trie: the key it was inserted with, its width, its value and its handle. -/
structure Entry (w : Nat) (V : Type) where
  handle : Nat
  key : BitVec w
  width : Nat
  val : V

/-- The top bits of a key are those of the prefix. -/
def Entry.Covers (e : Entry w V) (key : BitVec w) : Prop := Agree e.width e.key key

instance (e : Entry w V) (key : BitVec w) : Decidable (e.Covers key) := inferInstanceAs (Decidable (Agree _ _ _))

/-- The shortest of the prefixes that match a key. -/
def shortest (es : List (Entry w V)) (key : BitVec w) : Option (Entry w V) :=
  (es.filter fun e => e.Covers key).argmin (·.width)

/-- The prefix is not there. -/
def Absent (es : List (Entry w V)) (key : BitVec w) (width : Nat) : Prop :=
  ∀ e ∈ es, ¬ (e.width = width ∧ e.Covers key)

instance (es : List (Entry w V)) (key : BitVec w) (width : Nat) : Decidable (Absent es key width) :=
  inferInstanceAs (Decidable (∀ e ∈ es, _))

/-- The trie, and the prefixes that were inserted and not removed. -/
structure State (w : Nat) (V : Type) where
  trie : Trie w V
  entries : List (Entry w V)

/-- The calls. -/
inductive Op (w : Nat) (V : Type)
  | insert (key : BitVec w) (width : Nat) (val : V)
  | remove (handle : Nat)
  | removeKey (key : BitVec w)

/-- One call: what is inserted is not there yet, and what is removed is there. -/
def step (s : State w V) : Op w V → Option (State w V)
  | .insert key width val =>
    if 1 ≤ width ∧ width ≤ w ∧ Absent s.entries key width then
      (s.trie.insert key width (some val)).toOption.map fun r =>
        { trie := r.1, entries := { handle := r.2, key, width, val } :: s.entries }
    else none
  | .remove handle =>
    if s.entries.any (·.handle = handle) then
      (s.trie.remove handle).toOption.map fun r =>
        { trie := r.1, entries := s.entries.filter (·.handle ≠ handle) }
    else none
  | .removeKey key =>
    (s.trie.removeKey key).toOption.map fun r =>
      { trie := r.1
        entries :=
          match shortest s.entries key with
          | some e => s.entries.filter (·.handle ≠ e.handle)
          | none => s.entries }

/-- A trie from its construction on. -/
def system (w : Nat) (V : Type) : System (State w V) (Op w V) where
  init s := s = { trie := empty, entries := [] }
  step := step

/-- The entries are the nodes with a value. -/
structure Inv (s : State w V) (p : PrefixTree w) : Prop where
  rep : Rep s.trie p []
  shape : p.Shape
  inner : Inner s.trie p []
  root : s.trie.valueAt 0 = none
  nodup : (s.entries.map (·.handle)).Nodup
  entry : ∀ e ∈ s.entries, p.live e.handle ∧ s.trie.valueAt e.handle = some e.val ∧ p.len e.handle = e.width ∧
    e.width ≤ w ∧ Agree e.width (p.key e.handle) e.key
  distinct : ∀ e ∈ s.entries, ∀ e' ∈ s.entries, e.width = e'.width → e.Covers e'.key → e = e'
  valued : ∀ x, s.trie.valueAt x ≠ none → ∃ e ∈ s.entries, e.handle = x

section Runs

variable {s s' : State w V} {p : PrefixTree w} {key : BitVec w}

theorem Rep.live_of_valueAt {t : Trie w V} (h : Rep t p []) {x : Nat} (hx : t.valueAt x ≠ none) : p.live x := by
  by_contra hl
  exact hx (by rw [valueAt, h.dead x hl List.not_mem_nil]; rfl)

theorem inv_init : Inv ({ trie := empty, entries := [] } : State w V)
    { live := fun x => x = 0, key := fun _ => 0, len := fun _ => 0, parent := fun _ => none, kid :=
      fun _ _ => none } := by
  have hz : (0 : BitVec w) = prefixMask 0 := prefixMask_zero.symm
  have hlen : (Node.new (0 : BitVec w) 0 (none : Option V)).len = 0 := by
    rw [Node.len, Node.new, hz, maskLen_prefixMask (Nat.zero_le w)]
  refine ⟨⟨?_, ?_, ?_⟩, ⟨⟨rfl, rfl, rfl⟩, ?_, ?_, ?_, ?_⟩, ?_, rfl, List.nodup_nil, by simp, by simp, ?_⟩
  · rintro x rfl
    refine ⟨Node.new 0 0 none, by simp [empty], ⟨by rw [hlen]; exact Nat.zero_le w, by rw [hlen, Node.new, hz], ?_⟩, ?_,
      hlen.symm, rfl, rfl⟩
    · simp [Node.new]
    · simp [Node.new]
  · intro x hx _
    have hx0 : x ≠ 0 := hx
    simp [empty, hx0]
  · rintro x rfl
    exact Nat.one_pos
  · intro a i b _ hb
    cases hb
  · intro a ha ha0
    exact absurd ha ha0
  · intro a b c _ hb
    cases hb
  · intro a _ _
    rfl
  · intro x hx hx0
    exact absurd hx hx0
  · intro x hx
    refine absurd ?_ hx
    by_cases hx0 : x = 0
    · simp [valueAt, empty, hx0, Node.new]
    · simp [valueAt, empty, hx0]

/-- Two entries of one width that cover a key are one. -/
theorem Inv.covers_inj (h : Inv s p) {e e' : Entry w V} (he : e ∈ s.entries) (he' : e' ∈ s.entries) (hc : e.Covers key)
    (hc' : e'.Covers key) (hw : e.width = e'.width) : e = e' := by
  apply h.distinct e he e' he' hw
  unfold Entry.Covers at hc hc' ⊢
  rw [← hw] at hc'
  exact hc.trans hc'.symm

/-- **A look-up finds the shortest prefix that matches.** -/
theorem lookupHandle_spec (h : Inv s p) (key : BitVec w) :
    s.trie.lookupHandle key = .ok ((shortest s.entries key).map (·.handle)) := by
  obtain ⟨r, hr, hsome, hall⟩ := lookupFrom_spec key h.rep h.shape (rounds w) 0 h.shape.root.1
    (by rw [h.shape.root.2.1]; exact agree_zero _ _) (by unfold rounds; omega)
  rw [lookupHandle, hr]
  congr 1
  have hcovers : ∀ e ∈ s.entries, e.Covers key ↔ Agree (p.len e.handle) (p.key e.handle) key := by
    intro e he
    obtain ⟨-, -, hlen, -, hag⟩ := h.entry e he
    rw [hlen]
    exact ⟨fun hc => hag.trans hc, fun hc => hag.symm.trans hc⟩
  cases hsh : shortest s.entries key with
  | none =>
    have hempty : s.entries.filter (fun e => e.Covers key) = [] := List.argmin_eq_none.mp hsh
    cases r with
    | none => rfl
    | some b =>
      obtain ⟨-, hv, hag⟩ := hsome b rfl
      obtain ⟨e, he, rfl⟩ := h.valued b hv
      have hmem : e ∈ s.entries.filter (fun e => e.Covers key) :=
        List.mem_filter.mpr ⟨he, decide_eq_true ((hcovers e he).mpr hag)⟩
      rw [hempty] at hmem
      cases hmem
  | some e =>
    obtain ⟨he, hc⟩ := List.mem_filter.mp (List.argmin_mem hsh)
    have hc := of_decide_eq_true hc
    obtain ⟨hl, hve, hlen, -, -⟩ := h.entry e he
    obtain ⟨b, rfl, hb⟩ := hall e.handle (h.shape.above_root hl) (by rw [hve]; simp) ((hcovers e he).mp hc)
    obtain ⟨-, hv, hag⟩ := hsome b rfl
    obtain ⟨e', he', rfl⟩ := h.valued b hv
    have hc' := (hcovers e' he').mpr hag
    have hle : e.width ≤ e'.width := List.le_of_mem_argmin (List.mem_filter.mpr ⟨he', decide_eq_true hc'⟩) hsh
    have hlen' := (h.entry e' he').2.2.1
    have heq := h.covers_inj he he' hc hc' (by omega)
    rw [heq]
    rfl

/-- A prefix that is not there can be inserted. -/
theorem insert_total (h : Inv s p) {width : Nat} (hpos : 1 ≤ width) (hle : width ≤ w)
    (habsent : Absent s.entries key width)
    (val : V) : ∃ t' p' x, s.trie.insert key width (some val) = .ok (t', x) ∧
      Inserted s.trie p t' p' x (key &&& prefixMask width) width (some val) := by
  refine insert_spec h.rep h.shape h.inner hpos hle (by simp) fun x hx hlen hag => ?_
  by_contra hv
  obtain ⟨e, he, rfl⟩ := h.valued x hv
  obtain ⟨-, -, hlen', -, hag'⟩ := h.entry e he
  have hw : e.width = width := by omega
  exact habsent e he ⟨hw, hag'.symm.trans (hag.mono (by omega))⟩

theorem remove_total (h : Inv s p) {e : Entry w V} (he : e ∈ s.entries) :
    ∃ t' p', s.trie.remove e.handle = .ok (t', some e.val) ∧ Removed s.trie p t' p' e.handle [] := by
  obtain ⟨hl, hv, -⟩ := h.entry e he
  have h0 : e.handle ≠ 0 := by
    intro h0
    rw [h0, h.root] at hv
    cases hv
  rw [← hv]
  exact remove_spec h.rep h.shape h.inner hl h0 (by rw [hv]; simp)

theorem inv_insert (h : Inv s p) {width : Nat} (hpos : 1 ≤ width) (hle : width ≤ w)
    (habsent : Absent s.entries key width)
    {val : V} {t' : Trie w V} {p' : PrefixTree w} {x : Nat}
    (hins : Inserted s.trie p t' p' x (key &&& prefixMask width) width (some val)) :
    Inv { trie := t', entries := { handle := x, key, width, val } :: s.entries } p' := by
  have hx : ∀ e ∈ s.entries, e.handle ≠ x := by
    rintro e he rfl
    have hv := (h.entry e he).2.1
    rw [hins.noValue] at hv
    cases hv
  have hx0 : x ≠ 0 := by
    rintro rfl
    have h1 := hins.len
    rw [hins.shape.root.2.1] at h1
    omega
  refine ⟨hins.rep, hins.shape, hins.inner, ?_, ?_, ?_, ?_, ?_⟩
  · rw [hins.others 0 hx0.symm, h.root]
  · rw [List.map_cons, List.nodup_cons]
    refine ⟨fun hmem => ?_, h.nodup⟩
    obtain ⟨e, he, heq⟩ := List.mem_map.mp hmem
    exact hx e he heq
  · intro e he
    rcases List.mem_cons.mp he with rfl | he
    · refine ⟨hins.live, hins.value, hins.len, hle, ?_⟩
      rw [hins.key]
      exact and_prefixMask_agree width key
    · obtain ⟨hl, hv, hlen, hw, hag⟩ := h.entry e he
      obtain ⟨hl', hkey', hlen'⟩ := hins.keeps _ hl
      exact ⟨hl', by rw [hins.others _ (hx e he), hv], hlen'.trans hlen, hw, by rw [hkey']; exact hag⟩
  · intro e he e' he' hw hc
    rcases List.mem_cons.mp he with rfl | he
    · rcases List.mem_cons.mp he' with rfl | he'
      · rfl
      · refine absurd ⟨hw.symm, ?_⟩ (habsent e' he')
        unfold Entry.Covers at hc ⊢
        rw [← hw]
        exact hc.symm
    · rcases List.mem_cons.mp he' with rfl | he'
      · exact absurd ⟨hw, hc⟩ (habsent e he)
      · exact h.distinct e he e' he' hw hc
  · intro y hy
    by_cases hyx : y = x
    · exact ⟨_, List.mem_cons_self, hyx.symm⟩
    · rw [hins.others y hyx] at hy
      obtain ⟨e, he, heq⟩ := h.valued y hy
      exact ⟨e, List.mem_cons_of_mem _ he, heq⟩

theorem inv_remove (h : Inv s p) {e : Entry w V} {t' : Trie w V} {p' : PrefixTree w}
    (hrem : Removed s.trie p t' p' e.handle []) :
      Inv { trie := t', entries := s.entries.filter (·.handle ≠ e.handle) } p' := by
  have hmem : ∀ e', e' ∈ s.entries.filter (·.handle ≠ e.handle) ↔ e' ∈ s.entries ∧ e'.handle ≠ e.handle := by
    intro e'
    simp
  have hval : ∀ e' ∈ s.entries, e'.handle ≠ e.handle → t'.valueAt e'.handle = some e'.val := by
    intro e' he' hne
    obtain ⟨hl, hv, -⟩ := h.entry e' he'
    rw [hrem.others _ hl hne (by rw [hv]; simp), hv]
  refine ⟨hrem.rep, hrem.shape, hrem.inner, ?_, ?_, ?_, ?_, ?_⟩
  · by_cases h0 : 0 = e.handle
    · rw [h0]
      exact hrem.value
    · rw [(hrem.keeps 0 hrem.shape.root.1).2.2.2 h0, h.root]
  · exact h.nodup.sublist ((List.filter_sublist).map _)
  · intro e' he'
    obtain ⟨he', hne⟩ := (hmem e').mp he'
    obtain ⟨-, -, hlen, hw, hag⟩ := h.entry e' he'
    have hv := hval e' he' hne
    have hl' : p'.live e'.handle := hrem.rep.live_of_valueAt (by rw [hv]; simp)
    obtain ⟨-, hkey', hlen', -⟩ := hrem.keeps _ hl'
    exact ⟨hl', hv, hlen'.trans hlen, hw, by rw [hkey']; exact hag⟩
  · intro e₁ h₁ e₂ h₂
    exact h.distinct e₁ ((hmem e₁).mp h₁).1 e₂ ((hmem e₂).mp h₂).1
  · intro x hx
    have hxe : x ≠ e.handle := by
      rintro rfl
      exact hx hrem.value
    obtain ⟨-, -, -, hkeep⟩ := hrem.keeps x (hrem.rep.live_of_valueAt hx)
    rw [hkeep hxe] at hx
    obtain ⟨e', he', rfl⟩ := h.valued x hx
    exact ⟨e', (hmem e').mpr ⟨he', hxe⟩, rfl⟩

theorem inv_step (h : Inv s p) {op : Op w V} (hstep : step s op = some s') : ∃ p', Inv s' p' := by
  cases op with
  | insert key width val =>
    simp only [step, Option.ite_none_right_eq_some, Option.map_eq_some_iff] at hstep
    obtain ⟨⟨hpos, hle, habsent⟩, r, hr, rfl⟩ := hstep
    obtain ⟨t', p', x, ht', hins⟩ := insert_total h hpos hle habsent val
    rw [ht'] at hr
    cases hr
    exact ⟨p', inv_insert h hpos hle habsent hins⟩
  | remove handle =>
    simp only [step, Option.ite_none_right_eq_some, Option.map_eq_some_iff] at hstep
    obtain ⟨hany, r, hr, rfl⟩ := hstep
    obtain ⟨e, he, heq⟩ := List.any_eq_true.mp hany
    have heq := of_decide_eq_true heq
    subst heq
    obtain ⟨t', p', ht', hrem⟩ := remove_total h he
    rw [ht'] at hr
    cases hr
    exact ⟨p', inv_remove h hrem⟩
  | removeKey key =>
    simp only [step, Option.map_eq_some_iff] at hstep
    obtain ⟨r, hr, rfl⟩ := hstep
    simp only [removeKey, lookupHandle_spec h key, bind, Except.bind] at hr
    cases hsh : shortest s.entries key with
    | none =>
      rw [hsh] at hr
      cases hr
      exact ⟨p, h⟩
    | some e =>
      rw [hsh] at hr
      have he : e ∈ s.entries := (List.mem_filter.mp (List.argmin_mem hsh)).1
      obtain ⟨t', p', ht', hrem⟩ := remove_total h he
      simp only [Option.map_some, ht'] at hr
      cases hr
      exact ⟨p', inv_remove h hrem⟩

theorem inv_reachable {s : State w V} (h : (system w V).Reachable s) : ∃ p, Inv s p := by
  refine System.invariantWhen (I := fun s => ∃ p, Inv s p) ?_ ?_ h
  · rintro s rfl
    exact ⟨_, inv_init⟩
  · rintro s op s' _ ⟨p, hp⟩ _ hs
    exact inv_step hp hs

/-- A node is reached from the root through the kids. -/
def Linked (t : Trie w V) : Nat → Nat → Prop :=
  Relation.ReflTransGen fun a b => ∃ n i, t.heap a = some n ∧ n.kids i = some b

theorem linked_of_above {t : Trie w V} (h : Rep t p []) (hsh : p.Shape) {a b : Nat} (ha : p.live a)
    (hab : p.Above a b) :
    Linked t a b := by
  induction hab with
  | refl => exact .refl
  | tail hab hbc ih =>
    obtain ⟨i, hi⟩ := hbc
    obtain ⟨n, hn, hs⟩ := h.live _ (hsh.above_agree ha hab).1
    exact ih.tail ⟨n, i, hn, by rw [← hs.kid, hi]⟩

/-- **A trie is a map from prefixes to values.** -/
theorem trie_refines_map {s : State w V} (h : (system w V).Reachable s) :
    (∀ key, s.trie.lookup key = .ok ((shortest s.entries key).map (·.val))) ∧
    (∀ key width val, 1 ≤ width → width ≤ w → Absent s.entries key width →
      ∃ t' x, s.trie.insert key width (some val) = .ok (t', x)) ∧
    (∀ e ∈ s.entries, ∃ t', s.trie.remove e.handle = .ok (t', some e.val)) ∧
    (∀ key, ∃ t', s.trie.removeKey key = .ok (t', (shortest s.entries key).map (·.val))) ∧
    (∀ e ∈ s.entries, Linked s.trie 0 e.handle ∧ ∃ n, s.trie.heap e.handle = some n ∧ n.value = some e.val ∧
      n.mask = prefixMask e.width ∧ n.key = e.key &&& prefixMask e.width) ∧
    (∀ a n, s.trie.heap a = some n → a ≠ 0 → n.value = none → n.kids false ≠ none ∧ n.kids true ≠ none) := by
  obtain ⟨p, hp⟩ := inv_reachable h
  refine ⟨?_, ?_, ?_, ?_, ?_, ?_⟩
  · intro key
    simp only [lookup, lookupHandle_spec hp key, bind, Except.bind]
    cases hsh : shortest s.entries key with
    | none => rfl
    | some e =>
      have he : e ∈ s.entries := (List.mem_filter.mp (List.argmin_mem hsh)).1
      obtain ⟨hl, hv, -⟩ := hp.entry e he
      obtain ⟨n, hn, hnode, -⟩ := hp.rep.node_of_live hl
      have hnv : n.value = some e.val := by simpa [valueAt, hn] using hv
      simp only [Option.map_some, hnode, hnv]
      rfl
  · intro key width val hpos hle habsent
    obtain ⟨t', -, x, ht', -⟩ := insert_total hp hpos hle habsent val
    exact ⟨t', x, ht'⟩
  · intro e he
    obtain ⟨t', -, ht', -⟩ := remove_total hp he
    exact ⟨t', ht'⟩
  · intro key
    simp only [removeKey, lookupHandle_spec hp key, bind, Except.bind]
    cases hsh : shortest s.entries key with
    | none => exact ⟨s.trie, rfl⟩
    | some e =>
      have he : e ∈ s.entries := (List.mem_filter.mp (List.argmin_mem hsh)).1
      obtain ⟨t', -, ht', -⟩ := remove_total hp he
      exact ⟨t', ht'⟩
  · intro e he
    obtain ⟨hl, hv, hlen, hw, hag⟩ := hp.entry e he
    refine ⟨linked_of_above hp.rep hp.shape hp.shape.root.1 (hp.shape.above_root hl), ?_⟩
    obtain ⟨n, hn, -, hs⟩ := hp.rep.node_of_live hl
    have hnlen : n.len = e.width := hs.len.symm.trans hlen
    refine ⟨n, hn, by simpa [valueAt, hn] using hv, by rw [hs.prefixed.mask, hnlen], ?_⟩
    have hmasked := hs.prefixed.masked
    rw [hnlen] at hmasked
    rw [← hmasked, and_prefixMask_eq_iff, ← hs.key]
    exact hag
  · intro a n hn ha0 hv
    have hl : p.live a := by
      by_contra hl
      rw [hp.rep.dead a hl List.not_mem_nil] at hn
      cases hn
    obtain ⟨n', hn', hs⟩ := hp.rep.live a hl
    cases hn.symm.trans hn'
    have htrue := hp.inner a hl ha0 (by simp) (by simp [valueAt, hn, hv])
    rw [← hs.kid]
    exact ⟨fun hf => htrue (hp.shape.first a hl hf), htrue⟩

/-- A trie of bytes: nested prefixes, a split, a removal that takes the inner node of the split out with it. -/
theorem trie_refines_map_bytes : ∃ s : State 8 Nat, ((system 8 Nat).Reachable s ∧ s.entries.length = 2) ∧
    s.trie.lookup 0xC1 = .ok ((shortest s.entries 0xC1).map (·.val)) := by
  obtain ⟨s, hs, hlen⟩ := System.reachable_of_replay (S := system 8 Nat) rfl
    [.insert 0xC0 4 1, .insert 0xC0 2 2, .insert 0x80 3 3, .removeKey 0x80] (fun s => s.entries.length = 2) (by decide)
  exact ⟨s, ⟨hs, hlen⟩, (trie_refines_map hs).1 0xC1⟩

end Runs

end Salam.Base.Trie
