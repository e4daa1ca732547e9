import Salam.Cache.Compressors

/-!
# The size that a compressor reports

`cover` takes bases as they come: a value that is near none of those before it is the next one. That is how `BaseDelta`
fills its dictionary.

* `compressValues_cover`: the dictionary and the size that `BaseDelta` comes to.
* `BaseDelta.size_law`: the size of a line is that of its deltas and one base, if one is enough, and that of the block
  if not.
* `uniform_iff`: `ZeroCompressor` finds the lines of zeros, `RepeatedQwordsCompressor` finds none.
-/

namespace Salam.Cache

open Dictionary (Err)

/-! ## Bases as they come -/

section Cover

variable {α : Type} {near : α → α → Bool} {bases values : List α} {b v z : α}

/-- The bases that the values need on top of those that there are; `near v b` says that `v` is near the base `b`. -/
def cover (near : α → α → Bool) (bases : List α) : List α → List α
  | [] => bases
  | v :: values => if bases.any (near v) then cover near bases values else cover near (bases ++ [v]) values

theorem length_le_cover (near : α → α → Bool) (bases values : List α) :
    bases.length ≤ (cover near bases values).length := by
  induction values generalizing bases with
  | nil => exact Nat.le_refl _
  | cons v values ih =>
    unfold cover
    split
    · exact ih bases
    · exact (Nat.le_trans (by simp) (ih (bases ++ [v])))

/-- No base is needed if every value is near one that there is. -/
theorem length_cover_le_iff : (cover near bases values).length ≤ bases.length ↔
    ∀ v ∈ values, bases.any (near v) = true := by
  induction values with
  | nil => simp [cover]
  | cons v values ih =>
    rw [List.forall_mem_cons, cover]
    split
    · rename_i hv
      simp only [ih, hv, true_and]
    · rename_i hv
      have hle := length_le_cover near (bases ++ [v]) values
      rw [List.length_append, List.length_singleton] at hle
      constructor
      · intro h
        omega
      · exact fun h => absurd h.1 hv

/-- **One more base is enough** if every value is near one that there is or near the first value that is near none of
them. -/
theorem length_cover_le_succ_iff (hrefl : ∀ v, near v v = true) : (cover near bases values).length ≤ bases.length + 1 ↔
    ∀ b, values.find? (fun v => ! bases.any (near v)) = some b →
    ∀ v ∈ values, (bases.any (near v) || near v b) = true := by
  induction values with
  | nil => simp [cover]
  | cons v values ih =>
    rw [cover, List.find?_cons]
    cases hv : bases.any (near v) with
    | true =>
      simp only [if_true, Bool.not_true, ih, List.forall_mem_cons, hv, Bool.true_or, true_and]
    | false =>
      have hnext : (cover near (bases ++ [v]) values).length ≤ (bases ++ [v]).length ↔ _ := length_cover_le_iff
      rw [List.length_append, List.length_singleton] at hnext
      simp only [Bool.false_eq_true, if_false, Bool.not_false, Option.some.injEq, forall_eq', hnext, List.any_append,
        List.any_cons, List.any_nil, Bool.or_false, List.forall_mem_cons, hv, hrefl, Bool.or_true, true_and]

end Cover

/-! ## Runs of `compressValues` -/

section Runs

variable {n size : Nat} {C : Compressor n size} {d d' : Dictionary n size} {comp comp' : CompData n}

/-- The constructor of `DictionaryCompressor`. -/
def Dictionary.new (n size : Nat) : Dictionary n size :=
  Dictionary.reset ⟨List.replicate size (toDictionaryEntry 0), 0, length_fresh n size, Nat.zero_le _⟩

/-- The entries that the dictionary has. -/
def Dictionary.entries (d : Dictionary n size) : List (DictionaryEntry n) := d.dictionary.take d.numEntries

theorem Dictionary.length_entries (d : Dictionary n size) : d.entries.length = d.numEntries := by
  rw [entries, List.length_take, d.length_eq, Nat.min_eq_left d.numEntries_le]

theorem entries_push {data : DictionaryEntry n} (h : d.push data = .ok d') : d'.entries = d.entries ++ [data] := by
  unfold Dictionary.push at h
  split at h
  · rename_i hlt
    cases h
    have hlen : d.numEntries < d.dictionary.length := by rwa [d.length_eq]
    rw [Dictionary.entries, Dictionary.entries, List.take_add_one, List.getElem?_set_self hlen,
      List.take_set_of_le (Nat.le_refl _)]
    rfl
  · cases h

theorem numEntries_push {data : DictionaryEntry n} (h : d.push data = .ok d') : d'.numEntries = d.numEntries + 1 := by
  rw [← d'.length_entries, entries_push h, List.length_append, d.length_entries, List.length_singleton]

theorem compressValues_cons {value : Value n} {values : List (Value n)}
    (h : C.compressValues comp d (value :: values) = .ok (comp', d')) :
    ∃ d₁, C.allocated d (C.bestPattern d (toDictionaryEntry value)) (toDictionaryEntry value) = .ok d₁ ∧
      C.compressValues (comp.addEntry (C.bestPattern d (toDictionaryEntry value))) d₁ values = .ok (comp', d') := by
  obtain ⟨⟨p, d₁⟩, hvalue, h⟩ := ok_of_bind h
  rw [Compressor.compressValue_eq] at hvalue
  cases hd : C.allocated d (C.bestPattern d (toDictionaryEntry value)) (toDictionaryEntry value) with
  | error e =>
    rw [hd] at hvalue
    cases hvalue
  | ok d₂ =>
    rw [hd] at hvalue
    cases hvalue
    exact ⟨d₁, rfl, h⟩

theorem getSizeBits_build {D : PatternDecl n} (hbits : D.template.numUnmatchedBits < 256)
    (hlen : D.metadata_length < 256)
    (bytes : DictionaryEntry n) (match_location : Int) :
    (D.build bytes match_location).getSizeBits = D.template.numUnmatchedBits + D.metadata_length := by
  simp only [Pattern.getSizeBits, PatternDecl.build, BitVec.toNat_ofNat]
  omega

theorem size_addEntry (comp : CompData n) (p : Pattern n) : (comp.addEntry p).size = comp.size + p.getSizeBits := rfl

/-- A factory with one pattern before its last. -/
theorem getPattern_one (F : Factory n) (head : PatternDecl n) (hF : F.heads = [head])
    (bytes dict_bytes : DictionaryEntry n)
    (match_location : Int) : F.getPattern bytes dict_bytes match_location =
      if head.template.isPattern bytes dict_bytes match_location = true then head.build bytes match_location
      else F.last.build bytes match_location := by
  rw [Factory.getPattern, hF]
  by_cases h : head.template.isPattern bytes dict_bytes match_location = true
  · rw [if_pos h, List.find?_cons, h]
  · rw [if_neg h, List.find?_cons, eq_false_of_ne_true h, List.find?_nil]

/-- The step of the search. -/
def better (F : Factory n) (bytes : DictionaryEntry n) (pattern : Pattern n) (e : DictionaryEntry n × Nat) :
    Pattern n :=
  if (F.getPattern bytes e.1 e.2).getSizeBits < pattern.getSizeBits then F.getPattern bytes e.1 e.2 else pattern

theorem bestPattern_eq_foldl (C : Compressor n size) (d : Dictionary n size) (bytes : DictionaryEntry n) :
    C.bestPattern d bytes =
      d.entries.zipIdx.foldl (better C.factory bytes) (C.factory.getPattern bytes (toDictionaryEntry 0) (-1)) := rfl

end Runs

/-! ## `BaseDelta` -/

namespace BaseDelta

section Bases

variable {n D size : Nat} {d d' : Dictionary n size} {comp comp' : CompData n} {bytes : DictionaryEntry n}

theorem getPattern_near {dict_bytes : DictionaryEntry n} (h : isValidDelta D bytes dict_bytes = true) (i : Nat) :
    (PatternFactory n D).getPattern bytes dict_bytes i = (PatternM n D).build bytes i := by
  rw [getPattern_one (PatternFactory n D) (PatternM n D) rfl, if_pos]
  simp only [PatternM, PatternClass.isPattern, h, Int.natCast_nonneg, decide_true, Bool.and_self]

theorem getPattern_far {dict_bytes : DictionaryEntry n} {match_location : Int}
    (h : match_location < 0 ∨ isValidDelta D bytes dict_bytes = false) :
    (PatternFactory n D).getPattern bytes dict_bytes match_location = (PatternX n D).build bytes match_location := by
  rw [getPattern_one (PatternFactory n D) (PatternM n D) rfl, if_neg]
  · rfl
  · simp only [PatternM, PatternClass.isPattern, Bool.and_eq_true, decide_eq_true_eq, not_and]
    rcases h with h | h
    · omega
    · simp [h]

section

variable (hn : 8 * n < 256) (hD : D < 8 * n)
include hn hD

theorem size_patternM (bytes : DictionaryEntry n) (match_location : Int) :
    ((PatternM n D).build bytes match_location).getSizeBits = 1 + D := by
  have h := getSizeBits_build (D := PatternM n D) (show D < 256 by omega)
    (show baseBits < 256 by decide) bytes match_location
  rw [h, Nat.add_comm]
  rfl

theorem size_patternX (bytes : DictionaryEntry n) (match_location : Int) :
    ((PatternX n D).build bytes match_location).getSizeBits = 8 * n + (1 + D) := by
  have hbits : baseBits = 1 := by decide
  exact getSizeBits_build (D := PatternX n D) hn (show baseBits + D < 256 by omega) bytes match_location

theorem foldl_patternM (l : List (DictionaryEntry n × Nat)) (match_location : Int) :
    l.foldl (better (PatternFactory n D) bytes) ((PatternM n D).build bytes match_location) =
      (PatternM n D).build bytes match_location := by
  induction l with
  | nil => rfl
  | cons e l ih =>
    have hkeep : better (PatternFactory n D) bytes ((PatternM n D).build bytes match_location) e =
        (PatternM n D).build bytes match_location := by
      refine if_neg (Nat.not_lt.mpr ?_)
      rw [size_patternM hn hD]
      cases hv : isValidDelta D bytes e.1 with
      | true => rw [getPattern_near hv, size_patternM hn hD]
      | false =>
        rw [getPattern_far (.inr hv), size_patternX hn hD]
        omega
    rw [List.foldl_cons, hkeep, ih]

theorem foldl_patternX (l : List (DictionaryEntry n × Nat)) :
    l.foldl (better (PatternFactory n D) bytes) ((PatternX n D).build bytes (-1)) =
      match l.find? fun e => isValidDelta D bytes e.1 with
      | some e => (PatternM n D).build bytes e.2
      | none => (PatternX n D).build bytes (-1) := by
  induction l with
  | nil => rfl
  | cons e l ih =>
    rw [List.foldl_cons, List.find?_cons]
    cases hv : isValidDelta D bytes e.1 with
    | true =>
      have hfound : better (PatternFactory n D) bytes ((PatternX n D).build bytes (-1)) e =
        (PatternM n D).build bytes e.2 := by
        rw [better, getPattern_near hv, size_patternM hn hD, size_patternX hn hD, if_pos (by omega)]
      rw [hfound, foldl_patternM hn hD]
    | false =>
      have hkeep : better (PatternFactory n D) bytes ((PatternX n D).build bytes (-1)) e =
        (PatternX n D).build bytes (-1) := by
        rw [better, getPattern_far (.inr hv), size_patternX hn hD, size_patternX hn hD, if_neg (Nat.lt_irrefl _)]
      rw [hkeep, ih]

/-- **What a value is given**: the delta to the first base that it is near, or if it is near none of them a base of its
own. -/
theorem bestPattern_eq (d : Dictionary n size) (bytes : DictionaryEntry n) : (compressor n D size).bestPattern d bytes =
      match d.entries.zipIdx.find? fun e => isValidDelta D bytes e.1 with
      | some e => (PatternM n D).build bytes e.2
      | none => (PatternX n D).build bytes (-1) := by
  have hnone : (PatternFactory n D).getPattern bytes (toDictionaryEntry 0) (-1) = (PatternX n D).build bytes (-1) :=
    getPattern_far (.inl (by decide))
  rw [bestPattern_eq_foldl, ← foldl_patternX hn hD, ← hnone]
  rfl

theorem bestPattern_near (h : d.entries.any (isValidDelta D bytes) = true) :
    ∃ i < d.numEntries, (compressor n D size).bestPattern d bytes = (PatternM n D).build bytes i := by
  rw [bestPattern_eq hn hD]
  cases hfind : d.entries.zipIdx.find? fun e => isValidDelta D bytes e.1 with
  | some e =>
    have hmem := List.mem_of_find?_eq_some hfind
    refine ⟨e.2, ?_, rfl⟩
    rw [← d.length_entries]
    exact List.snd_lt_of_mem_zipIdx hmem |>.trans_eq (by simp)
  | none =>
    obtain ⟨base, hmem, hv⟩ := List.any_eq_true.mp h
    obtain ⟨i, hi, rfl⟩ := List.getElem_of_mem hmem
    rw [List.find?_eq_none] at hfind
    exact absurd hv (hfind (d.entries[i], i) (List.mk_mem_zipIdx_iff_getElem?.mpr (List.getElem?_eq_getElem hi)))

theorem bestPattern_far (h : d.entries.any (isValidDelta D bytes) = false) :
    (compressor n D size).bestPattern d bytes = (PatternX n D).build bytes (-1) := by
  have hfind : d.entries.zipIdx.find? (fun e => isValidDelta D bytes e.1) = none := by
    rw [List.find?_eq_none]
    intro e he
    rw [List.any_eq_false] at h
    exact h e.1 (List.fst_mem_of_mem_zipIdx he)
  rw [bestPattern_eq hn hD, hfind]

/-- **The dictionary is that of the bases as they come**, and each base costs the bits of a value. -/
theorem compressValues_cover {values : List (Value n)}
    (h : (compressor n D size).compressValues comp d values = .ok (comp', d')) :
    d'.entries = cover (isValidDelta D) d.entries (values.map toDictionaryEntry) ∧
      comp'.size + 8 * n * d.numEntries = comp.size + values.length * (1 + D) + 8 * n * d'.numEntries := by
  induction values generalizing comp d with
  | nil =>
    cases h
    exact ⟨rfl, by simp⟩
  | cons value values ih =>
    obtain ⟨d₁, halloc, h⟩ := compressValues_cons h
    obtain ⟨hentries, hsize⟩ := ih h
    rw [List.map_cons, cover, List.length_cons, Nat.add_mul]
    cases hv : d.entries.any (isValidDelta D (toDictionaryEntry value)) with
    | true =>
      obtain ⟨i, -, hbest⟩ := bestPattern_near hn hD hv
      rw [hbest] at halloc hsize
      obtain rfl : d = d₁ := Except.ok.inj halloc
      rw [size_addEntry, size_patternM hn hD] at hsize
      exact ⟨hentries, by omega⟩
    | false =>
      rw [bestPattern_far hn hD hv] at halloc hsize
      have hpush : d.push (toDictionaryEntry value) = .ok d₁ := halloc
      rw [size_addEntry, size_patternX hn hD, numEntries_push hpush, Nat.mul_add] at hsize
      rw [entries_push hpush] at hentries
      exact ⟨hentries, by omega⟩

end

theorem entries_resetDictionary {d₀ : Dictionary n size} (h : resetDictionary d = .ok d₀) :
    d₀.entries = [toDictionaryEntry 0] := by
  rw [entries_push h, Dictionary.entries, Dictionary.reset]
  rfl

theorem numEntries_resetDictionary {d₀ : Dictionary n size} (h : resetDictionary d = .ok d₀) : d₀.numEntries = 1 :=
  numEntries_push h

end Bases

/-! ### The size of a line -/

section Law

variable {n D size : Nat} {d : Dictionary n size}

/-- `v` differs from the base `b` by at most `2 ^ (D - 1) - 1`, in wrapped signed arithmetic. -/
def Near (D : Nat) (v b : Value n) : Prop := (v - b).toInt.natAbs ≤ 2 ^ (D - 1) - 1

instance (v b : Value n) : Decidable (Near D v b) := Nat.decLe _ _

/-- Every value is near 0 or near the first value that is not, if there is one. -/
def OneBase (D : Nat) (values : List (Value n)) : Prop :=
  ∀ b ∈ values.find? (fun v => ! decide (Near D v 0)), ∀ v ∈ values, Near D v 0 ∨ Near D v b

instance (values : List (Value n)) : Decidable (OneBase D values) := Option.decidableForallMem _

theorem isValidDelta_iff (v b : Value n) :
    isValidDelta D (toDictionaryEntry v) (toDictionaryEntry b) = decide (Near D v b) := by
  have hlimit : (if D ≠ 0 then 2 ^ (D - 1) - 1 else 0 : Int) = (2 ^ (D - 1) - 1 : Nat) := by
    rw [Int.natCast_sub Nat.one_le_two_pow, Int.natCast_pow]
    split
    · rfl
    · rename_i h
      rw [show D = 0 by omega]
      rfl
  rw [isValidDelta, hlimit, fromDictionaryEntry_toDictionaryEntry, fromDictionaryEntry_toDictionaryEntry,
    ← Bool.decide_and]
  refine decide_eq_decide.mpr ?_
  unfold Near
  omega

theorem near_self (v : Value n) : Near D v v := by
  rw [Near, BitVec.sub_self, BitVec.toInt_zero]
  exact Nat.zero_le _

theorem cover_map (bases values : List (Value n)) :
    cover (isValidDelta D) (bases.map toDictionaryEntry) (values.map toDictionaryEntry) =
      (cover (fun v b => decide (Near D v b)) bases values).map toDictionaryEntry := by
  induction values generalizing bases with
  | nil => rfl
  | cons v values ih =>
    have hany : (bases.map toDictionaryEntry).any (isValidDelta D (toDictionaryEntry v)) =
        bases.any fun b => decide (Near D v b) := by
      simp only [List.any_map, Function.comp_def, isValidDelta_iff]
    rw [List.map_cons, cover, cover, hany]
    split
    · exact ih bases
    · rw [← ih (bases ++ [v]), List.map_append]
      rfl

/-- One base is enough if there are at most two, with that for the immediate values. -/
theorem length_cover_le_two_iff (values : List (Value n)) :
    (cover (fun v b => decide (Near D v b)) [0] values).length ≤ 2 ↔ OneBase D values := by
  have h : (cover (fun v b => decide (Near D v b)) [(0 : Value n)] values).length ≤ [(0 : Value n)].length + 1 ↔ _ :=
    length_cover_le_succ_iff fun v => decide_eq_true (near_self v)
  simpa [OneBase] using h

/-- **The size of a line**: a delta for each value and one base, if one base is enough, and that of the block if not. As
long as the dictionary has room for the values no assertion fails. -/
theorem size_law (hn : n ∣ 8) (hD : D < 8 * n) (blkSize : Nat) (d : Dictionary n size) (line : List (BitVec 64)) :
    (∀ out d', compress n D blkSize d line = .ok (out, d') → out.comp_data.size =
      if OneBase D (Compressor.values (n := n) line) then (Compressor.values (n := n) line).length * (1 + D) + 8 * n
      else blkSize * 8) ∧
    ((Compressor.values (n := n) line).length < size → ∃ out d', compress n D blkSize d line = .ok (out, d')) := by
  have hwidth : 8 * n < 256 := by
    have hle := Nat.le_of_dvd (by decide) hn
    omega
  constructor
  · intro out d' h
    obtain ⟨⟨comp, d₂⟩, hcomp, hout⟩ := ok_of_bind h
    obtain ⟨d₁, hreset, hvalues⟩ := ok_of_bind hcomp
    obtain ⟨hentries, hsize⟩ := compressValues_cover hwidth hD hvalues
    simp only [entries_resetDictionary hreset, numEntries_resetDictionary hreset, Nat.mul_one,
      Nat.zero_add] at hentries hsize
    rw [← List.map_singleton, cover_map] at hentries
    have hbases : d₂.numEntries ≤ 2 ↔ OneBase D (Compressor.values (n := n) line) := by
      rw [← length_cover_le_two_iff, ← d₂.length_entries, hentries, List.length_map]
    have hle : 1 ≤ d₂.numEntries := by
      rw [← d₂.length_entries, hentries, List.length_map]
      exact length_le_cover _ [0] _
    cases hout
    have hbases' : (DEFAULT_MAX_NUM_BASES : Int) = 2 := rfl
    obtain hnum | hnum | hnum : d'.numEntries = 1 ∨ d'.numEntries = 2 ∨ 2 < d'.numEntries := by omega
    · rw [hnum, Nat.mul_one] at hsize
      rw [if_pos (hbases.mp (by omega))]
      simp only [hbases', hnum]
      show comp.size + 8 * n * 1 = _
      omega
    · rw [hnum] at hsize
      rw [if_pos (hbases.mp (by omega))]
      simp only [hbases', hnum]
      show comp.size = _
      omega
    · rw [if_neg (mt hbases.mpr (by omega)), if_pos (by omega)]
      rfl
  · intro hroom
    have hind : (PatternFactory n D).Independent := by
      intro head hhead
      cases List.mem_singleton.mp hhead
      rfl
    obtain ⟨d₁, hreset⟩ : ∃ d₁, resetDictionary d = .ok d₁ :=
      ⟨_, dif_pos (show d.reset.numEntries < size from Nat.lt_of_le_of_lt (Nat.zero_le _) hroom)⟩
    have hone := numEntries_resetDictionary hreset
    have hfits : d₁.numEntries + (Compressor.values (n := n) line).length ≤ size ∧
        (d₁.numEntries + (Compressor.values (n := n) line).length ≤ 257 ∨ (PatternFactory n D).Independent) :=
      ⟨by omega, .inr hind⟩
    obtain ⟨-, comp, d', hvalues, -, -, -⟩ := Compressor.decompressValues_compressValues
      (push_allocates (C := compressor n D size) rfl) hfits ⟨[], 0⟩
    have hcomp : (compressor n D size).compress d line = .ok (comp, d') := by
      rw [Compressor.compress, show (compressor n D size).resetDictionary d = .ok d₁ from hreset]
      exact hvalues
    exact ⟨_, d', by rw [compress, hcomp]; rfl⟩

/-- Eight words of a block: six are near 0x1000, the first that is not near 0. -/
theorem size_law_block :
    ∃ out d', compress 8 8 64 (.new 8 64) [1, 0x1000, 0x1001, 0x1002, 0, 0xfff, 0x1040, 0xfc1] = .ok (out, d') ∧
      out.comp_data.size = 8 * (1 + 8) + 8 * 8 := by
  have hlaw := size_law (D := 8) (by decide) (by decide) 64 (.new 8 64)
    [1, 0x1000, 0x1001, 0x1002, 0, 0xfff, 0x1040, 0xfc1]
  obtain ⟨out, d', hout⟩ := hlaw.2 (by decide)
  refine ⟨out, d', hout, ?_⟩
  have hone : OneBase 8 (Compressor.values (n := 8) [1, 0x1000, 0x1001, 0x1002, 0, 0xfff, 0x1040, 0xfc1]) := by
    simp [OneBase, Compressor.values, Digits.digits, Near]
  rw [hlaw.1 out d' hout, if_pos hone, Compressor.length_values]
  rfl

end Law

end BaseDelta

/-! ## Lines of one word -/

section Uniform

variable {size : Nat} {d d' : Dictionary 8 size} {comp comp' : CompData 8}

namespace ZeroCompressor

/-- What a word is given: a bit if it is zero, and an entry of the dictionary if not. -/
theorem bestPattern_spec (d : Dictionary 8 size) (value : Value 8) :
    ((compressor size).bestPattern d (toDictionaryEntry value)).allocate = decide (value ≠ 0) ∧
      ((compressor size).bestPattern d (toDictionaryEntry value)).getSizeBits = if value = 0 then 1 else 65 := by
  have hfound : ∀ dict_bytes match_location,
      (PatternFactory.getPattern (toDictionaryEntry value) dict_bytes match_location).allocate = decide (value ≠ 0) ∧
        (PatternFactory.getPattern (toDictionaryEntry value) dict_bytes match_location).getSizeBits =
          if value = 0 then 1 else 65 := by
    intro dict_bytes match_location
    rw [getPattern_one PatternFactory PatternZ rfl]
    have hmatch : PatternZ.template.isPattern (toDictionaryEntry value) dict_bytes match_location =
      decide (value = 0) := by
      have hmask : (0xFFFFFFFFFFFFFFFF : Value 8) = BitVec.allOnes (8 * 8) := rfl
      simp only [PatternZ, PatternClass.isPattern, fromDictionaryEntry_toDictionaryEntry]
      rw [hmask, BitVec.and_allOnes, BitVec.and_allOnes]
      exact decide_eq_decide.mpr eq_comm
    have hbitsZ : PatternZ.template.numUnmatchedBits = 0 := by rfl
    rw [hmatch]
    by_cases hzero : value = 0
    · rw [decide_eq_true hzero, if_pos rfl, if_pos hzero,
        getSizeBits_build (by rw [hbitsZ]; decide) (by decide), hbitsZ, decide_eq_false (not_not_intro hzero)]
      exact ⟨rfl, rfl⟩
    · rw [decide_eq_false hzero, if_neg (by decide), if_neg hzero, decide_eq_true hzero]
      exact ⟨rfl, getSizeBits_build (D := PatternX) (by decide) (by decide) _ _⟩
  rw [bestPattern_eq_foldl]
  refine List.foldlRecOn (motive := fun p : Pattern 8 => p.allocate = decide (value ≠ 0) ∧
    p.getSizeBits = if value = 0 then 1 else 65) _ _ (hfound _ _) ?_
  intro pattern hpattern e _
  unfold better
  split
  · exact hfound _ _
  · exact hpattern

/-- A word that is zero costs a bit, another one 64 bits more and an entry. -/
theorem compressValues_countP {values : List (Value 8)}
    (h : (compressor size).compressValues comp d values = .ok (comp', d')) :
    d'.numEntries = d.numEntries + values.countP (· ≠ 0) ∧
      comp'.size = comp.size + values.length + 64 * values.countP (· ≠ 0) := by
  induction values generalizing comp d with
  | nil =>
    cases h
    exact ⟨rfl, rfl⟩
  | cons value values ih =>
    obtain ⟨d₁, halloc, h⟩ := compressValues_cons h
    obtain ⟨hnum, hsize⟩ := ih h
    obtain ⟨hallocate, hbits⟩ := bestPattern_spec d value
    rw [Compressor.allocated, hallocate] at halloc
    rw [size_addEntry, hbits] at hsize
    rw [List.countP_cons, List.length_cons]
    by_cases hzero : value = 0
    · rw [decide_eq_false (not_not_intro hzero)] at halloc ⊢
      obtain rfl : d = d₁ := Except.ok.inj halloc
      rw [if_pos hzero] at hsize
      exact ⟨hnum, by simp only [Bool.false_eq_true, if_false]; omega⟩
    · rw [decide_eq_true hzero] at halloc ⊢
      have hpush : d.push (toDictionaryEntry value) = .ok d₁ := halloc
      rw [numEntries_push hpush] at hnum
      rw [if_neg hzero] at hsize
      simp only [if_true]
      exact ⟨by omega, by omega⟩

end ZeroCompressor

theorem values_eight (line : List (BitVec 64)) : Compressor.values (n := 8) line = line := by
  rw [Compressor.values, show 8 / 8 = 1 from rfl]
  induction line with
  | nil => rfl
  | cons w line ih =>
    rw [List.flatMap_cons, ih]
    exact congrArg (· :: line) (BitVec.setWidth_eq w)

section Detected

variable {blkSize : Nat} {line : List (BitVec 64)} {out : Compression 8}

/-- **`ZeroCompressor` succeeds on the lines of zeros.** -/
theorem ZeroCompressor.size_lt_iff (hline : line.length = blkSize / 8) (hpos : 0 < line.length)
    (h : compress blkSize d line = .ok (out, d')) : out.comp_data.size < blkSize * 8 ↔ ∀ w ∈ line, w = 0 := by
  obtain ⟨⟨comp, d₂⟩, hcomp, hout⟩ := ok_of_bind h
  have hvalues : (compressor size).compressValues ⟨[], 0⟩ d.reset (Compressor.values line) = .ok (comp, d₂) := hcomp
  obtain ⟨hnum, hsize⟩ := compressValues_countP hvalues
  rw [values_eight] at hnum hsize
  simp only [Dictionary.reset, Nat.zero_add] at hnum hsize
  cases hout
  have hzero : d'.numEntries = 0 ↔ ∀ w ∈ line, w = 0 := by
    rw [hnum, List.countP_eq_zero]
    simp
  rw [← hzero]
  by_cases hnone : d'.numEntries = 0
  · rw [hnone] at hnum
    refine iff_of_true ?_ hnone
    simp only [hnone, Nat.lt_irrefl, if_false]
    omega
  · simp only [Nat.pos_of_ne_zero hnone, if_true, CompData.setSizeBits]
    omega

/-- **`RepeatedQwordsCompressor` succeeds on no line**: a match allocates an entry too. -/
theorem RepeatedQwordsCompressor.size_eq (h2 : 2 ≤ line.length) (h : compress blkSize d line = .ok (out, d')) :
    out.comp_data.size = blkSize * 8 := by
  obtain ⟨⟨comp, d₂⟩, hcomp, hout⟩ := ok_of_bind h
  have hvalues : (compressor size).compressValues ⟨[], 0⟩ d.reset (Compressor.values line) = .ok (comp, d₂) := hcomp
  have hnum := compressValues_numEntries (C := compressor size) rfl allocates hvalues
  rw [values_eight] at hnum
  simp only at hout
  rw [if_neg (by omega)] at hout
  cases hout
  rw [if_pos (by omega)]
  rfl

/-- What the two compressors report for a line is less than the block exactly if all its words are equal, and exactly if
all are zero. -/
def Detected (blkSize repeatedSize zeroSize : Nat) (line : List (BitVec 64)) : Prop :=
  (repeatedSize < blkSize * 8 ↔ ∀ v ∈ line, ∀ w ∈ line, v = w) ∧ (zeroSize < blkSize * 8 ↔ ∀ w ∈ line, w = 0)

/-- **Uniform lines are detected only where there is nothing to detect**: lines of equal words are not. -/
theorem detected_iff {dictionarySize : Nat} {d₁ d₁' : Dictionary 8 dictionarySize} {out₁ : Compression 8}
    (hline : line.length = blkSize / 8) (h2 : 2 ≤ line.length)
    (hrepeated : RepeatedQwordsCompressor.compress blkSize d line = .ok (out, d'))
    (hzero : ZeroCompressor.compress blkSize d₁ line = .ok (out₁, d₁')) :
    Detected blkSize out.comp_data.size out₁.comp_data.size line ↔ ¬ ∀ v ∈ line, ∀ w ∈ line, v = w := by
  have hsize := RepeatedQwordsCompressor.size_eq h2 hrepeated
  have hlt := ZeroCompressor.size_lt_iff hline (by omega) hzero
  constructor
  · intro h hall
    have hless := h.1.mpr hall
    omega
  · intro h
    exact ⟨⟨fun hless => absurd hless (by omega), fun hall => absurd hall h⟩, hlt⟩

/-- Both compress a line of a block of 64 bytes. -/
theorem compress_block (line : List (BitVec 64)) (hline : line.length = 64 / 8) :
    (∃ out d', RepeatedQwordsCompressor.compress 64 (.new 8 64) line = .ok (out, d')) ∧
      ∃ out d', ZeroCompressor.compress 64 (.new 8 64) line = .ok (out, d') := by
  have hrepeated : Lossless (RepeatedQwordsCompressor.compressor 64) 64 (RepeatedQwordsCompressor.compress 64) :=
    RepeatedQwordsCompressor.lossless (by decide) (by decide)
  have hzero : Lossless (ZeroCompressor.compressor 64) 64 (ZeroCompressor.compress 64) := ZeroCompressor.lossless
  obtain ⟨out, d', hout, -⟩ := hrepeated (.new 8 64) line hline
  obtain ⟨out₁, d₁', hout₁, -⟩ := hzero (.new 8 64) line hline
  exact ⟨⟨out, d', hout⟩, out₁, d₁', hout₁⟩

/-- A line whose words are not all equal. -/
theorem detected_mixed : ∃ out d' out₁ d₁',
    RepeatedQwordsCompressor.compress 64 (.new 8 64) [0, 0, 0, 0, 0, 0, 0, 1] = .ok (out, d') ∧
    ZeroCompressor.compress 64 (.new 8 64) [0, 0, 0, 0, 0, 0, 0, 1] = .ok (out₁, d₁') ∧
    Detected 64 out.comp_data.size out₁.comp_data.size [0, 0, 0, 0, 0, 0, 0, 1] := by
  obtain ⟨⟨out, d', hout⟩, out₁, d₁', hout₁⟩ := compress_block [0, 0, 0, 0, 0, 0, 0, 1] rfl
  refine ⟨out, d', out₁, d₁', hout, hout₁, (detected_iff rfl (by decide) hout hout₁).mpr fun hall => ?_⟩
  exact absurd (hall 0 (by simp) 1 (by simp)) (by decide)

/-- A line whose words are all 7. -/
theorem repeated_missed : ∃ out d' out₁ d₁',
    RepeatedQwordsCompressor.compress 64 (.new 8 64) (List.replicate 8 7) = .ok (out, d') ∧
    ZeroCompressor.compress 64 (.new 8 64) (List.replicate 8 7) = .ok (out₁, d₁') ∧
    ¬ Detected 64 out.comp_data.size out₁.comp_data.size (List.replicate 8 7) := by
  obtain ⟨⟨out, d', hout⟩, out₁, d₁', hout₁⟩ := compress_block (List.replicate 8 7) rfl
  refine ⟨out, d', out₁, d₁', hout, hout₁, fun h => ?_⟩
  have hless := h.1.mpr fun v hv w hw => (List.eq_of_mem_replicate hv).trans (List.eq_of_mem_replicate hw).symm
  rw [RepeatedQwordsCompressor.size_eq (by decide) hout] at hless
  exact Nat.lt_irrefl _ hless

end Detected

end Uniform

end Salam.Cache
