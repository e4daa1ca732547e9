import Salam.Cache.Sizes

/-!
# The slots that decompression reads

A pattern that is not a match has the location -1, which its getter gives as 255, and `decompressValue` reads the
dictionary there before it knows whether the pattern needs an entry.

* `decompressValues_inRange`: what is read outside of the dictionary does not matter if nothing is.
* `slots_exist_iff`: for which dictionaries, and which lines, every slot that is read exists.
-/

namespace Salam.Cache

open Dictionary (Err)

section Slots

variable {n size : Nat} {C : Compressor n size} {d d' : Dictionary n size} {comp comp' : CompData n} {p : Pattern n}

/-- The slots that `decompressValue` reads for the entries of a line. -/
def slotsRead (entries : List (Pattern n)) : List Nat := entries.map fun p => p.getMatchLocation.toNat

/-- Every slot that is read is one of the dictionary. -/
def InRange (size : Nat) (entries : List (Pattern n)) : Prop := ∀ i ∈ slotsRead entries, i < size

theorem inRange_append {entries entries' : List (Pattern n)} :
    InRange size (entries ++ entries') ↔ InRange size entries ∧ InRange size entries' := by
  simp only [InRange, slotsRead, List.map_append, List.forall_mem_append]

theorem inRange_singleton : InRange size [p] ↔ p.getMatchLocation.toNat < size := by
  simp [InRange, slotsRead]

theorem decompressValue_inRange (h : p.getMatchLocation.toNat < size) (stray stray' : DictionaryEntry n) :
    C.decompressValue d p stray = C.decompressValue d p stray' := by
  have hlen : p.getMatchLocation.toNat < d.dictionary.length := by rwa [d.length_eq]
  unfold Compressor.decompressValue
  rw [List.getD_eq_getElem?_getD, List.getD_eq_getElem?_getD, List.getElem?_eq_getElem hlen]
  rfl

/-- **What a read outside of the dictionary gives does not matter** if there is none. -/
theorem decompressValues_inRange {entries : List (Pattern n)} (h : InRange size entries)
    (stray stray' : Nat → DictionaryEntry n) :
      C.decompressValues d stray entries = C.decompressValues d stray' entries := by
  induction entries generalizing d stray stray' with
  | nil => rfl
  | cons p entries ih =>
    obtain ⟨hp, hrest⟩ := inRange_append.mp (show InRange size ([p] ++ entries) from h)
    rw [Compressor.decompressValues, Compressor.decompressValues,
      decompressValue_inRange (inRange_singleton.mp hp) (stray 0) (stray' 0)]
    refine congrArg _ (funext fun out => ?_)
    simp only
    rw [ih hrest (fun i => stray (i + 1)) fun i => stray' (i + 1)]

theorem inRange_of_large (h : 256 ≤ size) (entries : List (Pattern n)) : InRange size entries := by
  intro i hi
  obtain ⟨p, -, rfl⟩ := List.mem_map.mp hi
  exact Nat.lt_of_lt_of_le p.getMatchLocation.isLt h

theorem inRange_noMatch (hp : p.matchLocation = -1) : InRange size [p] ↔ 256 ≤ size := by
  have hslot : p.getMatchLocation.toNat = 255 := by
    rw [Pattern.getMatchLocation, hp]
    rfl
  rw [inRange_singleton, hslot]
  exact Iff.rfl

/-- The patterns of a run come behind those that there are. -/
theorem compressValues_prefix {values : List (Value n)} (h : C.compressValues comp d values = .ok (comp', d')) :
    comp.entries <+: comp'.entries := by
  induction values generalizing comp d with
  | nil =>
    cases h
    exact List.prefix_rfl
  | cons value values ih =>
    obtain ⟨d₁, -, h⟩ := compressValues_cons h
    exact (List.prefix_append _ _).trans (ih h)

theorem bestPattern_reset (d : Dictionary n size) (bytes : DictionaryEntry n) :
    (C.bestPattern d.reset bytes).matchLocation = -1 :=
  (C.factory.getPattern_spec bytes (toDictionaryEntry 0) (-1)).1

/-- **From an empty dictionary on**, every slot that is read exists only if eight bits cannot name one that does not. -/
theorem inRange_reset_iff {values : List (Value n)}
    (h : C.compressValues ⟨[], 0⟩ d.reset values = .ok (comp, d')) :
      InRange size comp.entries ↔ 256 ≤ size ∨ values = [] := by
  cases values with
  | nil =>
    cases h
    exact iff_of_true (fun i hi => by cases hi) (.inr rfl)
  | cons value values =>
    obtain ⟨d₁, -, h⟩ := compressValues_cons h
    obtain ⟨ps, hps⟩ := compressValues_prefix h
    constructor
    · intro hin
      rw [← hps] at hin
      exact .inl ((inRange_noMatch (bestPattern_reset d _)).mp (inRange_append.mp hin).1)
    · rintro (hlarge | hnil)
      · exact inRange_of_large hlarge _
      · cases hnil

theorem values_eq_nil_iff (hn : n ∣ 8) {line : List (BitVec 64)} :
    Compressor.values (n := n) line = [] ↔ line = [] := by
  have hpos : 0 < n := Nat.pos_of_dvd_of_pos hn (by decide)
  have hcount : 0 < 8 / n := Nat.div_pos (Nat.le_of_dvd (by decide) hn) hpos
  rw [← List.length_eq_zero_iff, Compressor.length_values, Nat.mul_eq_zero, List.length_eq_zero_iff]
  exact or_iff_left (by omega)

end Slots

/-! ## The compressors -/

section Compressors

variable {size blkSize : Nat} {line : List (BitVec 64)}

/-- The compressors that reset their dictionary to no entries. -/
theorem inRange_compress_iff {n : Nat} (hn : n ∣ 8) {C : Compressor n size}
    (hreset : C.resetDictionary = fun d => .ok d.reset)
    {d d' : Dictionary n size} {comp : CompData n} (h : C.compress d line = .ok (comp, d')) :
    InRange size comp.entries ↔ 256 ≤ size ∨ line = [] := by
  have hvalues : C.compressValues ⟨[], 0⟩ d.reset (Compressor.values line) = .ok (comp, d') := by
    rw [Compressor.compress, hreset] at h
    exact h
  rw [inRange_reset_iff hvalues, values_eq_nil_iff hn]

section BaseDelta

variable {n D : Nat} {d d' : Dictionary n size} {comp comp' : CompData n}

/-- As long as the dictionary has the base for the immediate values only. -/
theorem BaseDelta.inRange_values_iff (hn : 8 * n < 256) (hD : D < 8 * n) {values : List (Value n)}
    (hd : d.entries = [toDictionaryEntry 0]) (hin : InRange size comp.entries)
    (h : (BaseDelta.compressor n D size).compressValues comp d values = .ok (comp', d')) :
    InRange size comp'.entries ↔ 256 ≤ size ∨ ∀ v ∈ values, BaseDelta.Near D v 0 := by
  induction values generalizing comp with
  | nil =>
    cases h
    exact iff_of_true hin (.inr fun v hv => by cases hv)
  | cons value values ih =>
    have hany : d.entries.any (isValidDelta D (toDictionaryEntry value)) = decide (BaseDelta.Near D value 0) := by
      rw [hd, List.any_cons, List.any_nil, Bool.or_false, BaseDelta.isValidDelta_iff]
    obtain ⟨d₁, halloc, h⟩ := compressValues_cons h
    rw [List.forall_mem_cons]
    by_cases hnear : BaseDelta.Near D value 0
    · rw [decide_eq_true hnear] at hany
      obtain ⟨i, hi, hbest⟩ := BaseDelta.bestPattern_near hn hD hany
      rw [← d.length_entries, hd, List.length_singleton, Nat.lt_one_iff] at hi
      rw [hbest, hi] at halloc h
      obtain rfl : d = d₁ := Except.ok.inj halloc
      have hslot : InRange size [(BaseDelta.PatternM n D).build (toDictionaryEntry value) (0 : Nat)] := by
        have hle := d.numEntries_le
        rw [← d.length_entries, hd, List.length_singleton] at hle
        exact inRange_singleton.mpr hle
      rw [ih (inRange_append.mpr ⟨hin, hslot⟩) h]
      simp only [hnear, true_and]
    · rw [decide_eq_false hnear] at hany
      rw [BaseDelta.bestPattern_far hn hD hany] at h
      obtain ⟨ps, hps⟩ := compressValues_prefix h
      simp only [hnear, false_and, or_false]
      constructor
      · intro hout
        rw [← hps] at hout
        exact (inRange_noMatch rfl).mp (inRange_append.mp (inRange_append.mp hout).1).2
      · exact fun hlarge => inRange_of_large hlarge _

theorem BaseDelta.inRange_iff (hn : n ∣ 8) (hD : D < 8 * n) {out : Compression n}
    (h : BaseDelta.compress n D blkSize d line = .ok (out, d')) :
    InRange size out.comp_data.entries ↔ 256 ≤ size ∨ ∀ v ∈ Compressor.values (n := n) line, BaseDelta.Near D v 0 := by
  have hwidth : 8 * n < 256 := by
    have hle := Nat.le_of_dvd (by decide) hn
    omega
  obtain ⟨⟨comp, d₂⟩, hcomp, hout⟩ := ok_of_bind h
  obtain ⟨d₁, hreset, hvalues⟩ := ok_of_bind hcomp
  have hentries : out.comp_data.entries = comp.entries := by
    cases hout
    split
    · rfl
    · split <;> rfl
  rw [hentries]
  exact BaseDelta.inRange_values_iff hwidth hD (BaseDelta.entries_resetDictionary hreset)
    (fun i hi => by cases hi) hvalues

end BaseDelta

theorem CPack.inRange_iff {d d' : Dictionary 4 size} {out : Compression 4}
    (h : CPack.compress blkSize d line = .ok (out, d')) :
      InRange size out.comp_data.entries ↔ 256 ≤ size ∨ line = [] := by
  obtain ⟨⟨comp, d₂⟩, hcomp, hout⟩ := ok_of_bind h
  cases hout
  exact inRange_compress_iff (by decide) rfl hcomp

theorem FPCD.inRange_iff {d d' : Dictionary 4 2} {out : Compression 4}
    (h : FPCD.compress blkSize d line = .ok (out, d')) :
    InRange 2 out.comp_data.entries ↔ line = [] := by
  obtain ⟨⟨comp, d₂⟩, hcomp, hout⟩ := ok_of_bind h
  cases hout
  rw [inRange_compress_iff (C := FPCD.compressor) (by decide) rfl hcomp]
  exact or_iff_right (by decide)

theorem ZeroCompressor.inRange_iff {d d' : Dictionary 8 size} {out : Compression 8}
    (h : ZeroCompressor.compress blkSize d line = .ok (out, d')) :
    InRange size out.comp_data.entries ↔ 256 ≤ size ∨ line = [] := by
  obtain ⟨⟨comp, d₂⟩, hcomp, hout⟩ := ok_of_bind h
  have hentries : out.comp_data.entries = comp.entries := by
    cases hout
    split <;> rfl
  rw [hentries]
  exact inRange_compress_iff (C := ZeroCompressor.compressor size) (by decide) rfl hcomp

theorem RepeatedQwordsCompressor.inRange_iff {d d' : Dictionary 8 size} {out : Compression 8}
    (h : RepeatedQwordsCompressor.compress blkSize d line = .ok (out, d')) :
    InRange size out.comp_data.entries ↔ 256 ≤ size ∨ line = [] := by
  obtain ⟨⟨comp, d₂⟩, hcomp, hout⟩ := ok_of_bind h
  simp only at hout
  split at hout
  · cases hout
  · have hentries : out.comp_data.entries = comp.entries := by
      cases hout
      split <;> rfl
    rw [hentries]
    exact inRange_compress_iff (C := RepeatedQwordsCompressor.compressor size) (by decide) rfl hcomp

/-- **When every slot that is read exists**: the dictionary has as many as eight bits name, or nothing is read, or
`BaseDelta` is given only values that are near zero. -/
theorem slots_exist_iff (size blkSize : Nat) (line : List (BitVec 64)) :
    (∀ (d d' : Dictionary 4 size) out, CPack.compress blkSize d line = .ok (out, d') →
      (InRange size out.comp_data.entries ↔ 256 ≤ size ∨ line = [])) ∧
    (∀ (d d' : Dictionary 4 2) out, FPCD.compress blkSize d line = .ok (out, d') →
      (InRange 2 out.comp_data.entries ↔ line = [])) ∧
    (∀ (d d' : Dictionary 8 size) out, ZeroCompressor.compress blkSize d line = .ok (out, d') →
      (InRange size out.comp_data.entries ↔ 256 ≤ size ∨ line = [])) ∧
    (∀ (d d' : Dictionary 8 size) out, RepeatedQwordsCompressor.compress blkSize d line = .ok (out, d') →
      (InRange size out.comp_data.entries ↔ 256 ≤ size ∨ line = [])) ∧
    ∀ n D, n ∣ 8 → D < 8 * n → ∀ (d d' : Dictionary n size) out, BaseDelta.compress n D blkSize d line = .ok (out, d') →
      (InRange size out.comp_data.entries ↔
        256 ≤ size ∨ ∀ v ∈ Compressor.values (n := n) line, BaseDelta.Near D v 0) :=
  ⟨fun _ _ _ => CPack.inRange_iff, fun _ _ _ => FPCD.inRange_iff, fun _ _ _ => ZeroCompressor.inRange_iff,
    fun _ _ _ => RepeatedQwordsCompressor.inRange_iff, fun _ _ hn hD _ _ _ => BaseDelta.inRange_iff hn hD⟩

/-- `BaseDelta` and a line of zeros. -/
theorem slots_exist_zeros : ∃ out d', BaseDelta.compress 8 8 64 (.new 8 64) (List.replicate 8 0) = .ok (out, d') ∧
    InRange 64 out.comp_data.entries := by
  obtain ⟨out, d', hout⟩ := (BaseDelta.size_law (D := 8) (by decide) (by decide) 64 (.new 8 64) (List.replicate 8 0)).2
    (by decide)
  refine ⟨out, d', hout, ((slots_exist_iff 64 64 _).2.2.2.2 8 8 (by decide) (by decide) _ _ out hout).mpr (.inr ?_)⟩
  intro v hv
  rw [values_eight] at hv
  rw [List.eq_of_mem_replicate hv]
  exact BaseDelta.near_self 0

/-- `CPack` reads slot 255 of 64 for a line of zeros. -/
theorem slot_missing : ∃ out d', CPack.compress 64 (.new 4 64) (List.replicate 8 0) = .ok (out, d') ∧
    ¬ InRange 64 out.comp_data.entries := by
  have hlossless : Lossless (CPack.compressor 64) 64 (CPack.compress 64) := CPack.lossless (by decide)
  obtain ⟨out, d', hout, -⟩ := hlossless (.new 4 64) (List.replicate 8 0) rfl
  refine ⟨out, d', hout, fun h => ?_⟩
  rcases (CPack.inRange_iff hout).mp h with h | h
  · exact absurd h (by decide)
  · cases h

end Compressors

end Salam.Cache
