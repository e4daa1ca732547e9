import Mathlib.Data.Vector.Basic
import Salam.Base.AddrRange
import Salam.Lib.Digits

/-!
# `DictionaryCompressor`

A compressor that replaces each value of a cache line by a pattern: a class of values that it can name in fewer bits,
some of them by an entry of a dictionary. The dictionary is built while the line is compressed, and built again while it
is decompressed. Values have `n` bytes, which is `sizeof(T)`.

* `PatternDecl.decompress_build`: a pattern restores the value that it was made for.
* `compressValue_restores`: so does the best of the patterns that match.
* `decompressValues_compressValues`: decompression goes through the same dictionaries, and gives the same values.
-/

namespace Salam.Cache

open Digits

/-! ## Values -/

/-- A value of type `T`. -/
abbrev Value (n : Nat) := BitVec (8 * n)

abbrev DictionaryEntry (n : Nat) := List.Vector (BitVec 8) n

variable {n : Nat}

def toDictionaryEntry (value : Value n) : DictionaryEntry n := ⟨digits 8 n value, length_digits n value⟩

def fromDictionaryEntry (entry : DictionaryEntry n) : Value n := ofDigits (8 * n) entry.1

@[simp] theorem fromDictionaryEntry_toDictionaryEntry (value : Value n) :
    fromDictionaryEntry (toDictionaryEntry value) = value :=
  ofDigits_digits (by decide) (Nat.mul_comm _ _).le value

@[simp] theorem toDictionaryEntry_fromDictionaryEntry (entry : DictionaryEntry n) :
    toDictionaryEntry (fromDictionaryEntry entry) = entry := by
  obtain ⟨l, rfl⟩ := entry
  exact Subtype.ext (digits_ofDigits (by decide) (Nat.mul_comm _ _).le)

/-! ## Patterns -/

/-- The templates of patterns, with their arguments; `r` is the size of `RepT` in bytes. -/
inductive PatternClass (n : Nat)
  | uncompressed
  | masked (mask : Value n) (allocate : Bool := true)
  | maskedValue (value mask : Value n) (allocate : Bool := false)
  | locatedMasked (mask : Value n) (location : Int)
  | repeatedValue (r : Nat) (h : r ∣ n) (pos : 0 < r) (allocate : Bool := true)
  | delta (deltaSizeBits : Nat)

def isValidDelta (deltaSizeBits : Nat) (bytes base_bytes : DictionaryEntry n) : Bool :=
  let limit : Int := if deltaSizeBits ≠ 0 then 2 ^ (deltaSizeBits - 1) - 1 else 0
  let delta := (fromDictionaryEntry bytes - fromDictionaryEntry base_bytes).toInt
  delta ≥ -limit && delta ≤ limit

namespace PatternClass

def isPattern (bytes dict_bytes : DictionaryEntry n) (match_location : Int) : PatternClass n → Bool
  | uncompressed => true
  | masked mask _ =>
    0 ≤ match_location && fromDictionaryEntry bytes &&& mask = fromDictionaryEntry dict_bytes &&& mask
  | maskedValue value mask _ => value &&& mask = fromDictionaryEntry bytes &&& mask
  | locatedMasked mask location =>
    match_location = location &&
      (0 ≤ match_location && fromDictionaryEntry bytes &&& mask = fromDictionaryEntry dict_bytes &&& mask)
  | repeatedValue r _ _ _ =>
    let bytes_value := fromDictionaryEntry bytes
    (digits (8 * r) (n / r) bytes_value).all fun cur_value => cur_value = bytes_value.setWidth (8 * r)
  | delta deltaSizeBits => 0 ≤ match_location && isValidDelta deltaSizeBits bytes dict_bytes

def shouldAllocate : PatternClass n → Bool
  | uncompressed => true
  | masked _ allocate => allocate
  | maskedValue _ _ allocate => allocate
  | locatedMasked _ _ => true
  | repeatedValue _ _ _ allocate => allocate
  | delta _ => false

def numUnmatchedBits : PatternClass n → Nat
  | uncompressed => 8 * n
  | masked mask _ => Base.popCount ((~~~mask).setWidth 64)
  | maskedValue _ mask _ => Base.popCount ((~~~mask).setWidth 64)
  | locatedMasked mask _ => Base.popCount ((~~~mask).setWidth 64)
  | repeatedValue r _ _ _ => 8 * r
  | delta deltaSizeBits => deltaSizeBits

/-- The pattern is a match of an entry of the dictionary, the rest of which decompression takes from there. -/
def usesDictionary : PatternClass n → Bool
  | masked _ _ => true
  | locatedMasked _ _ => true
  | _ => false

end PatternClass

/-- What a pattern keeps of the value. -/
inductive Body (n : Nat)
  | uncompressed (data : DictionaryEntry n)
  | masked (mask bits : Value n)
  | maskedValue (value mask bits : Value n)
  | repeatedValue (r : Nat) (value : BitVec (8 * r))
  | delta (bytes : DictionaryEntry n)

structure Pattern (n : Nat) where
  patternNumber : Nat
  code : BitVec 8
  length : BitVec 8
  numUnmatchedBits : BitVec 8
  matchLocation : Int
  allocate : Bool
  body : Body n

namespace Pattern

def getMatchLocation (p : Pattern n) : BitVec 8 := BitVec.ofInt 8 p.matchLocation

def getSizeBits (p : Pattern n) : Nat := p.numUnmatchedBits.toNat + p.length.toNat

def decompress (p : Pattern n) (dict_bytes : DictionaryEntry n) : DictionaryEntry n :=
  match p.body with
  | .uncompressed data => data
  | .masked mask bits => toDictionaryEntry (bits ||| (fromDictionaryEntry dict_bytes &&& mask))
  | .maskedValue value mask bits =>
    toDictionaryEntry (bits ||| (fromDictionaryEntry (toDictionaryEntry value) &&& mask))
  | .repeatedValue r value => toDictionaryEntry (ofDigits (8 * n) (List.replicate (n / r) value))
  | .delta bytes => bytes

end Pattern

/-- A pattern as a compressor declares it. -/
structure PatternDecl (n : Nat) where
  template : PatternClass n
  number : Nat
  code : Nat
  metadata_length : Nat

namespace PatternDecl

/-- What the constructors of the templates keep of the value. -/
def body (bytes : DictionaryEntry n) : PatternClass n → Body n
  | .uncompressed => .uncompressed bytes
  | .masked mask _ => .masked mask (fromDictionaryEntry bytes &&& ~~~mask)
  | .maskedValue value mask _ => .maskedValue value mask (fromDictionaryEntry bytes &&& ~~~mask)
  | .locatedMasked mask _ => .masked mask (fromDictionaryEntry bytes &&& ~~~mask)
  | .repeatedValue r _ _ _ => .repeatedValue r ((fromDictionaryEntry bytes).setWidth (8 * r))
  | .delta _ => .delta bytes

/-- `new Head(bytes, match_location)` -/
def build (D : PatternDecl n) (bytes : DictionaryEntry n) (match_location : Int) : Pattern n where
  patternNumber := D.number
  code := BitVec.ofNat 8 D.code
  length := BitVec.ofNat 8 D.metadata_length
  numUnmatchedBits := BitVec.ofNat 8 D.template.numUnmatchedBits
  matchLocation := match_location
  allocate := D.template.shouldAllocate
  body := body bytes D.template

end PatternDecl

/-- `Factory`: the patterns in the order in which they are tried. The last one leaves the value as it is. -/
structure Factory (n : Nat) where
  heads : List (PatternDecl n)
  last : PatternDecl n
  last_uncompressed : last.template = .uncompressed

def Factory.getPattern (F : Factory n) (bytes dict_bytes : DictionaryEntry n) (match_location : Int) : Pattern n :=
  match F.heads.find? fun head => head.template.isPattern bytes dict_bytes match_location with
  | some head => head.build bytes match_location
  | none => F.last.build bytes match_location

/-! ## The compressor -/

inductive Dictionary.Err
  | assertion
  deriving DecidableEq

open Dictionary (Err)

structure Dictionary (n size : Nat) where
  dictionary : List (DictionaryEntry n)
  numEntries : Nat
  length_eq : dictionary.length = size
  numEntries_le : numEntries ≤ size

/-- A compressor that inherits from `DictionaryCompressor`: its factory and the functions that it overrides. -/
structure Compressor (n size : Nat) where
  factory : Factory n
  addToDictionary : Dictionary n size → DictionaryEntry n → Except Err (Dictionary n size)
  resetDictionary : Dictionary n size → Except Err (Dictionary n size)

structure CompData (n : Nat) where
  entries : List (Pattern n)
  size : Nat

def CompData.addEntry (comp : CompData n) (p : Pattern n) : CompData n :=
    ⟨comp.entries ++ [p], comp.size + p.getSizeBits⟩

section Compressor

variable {size : Nat}

theorem length_fresh (n size : Nat) : (List.replicate size (toDictionaryEntry (n := n) 0)).length = size :=
  List.length_replicate

/-- `DictionaryCompressor::resetDictionary` -/
def Dictionary.reset (_ : Dictionary n size) : Dictionary n size :=
  ⟨List.replicate size (toDictionaryEntry 0), 0, length_fresh n size, Nat.zero_le _⟩

namespace Compressor

variable (C : Compressor n size)

/-- The search of `compressValue`: the first of the smallest patterns, among those for the entries and that for none. -/
def bestPattern (d : Dictionary n size) (bytes : DictionaryEntry n) : Pattern n :=
  (d.dictionary.take d.numEntries).zipIdx.foldl
    (fun pattern e =>
      let temp_pattern := C.factory.getPattern bytes e.1 e.2
      if temp_pattern.getSizeBits < pattern.getSizeBits then temp_pattern else pattern)
    (C.factory.getPattern bytes (toDictionaryEntry 0) (-1))

def compressValue (d : Dictionary n size) (data : Value n) : Except Err (Pattern n × Dictionary n size) :=
  let bytes := toDictionaryEntry data
  let pattern := C.bestPattern d bytes
  if pattern.allocate then (C.addToDictionary d bytes).map fun d' => (pattern, d') else .ok (pattern, d)

/-- The loop of `compress`. -/
def compressValues (comp : CompData n) (d : Dictionary n size) :
    List (Value n) → Except Err (CompData n × Dictionary n size)
  | [] => .ok (comp, d)
  | value :: values => do
    let (pattern, d) ← C.compressValue d value
    compressValues (comp.addEntry pattern) d values

/-- The line, read as an array of `T`. -/
def values (line : List (BitVec 64)) : List (Value n) := line.flatMap (digits (8 * n) (8 / n))

def compress (d : Dictionary n size) (line : List (BitVec 64)) : Except Err (CompData n × Dictionary n size) := do
  let d ← C.resetDictionary d
  C.compressValues ⟨[], 0⟩ d (values line)

/-- `decompressValue`; `stray` is what a read outside of the dictionary gives. -/
def decompressValue (d : Dictionary n size) (p : Pattern n) (stray : DictionaryEntry n) :
    Except Err (Value n × Dictionary n size) :=
  let data := p.decompress (d.dictionary.getD p.getMatchLocation.toNat stray)
  if p.allocate then (C.addToDictionary d data).map fun d' => (fromDictionaryEntry data, d')
  else .ok (fromDictionaryEntry data, d)

/-- The loop of `decompress`. -/
def decompressValues (d : Dictionary n size) (stray : Nat → DictionaryEntry n) :
    List (Pattern n) → Except Err (List (Value n) × Dictionary n size)
  | [] => .ok ([], d)
  | p :: ps => do
    let (value, d) ← C.decompressValue d p (stray 0)
    let (values, d) ← decompressValues d (fun i => stray (i + 1)) ps
    return (value :: values, d)

/-- The words made of the values. -/
def concatenate (blkSize : Nat) (decomp_values : List (Value n)) : List (BitVec 64) :=
  (List.range (blkSize / 8)).map fun i => place 64 (fun j => decomp_values.getD (8 / n * i + j) 0) (8 / n)

def decompress (blkSize : Nat) (d : Dictionary n size) (comp : CompData n) (stray : Nat → DictionaryEntry n) :
    Except Err (List (BitVec 64) × Dictionary n size) := do
  let d ← C.resetDictionary d
  let (decomp_values, d) ← C.decompressValues d stray comp.entries
  return (concatenate blkSize decomp_values, d)

end Compressor

/-! ## A pattern -/

theorem masked_or {v u mask : Value n} (h : v &&& mask = u &&& mask) : v &&& ~~~mask ||| u &&& mask = v := by
  rw [← h, ← BitVec.and_or_distrib_left]
  simp

/-- **A pattern restores the value that it was made for**; one that is a match needs the entry that it matched. -/
theorem PatternDecl.decompress_build (D : PatternDecl n) {bytes dict_bytes : DictionaryEntry n} {match_location : Int}
    (h : D.template.isPattern bytes dict_bytes match_location = true) {e : DictionaryEntry n}
    (he : D.template.usesDictionary = true → e = dict_bytes) : (D.build bytes match_location).decompress e = bytes := by
  obtain ⟨template, number, code, metadata_length⟩ := D
  cases template with
  | uncompressed => rfl
  | masked mask allocate =>
    simp only [PatternClass.isPattern, Bool.and_eq_true, decide_eq_true_eq] at h
    simp only [Pattern.decompress, build, body, he rfl, masked_or h.2, toDictionaryEntry_fromDictionaryEntry]
  | maskedValue value mask allocate =>
    simp only [PatternClass.isPattern, decide_eq_true_eq] at h
    simp only [Pattern.decompress, build, body, fromDictionaryEntry_toDictionaryEntry, masked_or h.symm,
      toDictionaryEntry_fromDictionaryEntry]
  | locatedMasked mask location =>
    simp only [PatternClass.isPattern, Bool.and_eq_true, decide_eq_true_eq] at h
    simp only [Pattern.decompress, build, body, he rfl, masked_or h.2.2, toDictionaryEntry_fromDictionaryEntry]
  | repeatedValue r hr pos allocate =>
    simp only [PatternClass.isPattern, List.all_eq_true, decide_eq_true_eq] at h
    have hlist : digits (8 * r) (n / r) (fromDictionaryEntry bytes) =
        List.replicate (n / r) ((fromDictionaryEntry bytes).setWidth (8 * r)) :=
      List.eq_replicate_iff.mpr ⟨length_digits _ _, h⟩
    have hw : 8 * n ≤ n / r * (8 * r) := by
      rw [Nat.mul_left_comm, Nat.div_mul_cancel hr]
    simp only [Pattern.decompress, build, body, ← hlist, ofDigits_digits (show 0 < 8 * r by omega) hw,
      toDictionaryEntry_fromDictionaryEntry]
  | delta deltaSizeBits => rfl

theorem PatternClass.location_nonneg {template : PatternClass n} {bytes dict_bytes : DictionaryEntry n}
    {match_location : Int} (h : template.isPattern bytes dict_bytes match_location = true)
    (hu : template.usesDictionary = true) : 0 ≤ match_location := by
  cases template with
  | masked mask allocate =>
    simp only [isPattern, Bool.and_eq_true, decide_eq_true_eq] at h
    exact h.1
  | locatedMasked mask location =>
    simp only [isPattern, Bool.and_eq_true, decide_eq_true_eq] at h
    exact h.2.1
  | _ => cases hu

/-- No pattern of the factory takes anything from the dictionary. -/
def Factory.Independent (F : Factory n) : Prop := ∀ head ∈ F.heads, head.template.usesDictionary = false

/-- The pattern that is found restores the value, from the entry that it was found for if it is a match. -/
theorem Factory.getPattern_spec (F : Factory n) (bytes dict_bytes : DictionaryEntry n) (match_location : Int) :
    (F.getPattern bytes dict_bytes match_location).matchLocation = match_location ∧
      ((∀ e, (F.getPattern bytes dict_bytes match_location).decompress e = bytes) ∨
        ¬ F.Independent ∧ 0 ≤ match_location ∧
          (F.getPattern bytes dict_bytes match_location).decompress dict_bytes = bytes) := by
  unfold getPattern
  split
  · rename_i head hfind
    have hp := List.find?_some hfind
    refine ⟨rfl, ?_⟩
    cases hu : head.template.usesDictionary with
    | false =>
      refine .inl fun e => head.decompress_build hp ?_
      simp [hu]
    | true =>
      refine .inr ⟨fun hind => ?_, PatternClass.location_nonneg hp hu, head.decompress_build hp fun _ => rfl⟩
      rw [hind head (List.mem_of_find?_eq_some hfind)] at hu
      cases hu
  · have hlast : F.last.template.isPattern bytes dict_bytes match_location = true := by
      rw [F.last_uncompressed]
      rfl
    refine ⟨rfl, .inl fun e => F.last.decompress_build hlast ?_⟩
    · rw [F.last_uncompressed]
      intro hu
      cases hu

/-! ## A value -/

namespace Compressor

variable {C : Compressor n size} {d : Dictionary n size}

/-- The pattern gives the value back, by itself or from an entry that the dictionary has. -/
def Restores (C : Compressor n size) (d : Dictionary n size) (bytes : DictionaryEntry n) (p : Pattern n) : Prop :=
  (∀ e, p.decompress e = bytes) ∨
    ¬ C.factory.Independent ∧ ∃ i e, p.matchLocation = Int.ofNat i ∧ i < d.numEntries ∧ d.dictionary[i]? = some e ∧
      p.decompress e = bytes

/-- **The pattern that is chosen restores the value.** -/
theorem bestPattern_restores (C : Compressor n size) (d : Dictionary n size) (bytes : DictionaryEntry n) :
    C.Restores d bytes (C.bestPattern d bytes) := by
  refine List.foldlRecOn _ _ ?_ ?_
  · rcases (C.factory.getPattern_spec bytes (toDictionaryEntry 0) (-1)).2 with h | ⟨-, h, -⟩
    · exact .inl h
    · exact absurd h (by decide)
  · intro pattern hpattern e he
    obtain ⟨entry, i⟩ := e
    simp only
    split
    · obtain ⟨hloc, hspec⟩ := C.factory.getPattern_spec bytes entry i
      rw [List.mem_zipIdx_iff_getElem?, List.getElem?_take] at he
      split at he
      · rename_i hi
        rcases hspec with h | ⟨hdep, -, h⟩
        · exact .inl h
        · exact .inr ⟨hdep, i, entry, hloc, hi, he, h⟩
      · cases he
    · exact hpattern

/-- If all patterns allocate, so does the one that is chosen. -/
theorem bestPattern_allocate (hall : ∀ head ∈ C.factory.last :: C.factory.heads, head.template.shouldAllocate = true)
    (d : Dictionary n size) (bytes : DictionaryEntry n) : (C.bestPattern d bytes).allocate = true := by
  have hfound : ∀ dict_bytes match_location,
    (C.factory.getPattern bytes dict_bytes match_location).allocate = true := by
    intro dict_bytes match_location
    unfold Factory.getPattern
    split
    · rename_i head hfind
      exact hall head (List.mem_cons_of_mem _ (List.mem_of_find?_eq_some hfind))
    · exact hall _ List.mem_cons_self
  refine List.foldlRecOn (motive := fun p : Pattern n => p.allocate = true) _ _ (hfound _ _) ?_
  intro pattern hpattern e _
  simp only
  split
  · exact hfound _ _
  · exact hpattern

/-- What is added to the dictionary for a value. -/
def allocated (C : Compressor n size) (d : Dictionary n size) (p : Pattern n) (bytes : DictionaryEntry n) :
    Except Err (Dictionary n size) :=
  if p.allocate then C.addToDictionary d bytes else .ok d

theorem compressValue_eq (data : Value n) :
    C.compressValue d data = (C.allocated d (C.bestPattern d (toDictionaryEntry data)) (toDictionaryEntry data)).map
      fun d' => (C.bestPattern d (toDictionaryEntry data), d') := by
  unfold compressValue allocated
  simp only
  split <;> rfl

/-- The entry that a match is restored from is found where the pattern says, as long as eight bits say it. -/
theorem decompressValue_eq {p : Pattern n} {data : Value n} (h : C.Restores d (toDictionaryEntry data) p)
    (hloc : d.numEntries ≤ 256 ∨ C.factory.Independent) (stray : DictionaryEntry n) :
    C.decompressValue d p stray = (C.allocated d p (toDictionaryEntry data)).map fun d' => (data, d') := by
  have hdata : p.decompress (d.dictionary.getD p.getMatchLocation.toNat stray) = toDictionaryEntry data := by
    rcases h with h | ⟨hdep, i, e, hi, hlt, hget, h⟩
    · exact h _
    · have hle : d.numEntries ≤ 256 := hloc.resolve_right hdep
      have hnat : p.getMatchLocation.toNat = i := by
        rw [Pattern.getMatchLocation, hi, Int.ofNat_eq_natCast, BitVec.ofInt_natCast, BitVec.toNat_ofNat]
        exact Nat.mod_eq_of_lt (by omega)
      rw [hnat, List.getD_eq_getElem?_getD, hget, Option.getD_some, h]
  unfold decompressValue allocated
  simp only [hdata, fromDictionaryEntry_toDictionaryEntry]
  split <;> rfl

/-! ## A line -/

/-- The dictionary has room for `k` more values: `addToDictionary` works, and eight bits name an entry that is
matched. -/
structure Allocates (C : Compressor n size) (Room : Dictionary n size → Nat → Prop) : Prop where
  add : ∀ d k bytes, Room d (k + 1) → ∃ d', C.addToDictionary d bytes = .ok d' ∧ Room d' k
  keep : ∀ d k, Room d (k + 1) → Room d k
  located : ∀ d k, Room d (k + 1) → d.numEntries ≤ 256 ∨ C.factory.Independent

variable {Room : Dictionary n size → Nat → Prop}

theorem allocated_room (h : C.Allocates Room) {k : Nat} (hd : Room d (k + 1)) (p : Pattern n)
    (bytes : DictionaryEntry n) : ∃ d', C.allocated d p bytes = .ok d' ∧ Room d' k := by
  unfold allocated
  split
  · exact h.add d k bytes hd
  · exact ⟨d, rfl, h.keep d k hd⟩

/-- **Decompression goes through the dictionaries that compression went through**, and gives the values that it was
given. -/
theorem decompressValues_compressValues (h : C.Allocates Room) : ∀ {values : List (Value n)} {d : Dictionary n size},
    Room d values.length → ∀ comp : CompData n, ∃ ps comp' d', C.compressValues comp d values = .ok (comp', d') ∧
      comp'.entries = comp.entries ++ ps ∧ Room d' 0 ∧
      ∀ stray, C.decompressValues d stray ps = .ok (values, d')
  | [], d, hd, comp => ⟨[], comp, d, rfl, (List.append_nil _).symm, hd, fun _ => rfl⟩
  | value :: values, d, hd, comp => by
    have hres := C.bestPattern_restores d (toDictionaryEntry value)
    obtain ⟨d₁, hd₁, hroom⟩ := allocated_room h hd (C.bestPattern d (toDictionaryEntry value)) (toDictionaryEntry value)
    obtain ⟨ps, comp', d', hcomp, hentries, hroom', hdecomp⟩ :=
      decompressValues_compressValues h hroom (comp.addEntry (C.bestPattern d (toDictionaryEntry value)))
    refine ⟨C.bestPattern d (toDictionaryEntry value) :: ps, comp', d', ?_, ?_, hroom', fun stray => ?_⟩
    · rw [compressValues, compressValue_eq, hd₁]
      exact hcomp
    · rw [hentries, CompData.addEntry, List.append_assoc]
      rfl
    · rw [decompressValues, decompressValue_eq hres (h.located d _ hd), hd₁]
      simp only [Except.map, bind, Except.bind, hdecomp]
      rfl

theorem length_values (line : List (BitVec 64)) : (values (n := n) line).length = line.length * (8 / n) := by
  simp [values]

/-- The words are made of the values that they were read as. -/
theorem concatenate_values (hn : n ∣ 8) {blkSize : Nat} {line : List (BitVec 64)} (hline : line.length = blkSize / 8) :
    concatenate blkSize (values (n := n) line) = line := by
  have hpos : 0 < n := Nat.pos_of_dvd_of_pos hn (by decide)
  have hw : 64 ≤ 8 / n * (8 * n) := by
    rw [Nat.mul_left_comm, Nat.div_mul_cancel hn]
  apply List.ext_getElem?
  intro i
  rw [concatenate, List.getElem?_map, ← hline]
  by_cases hi : i < line.length
  · rw [List.getElem?_range hi, Option.map_some, List.getElem?_eq_getElem hi, Option.some.injEq]
    apply place_digits (by omega) hw
    intro j hj
    rw [List.getD_eq_getElem?_getD, values, getElem?_flatMap_digits hi hj, Option.getD_some]
  · rw [List.getElem?_eq_none (by simpa using hi), List.getElem?_eq_none (by simpa using hi), Option.map_none]

/-- **A line comes back**, whatever the dictionary holds before it is compressed and before it is decompressed. -/
theorem decompress_compress (h : C.Allocates Room) (hn : n ∣ 8) {blkSize : Nat} {d₀ : Dictionary n size}
    (hreset : ∀ d, C.resetDictionary d = .ok d₀) {line : List (BitVec 64)} (hline : line.length = blkSize / 8)
    (hroom : Room d₀ (line.length * (8 / n))) (d : Dictionary n size) :
    ∃ comp d', C.compress d line = .ok (comp, d') ∧ C.compressValues ⟨[], 0⟩ d₀ (values line) = .ok (comp, d') ∧
      ∀ entries size, entries = comp.entries →
      ∀ d₁ stray, C.decompress blkSize d₁ ⟨entries, size⟩ stray = .ok (line, d') := by
  rw [← length_values] at hroom
  obtain ⟨ps, comp, d', hcomp, hentries, -, hdecomp⟩ := decompressValues_compressValues h hroom ⟨[], 0⟩
  refine ⟨comp, d', ?_, hcomp, ?_⟩
  · rw [compress, hreset]
    exact hcomp
  · rintro entries size rfl d₁ stray
    rw [decompress, hreset, hentries, List.nil_append]
    simp only [bind, Except.bind, hdecomp, concatenate_values hn hline]
    rfl

end Compressor

end Compressor

end Salam.Cache
