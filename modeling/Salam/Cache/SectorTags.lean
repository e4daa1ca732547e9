import Salam.Cache.SectorAddr
import Salam.Cache.SectorBlk
import Salam.Lib.System

/-!
# `SectorTags`

Tags for sectors of blocks with consecutive addresses: a sector has one tag, and each of its blocks its own valid bit.
Which entry is the victim of a replacement is the choice of the policy, any of the possible entries.

* `Inv`: what was inserted, and where it is.
* `findBlock_iff`: a lookup finds the block that was inserted for the address and security, if there is one.
* `sector_tags_consistent`: so it is in every run, and nothing panics, as long as no sector gets 256 valid blocks and
  the addresses of the sets fit in 32 bits.
-/

namespace Salam.Cache

open Function (update_of_ne update_self update)

open Base (Addr)
open SectorBlk (Err)
open SectorParams

/-- The sectors, at their positions. -/
abbrev SectorTags (P : SectorParams) : Type := P.Entry → SectorBlk P.numBlocksPerSector

namespace SectorTags

variable {P : SectorParams}

def tagsInit (P : SectorParams) : SectorTags P := fun _ => .fresh

def blk (s : SectorTags P) (b : P.Loc) : SubBlk := (s b.1).blks b.2

def findBlock (s : SectorTags P) (addr : Addr) (is_secure : Bool) : Option P.Loc :=
  let offset := P.extractSectorOffset addr
  ((P.getPossibleEntries addr).find? fun e =>
    (s e).tag = P.extractTag addr && (s.blk (e, offset)).valid && (s.blk (e, offset)).secure = is_secure).map fun
      e => (e, offset)

/-- The sector of an address is allocated to the entry. -/
def allocated (s : SectorTags P) (addr : Addr) (is_secure : Bool) (e : P.Entry) : Bool :=
  (s e).tag = P.extractTag addr && (s e).isValid && (s e).secureBit = is_secure

/-- `findVictim`, with the way that the replacement policy chooses; the victim, and the blocks to evict. -/
def findVictim (s : SectorTags P) (addr : Addr) (is_secure : Bool) (way : Fin P.assoc) :
    Except Err (P.Loc × List P.Loc) :=
  let victim_sector := ((P.getPossibleEntries addr).find? (s.allocated addr is_secure)).getD (P.entryOf addr way)
  let victim := (victim_sector, P.extractSectorOffset addr)
  if (s victim_sector).tag = P.extractTag addr ∧ (s victim_sector).secureBit = is_secure then
    if (s.blk victim).valid then .error .assertion else .ok (victim, [])
  else .ok (victim, (List.finRange P.numBlocksPerSector).map fun k => (victim_sector, k))

def invalidate (s : SectorTags P) (b : P.Loc) : Except Err (SectorTags P) :=
  if (s.blk b).valid then .ok (Function.update s b.1 ((s b.1).invalidate b.2)) else .error .assertion

def insertBlock (s : SectorTags P) (addr : Addr) (is_secure : Bool) (b : P.Loc) : Except Err (SectorTags P) :=
  if (s.blk b).valid then .error .assertion
  else do
    let sector_blk ← (s b.1).insert b.2 (P.extractTag addr) is_secure
    return Function.update s b.1 sector_blk

def regenerateBlkAddr (s : SectorTags P) (b : P.Loc) : Addr :=
  let sec_addr := P.indexing.regenerateAddr P.policy (s.blk b).tag (BitVec.ofNat 32 b.1.1.1) b.1.2.1
  sec_addr ||| (BitVec.ofNat 64 b.2.1 <<< P.sectorShift)

/-- The valid ones of the blocks are invalidated. -/
def evict (s : SectorTags P) (evict_blks : List P.Loc) : Except Err (SectorTags P) :=
  evict_blks.foldlM (fun s b => if (s.blk b).valid then s.invalidate b else .ok s) s

theorem blk_update_of_ne {s : SectorTags P} {b c : P.Loc} {t : SectorBlk P.numBlocksPerSector}
    (hblks : ∀ i, i ≠ b.2 → t.blks i = (s b.1).blks i) (hc : c ≠ b) : blk (update s b.1 t) c = s.blk c := by
  rw [blk, blk]
  by_cases hcb : c.1 = b.1
  · have hk : c.2 ≠ b.2 := fun hk => hc (Prod.ext hcb hk)
    rw [hcb, update_self, hblks _ hk]
  · rw [update_of_ne hcb]

/-! ## Runs -/

/-- The tags, and the block address and security that were inserted in each block and not invalidated since. -/
structure Run (P : SectorParams) where
  tags : SectorTags P
  inserted : P.Loc → Option (Addr × Bool)

namespace Run

inductive Op (P : SectorParams)
  | allocate (addr : Addr) (is_secure : Bool) (way : Fin P.assoc)
  | invalidate (b : P.Loc)

/-- What is allocated has no valid block, and what is invalidated is valid. -/
def Allowed (R : Run P) : Op P → Prop
  | .allocate addr is_secure _ => R.tags.findBlock addr is_secure = none
  | .invalidate b => (R.tags.blk b).valid = true

instance (R : Run P) : DecidablePred R.Allowed
  | .allocate _ _ _ => inferInstanceAs (Decidable (_ = _))
  | .invalidate _ => inferInstanceAs (Decidable (_ = _))

def exec (R : Run P) : Op P → Except Err (Run P)
  | .allocate addr is_secure way => do
    let (victim, evict_blks) ← R.tags.findVictim addr is_secure way
    let tags ← R.tags.evict evict_blks
    let tags ← tags.insertBlock addr is_secure victim
    return { tags, inserted := Function.update (fun b => if b ∈ evict_blks then none else R.inserted b) victim
                     (some (P.blkAlign addr, is_secure)) }
  | .invalidate b => do
    let tags ← R.tags.invalidate b
    return { tags, inserted := Function.update R.inserted b none }

def start (P : SectorParams) : Run P := ⟨tagsInit P, fun _ => none⟩

def system (P : SectorParams) : System (Run P) (Op P) where
  init R := R = start P
  step R op := if R.Allowed op then (R.exec op).toOption else none

/-- A block is put in a sector with fewer than 255 valid blocks, at an address the set of which fits in 32 bits. -/
def Meets (R : Run P) : Op P → Prop
  | .allocate addr is_secure _ => P.Fits addr ∧
    ∀ e ∈ P.getPossibleEntries addr, R.tags.allocated addr is_secure e = true → (R.tags e).validBlocks < 255
  | .invalidate _ => True

instance (R : Run P) : DecidablePred R.Meets
  | .allocate _ _ _ => inferInstanceAs (Decidable (_ ∧ ∀ e ∈ _, _))
  | .invalidate _ => inferInstanceAs (Decidable True)

/-! ## The invariant -/

/-- The block is what was inserted. -/
structure Holds (s : SectorTags P) (b : P.Loc) (addr : Addr) (is_secure : Bool) : Prop where
  valid : (s.blk b).valid = true
  tag : (s b.1).tag = P.extractTag addr
  secure : (s.blk b).secure = is_secure
  entry : P.entryOf addr b.1.2 = b.1
  offset : P.extractSectorOffset addr = b.2
  aligned : P.blkAlign addr = addr
  fits : P.Fits addr

structure Inv (s : SectorTags P) (ins : P.Loc → Option (Addr × Bool)) : Prop where
  sector : ∀ e, (s e).Ok
  holds : ∀ b addr is_secure, ins b = some (addr, is_secure) → Holds s b addr is_secure
  empty : ∀ b, ins b = none → (s.blk b).valid = false
  /-- A sector is in one entry. -/
  apart : ∀ b b' addr addr' is_secure, ins b = some (addr, is_secure) → ins b' = some (addr', is_secure) →
    P.sectorOf addr = P.sectorOf addr' → b.1 = b'.1

section Inv

variable {s : SectorTags P} {ins : P.Loc → Option (Addr × Bool)} {b : P.Loc} {e : P.Entry}
  {addr : Addr} {is_secure : Bool}

theorem tagsInit_inv : Inv (tagsInit P) fun _ => none := by
  constructor
  · exact fun _ => SectorBlk.ok_fresh
  · intro b addr is_secure h
    cases h
  · exact fun _ _ => rfl
  · intro b b' addr addr' is_secure h
    cases h

section

variable (h : Inv s ins)
include h

theorem Inv.inserted_of_valid (hv : (s.blk b).valid = true) : ∃ addr, ins b = some (addr, (s.blk b).secure) := by
  cases hins : ins b with
  | none =>
    rw [h.empty b hins] at hv
    cases hv
  | some p =>
    obtain ⟨addr, is_secure⟩ := p
    exact ⟨addr, by rw [(h.holds b addr is_secure hins).secure]⟩

/-- A valid block whose sector has the tag of the address, in one of its entries, is of the sector of the address. -/
theorem Inv.sectorOf_eq {addr' : Addr} (hins : ins b = some (addr', is_secure)) (htag : (s b.1).tag = P.extractTag addr)
    (hentry : P.entryOf addr b.1.2 = b.1) : P.sectorOf addr' = P.sectorOf addr := by
  have hb := h.holds b addr' is_secure hins
  exact sectorOf_inj (hb.tag.symm.trans htag) (hb.entry.trans hentry.symm)

/-- **A lookup** finds the block that holds the address. -/
theorem Inv.findBlock_iff : s.findBlock addr is_secure = some b ↔ ins b = some (P.blkAlign addr, is_secure) := by
  have hfound : ∀ {b}, s.findBlock addr is_secure = some b → ins b = some (P.blkAlign addr, is_secure) := by
    intro b hb
    obtain ⟨e, he, rfl⟩ := Option.map_eq_some_iff.mp hb
    have hp := List.find?_some he
    simp only [Bool.and_eq_true, decide_eq_true_eq] at hp
    obtain ⟨⟨htag, hvalid⟩, hsec⟩ := hp
    obtain ⟨addr', hins⟩ := h.inserted_of_valid hvalid
    rw [hsec] at hins
    have hholds := h.holds _ _ _ hins
    have hsector := h.sectorOf_eq hins htag (mem_getPossibleEntries.mp (List.mem_of_find?_eq_some he))
    rw [hins, ← hholds.aligned, blkAlign_inj hsector hholds.offset]
  constructor
  · exact hfound
  · intro hins
    have hb := h.holds b _ _ hins
    have hsector : P.sectorOf (P.blkAlign addr) = P.sectorOf addr := sectorOf_blkAlign
    have hoff : P.extractSectorOffset addr = b.2 := offset_blkAlign.symm.trans hb.offset
    have hmem : b.1 ∈ P.getPossibleEntries addr :=
      mem_getPossibleEntries.mpr ((entryOf_congr hsector _).symm.trans hb.entry)
    cases hfind : s.findBlock addr is_secure with
    | none =>
      have hnone := List.find?_eq_none.mp (Option.map_eq_none_iff.mp hfind) b.1 hmem
      have hloc : (b.1, P.extractSectorOffset addr) = b := Prod.ext rfl hoff
      simp [hloc, hb.valid, hb.secure, hb.tag.trans (extractTag_congr hsector)] at hnone
    | some b' =>
      have hins' := hfound hfind
      have hentry : b'.1 = b.1 := h.apart _ _ _ _ _ hins' hins rfl
      have hoff' := (h.holds b' _ _ hins').offset
      rw [Prod.ext hentry (hoff'.symm.trans hb.offset)]

/-- The address that was inserted is regenerated. -/
theorem Inv.regenerateBlkAddr_eq (hins : ins b = some (addr, is_secure)) : s.regenerateBlkAddr b = addr := by
  have hb := h.holds b addr is_secure hins
  have htag : (s.blk b).tag = P.extractTag addr := ((h.sector b.1).tag b.2 hb.valid).trans hb.tag
  have hset : BitVec.ofNat 32 b.1.1.1 = (P.indexing.extractSet P.policy addr b.1.2.1).setWidth 32 := by
    rw [← hb.entry]
    apply BitVec.eq_of_toNat_eq
    rfl
  have hfit : P.policy = .setAssociative →
      (P.indexing.extractSet P.policy addr b.1.2.1).toNat * 2 ^ P.indexing.setShift < 2 ^ 32 := by
    intro hp
    have := hb.fits hp
    rw [hp] at this ⊢
    exact this
  have hoff : BitVec.ofNat 64 b.2.1 = (addr >>> P.sectorShift) &&& P.sectorMask := by
    have hval : b.2.1 = ((addr >>> P.sectorShift) &&& P.sectorMask).toNat := by
      rw [← hb.offset]
      rfl
    rw [hval, BitVec.ofNat_toNat, BitVec.setWidth_eq]
  rw [regenerateBlkAddr, htag, hset, extractTag, IndexingParams.regenerateAddr_extract P.accepts hfit, hoff]
  exact blkAlign_eq.trans hb.aligned

theorem Inv.invalidate (hv : (s.blk b).valid = true) : ∃ s', s.invalidate b = .ok s' ∧ Inv s' (update ins b none) := by
  refine ⟨update s b.1 ((s b.1).invalidate b.2), if_pos hv, ?_⟩
  have hother : ∀ c : P.Loc, c ≠ b → SectorTags.blk (update s b.1 ((s b.1).invalidate b.2)) c = s.blk c :=
    fun c hc => blk_update_of_ne (fun _ hk => update_of_ne hk _ _) hc
  have htag : ∀ e, (update s b.1 ((s b.1).invalidate b.2) e).tag = (s e).tag := by
    intro e
    by_cases he : e = b.1
    · rw [he, update_self]
      rfl
    · rw [update_of_ne he]
  constructor
  · intro e
    by_cases he : e = b.1
    · rw [he, update_self]
      exact (h.sector b.1).invalidate hv
    · rw [update_of_ne he]
      exact h.sector e
  · intro c addr is_secure hins
    by_cases hc : c = b
    · rw [hc, update_self] at hins
      cases hins
    · rw [update_of_ne hc] at hins
      obtain ⟨hvalid, htg, hsec, hentry, hoff, hal, hfits⟩ := h.holds c addr is_secure hins
      exact ⟨(congrArg SubBlk.valid (hother c hc)).trans hvalid, (htag c.1).trans htg,
        (congrArg SubBlk.secure (hother c hc)).trans hsec, hentry, hoff, hal, hfits⟩
  · intro c hins
    by_cases hc : c = b
    · rw [hc, blk]
      simp [SectorBlk.invalidate, SectorBlk.setBlk, SectorBlk.invalidateSubBlk]
    · rw [update_of_ne hc] at hins
      exact (congrArg SubBlk.valid (hother c hc)).trans (h.empty c hins)
  · intro c c' addr addr' is_secure hins hins' hsector
    by_cases hc : c = b
    · rw [hc, update_self] at hins
      cases hins
    · by_cases hc' : c' = b
      · rw [hc', update_self] at hins'
        cases hins'
      · rw [update_of_ne hc] at hins
        rw [update_of_ne hc'] at hins'
        exact h.apart c c' addr addr' is_secure hins hins' hsector

theorem Inv.evict (l : List P.Loc) : ∃ s', s.evict l = .ok s' ∧ Inv s' fun b => if b ∈ l then none else ins b := by
  induction l generalizing s ins with
  | nil => exact ⟨s, rfl, by simpa using h⟩
  | cons b l ih =>
    by_cases hv : (s.blk b).valid = true
    · obtain ⟨s₁, hok, h₁⟩ := h.invalidate hv
      obtain ⟨s', hok', h'⟩ := ih h₁
      refine ⟨s', ?_, ?_⟩
      · rw [SectorTags.evict, List.foldlM_cons, if_pos hv, hok]
        exact hok'
      · have hins : (fun c => if c ∈ b :: l then none else ins c) = fun c => if c ∈ l then none
          else update ins b none c := by
          funext c
          by_cases hc : c = b
          · simp [hc]
          · simp [hc]
        rw [hins]
        exact h'
    · obtain ⟨s', hok', h'⟩ := ih h
      refine ⟨s', ?_, ?_⟩
      · rw [SectorTags.evict, List.foldlM_cons, if_neg hv]
        exact hok'
      · have hnone : ins b = none := by
          cases hb : ins b with
          | none => rfl
          | some p => exact absurd (h.holds b p.1 p.2 hb).valid hv
        have hins : (fun c => if c ∈ b :: l then none else ins c) = fun c => if c ∈ l then none else ins c := by
          funext c
          by_cases hc : c = b
          · simp [hc, hnone]
          · simp [hc]
        rw [hins]
        exact h'

end

theorem Inv.insertBlock (b : P.Loc) (addr : Addr) (is_secure : Bool) (h : Inv s ins) (hnone : ins b = none)
    (hsame : (s b.1).validBlocks = 0 ∨ (s b.1).tag = P.extractTag addr ∧ (s b.1).secureBit = is_secure)
    (hlt : (s b.1).validBlocks < 255) (hentry : P.entryOf addr b.1.2 = b.1) (hoff : P.extractSectorOffset addr = b.2)
    (hfits : P.Fits addr)
    (hapart : ∀ c addr', ins c = some (addr', is_secure) → P.sectorOf addr' = P.sectorOf addr → c.1 = b.1) :
    ∃ s', s.insertBlock addr is_secure b = .ok s' ∧ Inv s' (update ins b (some (P.blkAlign addr, is_secure))) := by
  have hv : (s.blk b).valid = false := h.empty b hnone
  obtain ⟨t, hok, ht, htag, hbit, hcount, hblks, hself⟩ :=
    (h.sector b.1).insert b.2 (P.extractTag addr) is_secure hv hlt hsame
  have hsector : P.sectorOf (P.blkAlign addr) = P.sectorOf addr := sectorOf_blkAlign
  refine ⟨update s b.1 t, ?_, ?_⟩
  · rw [SectorTags.insertBlock, hv, if_neg (by simp), hok]
    rfl
  have hother : ∀ c : P.Loc, c ≠ b → SectorTags.blk (update s b.1 t) c = s.blk c :=
    fun c hc => blk_update_of_ne hblks hc
  have hnew : SectorTags.blk (update s b.1 t) b = { s.blk b with tag := P.extractTag addr, valid := true,
                                                                          secure := is_secure } := by
    rw [blk, update_self, hself]
    rfl
  constructor
  · intro e
    by_cases he : e = b.1
    · rw [he, update_self]
      exact ht
    · rw [update_of_ne he]
      exact h.sector e
  · intro c addr' is_secure' hins
    by_cases hc : c = b
    · subst hc
      rw [update_self] at hins
      obtain ⟨rfl, rfl⟩ := Prod.mk.inj (Option.some.inj hins)
      refine ⟨by rw [hnew], ?_, by rw [hnew], ?_, ?_, blkAlign_idem, fits_congr hsector.symm hfits⟩
      · simp only [update_self, htag]
        exact extractTag_congr hsector.symm
      · exact (entryOf_congr hsector _).trans hentry
      · exact offset_blkAlign.trans hoff
    · rw [update_of_ne hc] at hins
      obtain ⟨hvalid, htg, hsec, hent, hof, hal, hfit⟩ := h.holds c addr' is_secure' hins
      refine ⟨(congrArg SubBlk.valid (hother c hc)).trans hvalid, ?_,
        (congrArg SubBlk.secure (hother c hc)).trans hsec, hent, hof, hal, hfit⟩
      by_cases hcb : c.1 = b.1
      · -- the sector has another valid block, and so this tag already
        have hpos : 0 < (s b.1).validBlocks := by
          rw [← hcb]
          exact SectorBlk.validBlocks_pos hvalid
        have hkeep := (hsame.resolve_left (by omega)).1
        simp only [hcb, update_self, htag]
        rw [← hkeep, ← hcb]
        exact htg
      · simp only [update_of_ne hcb]
        exact htg
  · intro c hins
    by_cases hc : c = b
    · rw [hc, update_self] at hins
      cases hins
    · rw [update_of_ne hc] at hins
      exact (congrArg SubBlk.valid (hother c hc)).trans (h.empty c hins)
  · intro c c' addr₁ addr₂ is_secure' hins hins' heq
    by_cases hc : c = b
    · by_cases hc' : c' = b
      · rw [hc, hc']
      · rw [hc, update_self] at hins
        rw [update_of_ne hc'] at hins'
        obtain ⟨rfl, rfl⟩ := Prod.mk.inj (Option.some.inj hins)
        rw [hc]
        exact (hapart c' addr₂ hins' (heq.symm.trans hsector)).symm
    · rw [update_of_ne hc] at hins
      by_cases hc' : c' = b
      · rw [hc', update_self] at hins'
        obtain ⟨rfl, rfl⟩ := Prod.mk.inj (Option.some.inj hins')
        rw [hc']
        exact hapart c addr₁ hins (heq.trans hsector)
      · rw [update_of_ne hc'] at hins'
        exact h.apart c c' addr₁ addr₂ is_secure' hins hins' heq

/-- A sector of the address is where `findVictim` looks for it. -/
theorem Inv.allocated_of_inserted (h : Inv s ins) {addr' : Addr} (hins : ins b = some (addr', is_secure))
    (hsector : P.sectorOf addr' = P.sectorOf addr) :
    b.1 ∈ P.getPossibleEntries addr ∧ s.allocated addr is_secure b.1 = true := by
  have hb := h.holds b addr' is_secure hins
  have hvalid : (s b.1).isValid = true :=
    (h.sector b.1).isValid_iff.mpr (SectorBlk.validBlocks_pos hb.valid)
  have hbit : (s b.1).secureBit = is_secure := ((h.sector b.1).secure b.2 hb.valid).symm.trans hb.secure
  refine ⟨mem_getPossibleEntries.mpr ((entryOf_congr hsector _).symm.trans hb.entry), ?_⟩
  simp [allocated, hvalid, hbit, hb.tag.trans (extractTag_congr hsector)]

theorem Inv.allocated_inj (h : Inv s ins) {e e' : P.Entry} (he : e ∈ P.getPossibleEntries addr)
    (he' : e' ∈ P.getPossibleEntries addr) (ha : s.allocated addr is_secure e = true)
    (ha' : s.allocated addr is_secure e' = true) : e = e' := by
  have hins : ∀ {e}, e ∈ P.getPossibleEntries addr → s.allocated addr is_secure e = true →
      ∃ k addr', ins (e, k) = some (addr', is_secure) ∧ P.sectorOf addr' = P.sectorOf addr := by
    intro e he ha
    simp only [allocated, Bool.and_eq_true, decide_eq_true_eq] at ha
    obtain ⟨⟨htag, hvalid⟩, hbit⟩ := ha
    obtain ⟨k, hk⟩ := Finset.card_pos.mp ((h.sector e).isValid_iff.mp hvalid)
    have hk : ((s e).blks k).valid = true := (Finset.mem_filter.mp hk).2
    obtain ⟨addr', hins⟩ := h.inserted_of_valid (b := (e, k)) hk
    have hsec : (s.blk (e, k)).secure = is_secure := ((h.sector e).secure k hk).trans hbit
    rw [hsec] at hins
    exact ⟨k, addr', hins, h.sectorOf_eq hins htag (mem_getPossibleEntries.mp he)⟩
  obtain ⟨k, a, hk, hs⟩ := hins he ha
  obtain ⟨k', a', hk', hs'⟩ := hins he' ha'
  exact h.apart _ _ _ _ _ hk hk' (hs.trans hs'.symm)

/-- The blocks of an entry. -/
def allBlks (e : P.Entry) : List P.Loc := (List.finRange P.numBlocksPerSector).map fun k => (e, k)

theorem mem_allBlks (k : Fin P.numBlocksPerSector) : (e, k) ∈ allBlks e :=
    List.mem_map.mpr ⟨k, List.mem_finRange k, rfl⟩

/-- **The victim** is in the entry that has the sector, or in one that is emptied if it has blocks of another sector. -/
theorem Inv.findVictim_spec (h : Inv s ins) (hmiss : s.findBlock addr is_secure = none) (way : Fin P.assoc) :
    ∃ e evict_blks, s.findVictim addr is_secure way = .ok ((e, P.extractSectorOffset addr), evict_blks) ∧
      P.entryOf addr e.2 = e ∧
      (evict_blks = [] ∧ (s.blk (e, P.extractSectorOffset addr)).valid = false ∧
          ((s e).validBlocks = 0 ∨ s.allocated addr is_secure e = true) ∨ evict_blks = allBlks e) ∧
      ∀ e' ∈ P.getPossibleEntries addr, s.allocated addr is_secure e' = true → e' = e := by
  cases hfind : (P.getPossibleEntries addr).find? (s.allocated addr is_secure) with
  | some e =>
    have hmem := List.mem_of_find?_eq_some hfind
    have ha := List.find?_some hfind
    have hmatch := ha
    simp only [allocated, Bool.and_eq_true, decide_eq_true_eq] at hmatch
    obtain ⟨⟨htag, -⟩, hbit⟩ := hmatch
    have hv : (s.blk (e, P.extractSectorOffset addr)).valid = false := by
      cases hv : (s.blk (e, P.extractSectorOffset addr)).valid with
      | false => rfl
      | true =>
        obtain ⟨addr', hins⟩ := h.inserted_of_valid hv
        have hsec : (s.blk (e, P.extractSectorOffset addr)).secure = is_secure := ((h.sector e).secure _ hv).trans hbit
        rw [hsec] at hins
        have hb := h.holds _ _ _ hins
        have hsector := h.sectorOf_eq hins htag (mem_getPossibleEntries.mp hmem)
        rw [← hb.aligned, blkAlign_inj hsector hb.offset, ← h.findBlock_iff, hmiss] at hins
        cases hins
    refine ⟨e, [], ?_, mem_getPossibleEntries.mp hmem, .inl ⟨rfl, hv, .inr ha⟩, fun e' he' ha' => ?_⟩
    · simp only [findVictim, hfind, Option.getD_some, htag, hbit, and_self, if_true, hv, Bool.false_eq_true, if_false]
    · exact h.allocated_inj he' hmem ha' ha
  | none =>
    have hnone := List.find?_eq_none.mp hfind
    have hentry : P.entryOf addr (P.entryOf addr way).2 = P.entryOf addr way := rfl
    have hmem : P.entryOf addr way ∈ P.getPossibleEntries addr := mem_getPossibleEntries.mpr hentry
    have hunique : ∀ e' ∈ P.getPossibleEntries addr, s.allocated addr is_secure e' = true → e' = P.entryOf addr way :=
      fun e' he' ha' => absurd ha' (hnone e' he')
    by_cases hmatch : (s (P.entryOf addr way)).tag = P.extractTag addr ∧ (s (P.entryOf addr way)).secureBit = is_secure
    · -- what is left of a sector without valid blocks
      have hzero : (s (P.entryOf addr way)).validBlocks = 0 := by
        by_contra hpos
        have hvalid := (h.sector (P.entryOf addr way)).isValid_iff.mpr (Nat.pos_of_ne_zero hpos)
        exact hnone _ hmem (by simp [allocated, hmatch.1, hmatch.2, hvalid])
      have hv := SectorBlk.valid_eq_false hzero (P.extractSectorOffset addr)
      refine ⟨_, [], ?_, hentry, .inl ⟨rfl, hv, .inl hzero⟩, hunique⟩
      simp only [findVictim, hfind, Option.getD_none, if_pos hmatch, blk, hv, Bool.false_eq_true, if_false]
    · refine ⟨_, allBlks (P.entryOf addr way), ?_, hentry, .inr rfl, hunique⟩
      simp only [findVictim, hfind, Option.getD_none, if_neg hmatch]
      rfl

theorem Inv.allocate (h : Inv s ins) {way : Fin P.assoc} (hA : Allowed ⟨s, ins⟩ (.allocate addr is_secure way))
    (hM : Meets ⟨s, ins⟩ (.allocate addr is_secure way)) :
    ∃ R', exec ⟨s, ins⟩ (.allocate addr is_secure way) = .ok R' ∧ Inv R'.tags R'.inserted := by
  obtain ⟨hfits, hroom⟩ := hM
  obtain ⟨e, evict_blks, hvictim, hentry, hcases, hunique⟩ := h.findVictim_spec hA way
  obtain ⟨s₁, hevict, h₁⟩ := h.evict evict_blks
  have hnone :
    (if (e, P.extractSectorOffset addr) ∈ evict_blks then none else ins (e, P.extractSectorOffset addr)) = none := by
    rcases hcases with ⟨-, hv, -⟩ | rfl
    · split
      · rfl
      · cases hins : ins (e, P.extractSectorOffset addr) with
        | none => rfl
        | some p =>
          have := (h.holds _ p.1 p.2 hins).valid
          rw [hv] at this
          cases this
    · rw [if_pos (mem_allBlks _)]
  -- the sector after the evictions
  have hsector : (s₁ e).validBlocks = 0 ∨
      ((s₁ e).tag = P.extractTag addr ∧ (s₁ e).secureBit = is_secure) ∧ (s₁ e).validBlocks < 255 := by
    rcases hcases with ⟨rfl, -, hzero | ha⟩ | rfl
    · obtain rfl : s = s₁ := Except.ok.inj hevict
      exact .inl hzero
    · obtain rfl : s = s₁ := Except.ok.inj hevict
      have hlt := hroom e (mem_getPossibleEntries.mpr hentry) ha
      simp only [allocated, Bool.and_eq_true, decide_eq_true_eq] at ha
      exact .inr ⟨⟨ha.1.1, ha.2⟩, hlt⟩
    · left
      rw [SectorBlk.validBlocks, Finset.card_eq_zero, Finset.filter_eq_empty_iff]
      intro k _
      have : (s₁.blk (e, k)).valid = false := h₁.empty (e, k) (if_pos (mem_allBlks k))
      simpa [blk] using this
  obtain ⟨s', hok, h'⟩ := h₁.insertBlock (e, P.extractSectorOffset addr) addr is_secure hnone
    (hsector.imp_right And.left) (hsector.elim (fun h0 => by rw [h0]; decide) And.right) hentry rfl hfits (by
      intro c addr' hins heq
      have hins' : ins c = some (addr', is_secure) := by
        split at hins
        · cases hins
        · exact hins
      obtain ⟨hmem, ha⟩ := h.allocated_of_inserted hins' heq
      exact hunique _ hmem ha)
  refine ⟨⟨s', _⟩, ?_, h'⟩
  simp only [exec, hvictim, bind, Except.bind, hevict, hok]
  rfl

/-- **Every step** that is allowed and meets the condition ends well, and keeps the invariant. -/
theorem Inv.exec (h : Inv s ins) {op : Op P} (hA : Allowed ⟨s, ins⟩ op) (hM : Meets ⟨s, ins⟩ op) :
    ∃ R', exec ⟨s, ins⟩ op = .ok R' ∧ Inv R'.tags R'.inserted := by
  cases op with
  | allocate addr is_secure way => exact h.allocate hA hM
  | invalidate b =>
    obtain ⟨s', hok, h'⟩ := h.invalidate hA
    refine ⟨⟨s', _⟩, ?_, h'⟩
    simp only [Run.exec, hok, bind, Except.bind]
    rfl

end Inv

theorem inv_of_reachable {R : Run P} (h : (system P).ReachableWhen Meets R) : Inv R.tags R.inserted := by
  refine System.invariantWhen (I := fun R => Inv R.tags R.inserted) ?_ ?_ h
  · rintro R rfl
    exact tagsInit_inv
  · rintro R op R' - hinv hM hstep
    obtain ⟨hA, hstep⟩ := Option.ite_none_right_eq_some.mp hstep
    obtain ⟨R'', hok, hinv'⟩ := hinv.exec hA hM
    obtain rfl : R'' = R' := Except.ok.inj (hok.symm.trans (ok_of_toOption hstep))
    exact hinv'

/-- **The tags are consistent** along every run that meets the condition. The valid blocks of a sector have its tag and
security and are counted; no two valid blocks have the same address and security; a lookup finds the block in which the
address was inserted; that address is regenerated; and no operation fails. -/
theorem sector_tags_consistent {R : Run P} (h : (system P).ReachableWhen Meets R) :
    (∀ b, (R.tags.blk b).valid = true →
      (R.tags.blk b).tag = (R.tags b.1).tag ∧ (R.tags.blk b).secure = (R.tags b.1).secureBit) ∧
    (∀ e, (R.tags e).validCounter.toNat = (R.tags e).validBlocks) ∧
    (∀ b b', (R.tags.blk b).valid = true → (R.tags.blk b').valid = true →
      R.tags.regenerateBlkAddr b = R.tags.regenerateBlkAddr b' →
      (R.tags.blk b).secure = (R.tags.blk b').secure → b = b') ∧
    (∀ addr is_secure b, R.tags.findBlock addr is_secure = some b ↔ R.inserted b = some (P.blkAlign addr, is_secure)) ∧
    (∀ b addr is_secure, R.inserted b = some (addr, is_secure) → R.tags.regenerateBlkAddr b = addr) ∧
    ∀ op, R.Allowed op → R.Meets op → ∃ R', R.exec op = .ok R' := by
  have hinv := inv_of_reachable h
  refine ⟨fun b hb => ⟨(hinv.sector b.1).tag b.2 hb, (hinv.sector b.1).secure b.2 hb⟩,
    fun e => (hinv.sector e).counter, ?_,
    fun _ _ _ => hinv.findBlock_iff, fun _ _ _ => hinv.regenerateBlkAddr_eq, fun op hA hM => ?_⟩
  · intro b b' hb hb' haddr hsec
    obtain ⟨addr, hins⟩ := hinv.inserted_of_valid hb
    obtain ⟨addr', hins'⟩ := hinv.inserted_of_valid hb'
    rw [hinv.regenerateBlkAddr_eq hins, hinv.regenerateBlkAddr_eq hins'] at haddr
    rw [← haddr, ← hsec] at hins'
    have hentry := hinv.apart _ _ _ _ _ hins hins' rfl
    exact Prod.ext hentry ((hinv.holds _ _ _ hins).offset.symm.trans (hinv.holds _ _ _ hins').offset)
  · obtain ⟨R', hok, -⟩ := hinv.exec hA hM
    exact ⟨R', hok⟩

/-! ## A sector that is full -/

/-- One set of one sector. -/
def oneSector (numBlocksPerSector : Nat) (h : ∃ k, numBlocksPerSector = 2 ^ k) (hlt : 4 * numBlocksPerSector < 2 ^ 31) :
    SectorParams where
  blkSize := 4
  numBlocksPerSector := numBlocksPerSector
  assoc := 1
  numSets := 1
  policy := .setAssociative
  blkSize_pow := ⟨2, rfl⟩
  four_le := le_rfl
  numBlocksPerSector_pow := h
  entry_size_lt := hlt
  assoc_pos := Nat.one_pos
  numSets_pow := ⟨0, rfl⟩
  numSets_lt := by decide
  skewed := nofun

theorem pow_256 : ∃ k, 256 = 2 ^ k := ⟨8, rfl⟩

/-- A sector of 256 blocks. -/
def bigSector : SectorParams := oneSector 256 pow_256 (by decide)

/-- The first `n` blocks of the sector are inserted. -/
def filled (n : Nat) : Run bigSector where
  tags _ := ⟨if n = 0 then BitVec.allOnes 64 else 0, BitVec.ofNat 8 n, false, fun k =>
    if k.1 < n then ⟨0, true, false, false, 0⟩ else ⟨BitVec.allOnes 64, false, false, false, 0⟩⟩
  inserted b := if b.2.1 < n then some (BitVec.ofNat 64 (4 * b.2.1), false) else none

section Filled

variable {n : Nat}

theorem evict_of_invalid {s : SectorTags P} {l : List P.Loc} (h : ∀ b ∈ l, (s.blk b).valid = false) :
    s.evict l = .ok s := by
  induction l with
  | nil => rfl
  | cons b l ih =>
    obtain ⟨hb, hl⟩ := List.forall_mem_cons.mp h
    rw [SectorTags.evict, List.foldlM_cons, if_neg (by simp [hb])]
    exact ih hl

theorem bigSector_tag (hn : n < 256) : bigSector.extractTag (BitVec.ofNat 64 (4 * n)) = 0 := by
  apply BitVec.eq_of_toNat_eq
  have hshift : bigSector.indexing.tagShift = 10 := by decide
  rw [SectorParams.extractTag, IndexingParams.extractTag, hshift, BitVec.toNat_ushiftRight, BitVec.toNat_ofNat,
    Nat.mod_eq_of_lt (by omega), Nat.shiftRight_eq_div_pow]
  exact Nat.div_eq_of_lt (by omega)

theorem bigSector_offset (hn : n < 256) : bigSector.extractSectorOffset (BitVec.ofNat 64 (4 * n)) = ⟨n, hn⟩ := by
  apply Fin.ext
  have hshift : bigSector.sectorShift = 2 := by decide
  have hmask : bigSector.sectorMask = 255 := by decide
  simp only [extractSectorOffset, hshift, hmask, BitVec.toNat_and, BitVec.toNat_ushiftRight, BitVec.toNat_ofNat]
  rw [Nat.mod_eq_of_lt (by omega), Nat.shiftRight_eq_div_pow]
  have hdiv : 4 * n / 2 ^ 2 = n := by omega
  rw [hdiv]
  exact (Nat.and_two_pow_sub_one_eq_mod n 8).trans (Nat.mod_eq_of_lt hn)

theorem bigSector_align : bigSector.blkAlign (BitVec.ofNat 64 (4 * n)) = BitVec.ofNat 64 (4 * n) := by
  apply BitVec.eq_of_getLsbD_eq
  intro i hi
  have hshift : bigSector.sectorShift = 2 := by decide
  rw [getLsbD_blkAlign, hshift]
  by_cases h2 : 2 ≤ i
  · simp [h2]
  · have hmul : 4 * n = 2 ^ 2 * n := rfl
    rw [BitVec.getLsbD_ofNat, hmul, Nat.testBit_two_pow_mul]
    simp [h2]

theorem filled_step (hn : n < 256) :
    (system bigSector).step (filled n) (.allocate (BitVec.ofNat 64 (4 * n)) false ⟨0, by decide⟩) =
    some (filled (n + 1)) := by
  have hentries : bigSector.getPossibleEntries (BitVec.ofNat 64 (4 * n)) =
      [bigSector.entryOf (BitVec.ofNat 64 (4 * n)) ⟨0, by decide⟩] := rfl
  have hsub : Subsingleton bigSector.Entry := inferInstanceAs (Subsingleton (Fin 1 × Fin 1))
  have hone : ∀ e' : bigSector.Entry, e' = bigSector.entryOf (BitVec.ofNat 64 (4 * n)) ⟨0, by decide⟩ :=
    fun e' => Subsingleton.elim _ _
  generalize hE : bigSector.entryOf (BitVec.ofNat 64 (4 * n)) ⟨0, by decide⟩ = e at hentries hone
  have hv : ((filled n).tags.blk (e, ⟨n, hn⟩)).valid = false := by
    simp [blk, filled]
  have hA : (filled n).Allowed (.allocate (BitVec.ofNat 64 (4 * n)) false ⟨0, by decide⟩) := by
    simp only [Allowed, findBlock, hentries, bigSector_offset hn, Option.map_eq_none_iff, List.find?_eq_none]
    simp [hv]
  -- the first block finds the sector empty, and the others find it allocated
  obtain ⟨l, hvictim, hl⟩ : ∃ l, (filled n).tags.findVictim (BitVec.ofNat 64 (4 * n)) false ⟨0, by decide⟩ =
      .ok ((e, ⟨n, hn⟩), l) ∧ ∀ b ∈ l, ((filled n).tags.blk b).valid = false := by
    by_cases h0 : n = 0
    · have hfind : [e].find? ((filled n).tags.allocated (BitVec.ofNat 64 (4 * n)) false) = none := by
        simp [allocated, SectorBlk.isValid, filled, h0]
      have htag : ¬ (((filled n).tags e).tag = 0 ∧ ((filled n).tags e).secureBit = false) := by
        simp [filled, h0]
      refine ⟨(List.finRange _).map fun k => (e, k), ?_, ?_⟩
      · simp only [findVictim, hentries, hfind, Option.getD_none, hE, bigSector_tag hn,
          bigSector_offset hn, if_neg htag]
      · intro b hb
        obtain ⟨k, -, rfl⟩ := List.mem_map.mp hb
        simp [blk, filled, h0]
    · have hcounter : BitVec.ofNat 8 n ≠ 0#8 := by
        intro h
        have := congrArg BitVec.toNat h
        rw [BitVec.toNat_ofNat, Nat.mod_eq_of_lt (by omega)] at this
        exact h0 this
      have hfind : [e].find? ((filled n).tags.allocated (BitVec.ofNat 64 (4 * n)) false) = some e := by
        simp [allocated, SectorBlk.isValid, filled, h0, bigSector_tag hn, hcounter]
      have htag : ((filled n).tags e).tag = 0 ∧ ((filled n).tags e).secureBit = false := by
        simp [filled, h0]
      refine ⟨[], ?_, by simp⟩
      simp only [findVictim, hentries, hfind, Option.getD_some, bigSector_tag hn, bigSector_offset hn, if_pos htag, hv,
        Bool.false_eq_true, if_false]
  have hpanic :
    (((filled n).tags e).isValid && (((filled n).tags e).tag ≠ 0 || ((filled n).tags e).secureBit ≠ false)) =
      false := by
    by_cases h0 : n = 0
    · simp [SectorBlk.isValid, filled, h0]
    · simp [filled, h0]
  have hinsert := SectorBlk.insert_eq (s := (filled n).tags e) (k := ⟨n, hn⟩) 0 false hv
    (by simp [filled]) (by simp [filled]) hpanic (.inr rfl)
  have hins : (fun b => if b ∈ l then none else (filled n).inserted b) = (filled n).inserted := by
    funext b
    split
    · rename_i hb
      have := hl b hb
      by_cases hlt : b.2.1 < n
      · simp [blk, filled, hlt] at this
      · simp [filled, hlt]
    · rfl
  have hexec : (filled n).exec (.allocate (BitVec.ofNat 64 (4 * n)) false ⟨0, by decide⟩) = .ok (filled (n + 1)) := by
    simp only [exec, hvictim, bind, Except.bind, evict_of_invalid hl, insertBlock, hv, Bool.false_eq_true, if_false,
      bigSector_tag hn, hinsert, hins, bigSector_align]
    refine congrArg Except.ok (Run.mk.injEq .. ▸ ⟨?_, ?_⟩)
    · funext e'
      rw [hone e', update_self]
      simp only [filled, SectorBlk.setBlk, if_neg (Nat.succ_ne_zero n), SectorBlk.mk.injEq, true_and]
      refine ⟨(BitVec.ofNat_add n 1).symm, ?_⟩
      funext k
      by_cases hk : k = ⟨n, hn⟩
      · simp [hk]
      · have hkn : k.1 ≠ n := fun h => hk (Fin.ext h)
        have hlt : k.1 < n + 1 ↔ k.1 < n := by omega
        simp [update_of_ne hk, hlt]
    · funext b
      by_cases hb : b = (e, ⟨n, hn⟩)
      · simp [hb, filled]
      · have hbn : b.2.1 ≠ n := fun h => hb (Prod.ext (hone _) (Fin.ext h))
        have hlt : b.2.1 < n + 1 ↔ b.2.1 < n := by omega
        simp [update_of_ne hb, filled, hlt]
  exact (if_pos hA).trans (congrArg Except.toOption hexec)

theorem filled_reachable (hn : n ≤ 256) : (system bigSector).Reachable (filled n) := by
  induction n with
  | zero =>
    refine ⟨filled 0, ?_, .refl _⟩
    rfl
  | succ n ih => exact (ih (by omega)).step trivial (filled_step (by omega))

/-- **The counter wraps**: all 256 blocks of the sector are valid, and it counts none. -/
theorem sector_counter_wraps : ∃ R : Run bigSector, (system bigSector).Reachable R ∧
    ∀ e, (R.tags e).validCounter = 0 ∧ (R.tags e).validBlocks = 256 := by
  refine ⟨filled 256, filled_reachable le_rfl, fun e => ⟨rfl, ?_⟩⟩
  have hall : ∀ k, (((filled 256).tags e).blks k).valid = true := fun k => by
    have hk : k.1 < 256 := k.2
    simp [filled, hk]
  rw [SectorBlk.validBlocks, Finset.filter_true_of_mem fun k _ => hall k]
  exact Finset.card_fin 256

end Filled

/-- Four skewed sets of two sectors of two blocks. -/
def skewedSectors : SectorParams where
  blkSize := 4
  numBlocksPerSector := 2
  assoc := 2
  numSets := 4
  policy := .skewedAssociative
  blkSize_pow := ⟨2, rfl⟩
  four_le := le_rfl
  numBlocksPerSector_pow := ⟨1, rfl⟩
  entry_size_lt := by decide
  assoc_pos := by decide
  numSets_pow := ⟨2, rfl⟩
  numSets_lt := by decide
  skewed := fun _ => by decide

/-- Two blocks of a sector, one of which is invalidated, and a secure block. -/
theorem sector_tags_consistent_skewed : ∃ R : Run skewedSectors, R.tags.findBlock 100 false = none ∧
    R.tags.findBlock 96 false ≠ none ∧ (∀ b, R.inserted b = some (64, true) → R.tags.regenerateBlkAddr b = 64) ∧
    ∀ e, (R.tags e).validCounter.toNat = (R.tags e).validBlocks := by
  obtain ⟨R, hR, hp⟩ := System.reachableWhen_of_replay (S := system skewedSectors)
    (C := fun R op => decide (R.Meets op)) (rfl : (system skewedSectors).init (start skewedSectors))
    [.allocate 96 false ⟨0, by decide⟩, .allocate 100 false ⟨1, by decide⟩, .allocate 67 true ⟨1, by decide⟩,
      .invalidate ((⟨2, by decide⟩, ⟨0, by decide⟩), ⟨1, by decide⟩)]
    (fun R => R.tags.findBlock 100 false = none ∧ R.tags.findBlock 96 false ≠ none) (by decide)
  obtain ⟨-, hcount, -, -, hregen, -⟩ := sector_tags_consistent (hR.mono fun _ _ h => of_decide_eq_true h)
  exact ⟨R, hp.1, hp.2, fun b => hregen b 64 true, hcount⟩

end Run

end SectorTags

end Salam.Cache
