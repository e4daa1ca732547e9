import Mathlib.Algebra.Order.BigOperators.Group.Finset
import Salam.Cache.SectorTags

/-!
# `CompressedTags`

The blocks of a sector, a superblock here, share the room of one block: they are put beside each other as long as each
of them is compressed to its share.

* `Shares`: what holds of a superblock.
* `superblock_capacity`: it holds in every run of allocations, invalidations and updates of compressed data, whatever
  the policy chooses and the sizes are, and wherever an update is given up.
-/

namespace Salam.Cache

open Base (Addr)
open SectorBlk (Err)
open SectorParams

namespace SectorBlk

variable {N : Nat}

/-- `SuperBlk::isCompressed`, with the `ignored_blk`. -/
def isCompressed (s : SectorBlk N) (ignored_blk : Option (Fin N)) : Bool :=
  match (List.finRange N).find? fun k => (s.blks k).valid && some k ≠ ignored_blk with
  | some k => (s.blks k).compressed
  | none => true

end SectorBlk

namespace SectorParams

/-- `SuperBlk::canCoAllocate` -/
def canCoAllocate (P : SectorParams) (compressed_size : Nat) : Bool :=
    compressed_size ≤ P.blkSize * 8 / P.numBlocksPerSector

end SectorParams

/-- The tags are those of sectors. -/
abbrev CompressedTags (P : SectorParams) : Type := SectorTags P

namespace CompressedTags

variable {P : SectorParams}

/-- The block with other data. -/
def setBlk (s : CompressedTags P) (b : P.Loc) (c : SubBlk) : CompressedTags P :=
    Function.update s b.1 ((s b.1).setBlk b.2 c)

def setSizeBits (s : CompressedTags P) (b : P.Loc) (size : Nat) : CompressedTags P :=
    s.setBlk b { s.blk b with size := size }

/-- `setCompressed` and `setUncompressed` -/
def setCompressed (s : CompressedTags P) (b : P.Loc) (compressed : Bool) : CompressedTags P :=
  s.setBlk b { s.blk b with compressed := compressed }

/-- The block can be put in the superblock of the entry. -/
def coAllocates (s : CompressedTags P) (addr : Addr) (is_secure : Bool) (compressed_size : Nat) (e : P.Entry) : Bool :=
  (s e).tag = P.extractTag addr && (s e).isValid && (s e).secureBit = is_secure &&
    !(s.blk (e, P.extractSectorOffset addr)).valid && (s e).isCompressed none && P.canCoAllocate compressed_size

/-- `findVictim`, with the way that the replacement policy chooses. -/
def findVictim (s : CompressedTags P) (addr : Addr) (is_secure : Bool) (compressed_size : Nat) (way : Fin P.assoc) :
    Except Err (P.Loc × List P.Loc) :=
  let offset := P.extractSectorOffset addr
  match (P.getPossibleEntries addr).find? (s.coAllocates addr is_secure compressed_size) with
  | some victim_superblock =>
    if (s.blk (victim_superblock, offset)).valid then .error .assertion else .ok ((victim_superblock, offset), [])
  | none =>
    let victim_superblock := P.entryOf addr way
    .ok ((victim_superblock, offset), (List.finRange P.numBlocksPerSector).map fun k => (victim_superblock, k))

def insertBlock (s : CompressedTags P) (addr : Addr) (is_secure : Bool) (b : P.Loc) :
    Except Err (CompressedTags P) := do
  let is_co_allocatable := (s b.1).isCompressed none && P.canCoAllocate (s.blk b).size
  let s ← SectorTags.insertBlock s addr is_secure b
  return CompressedTags.setCompressed s b is_co_allocatable

/-- The other valid blocks of the superblock. -/
def coAllocated (s : CompressedTags P) (b : P.Loc) : List P.Loc :=
  ((List.finRange P.numBlocksPerSector).filter fun k => ((s b.1).blks k).valid && k ≠ b.2).map fun k => (b.1, k)

/-- `BaseCache::updateCompressionData` of data that are compressed to `compression_size`; `findMatch` says which blocks
have an MSHR. It returns whether the update was not given up. -/
def updateCompressionData (s : CompressedTags P) (b : P.Loc) (compression_size : Nat) (findMatch : Addr → Bool → Bool) :
    Except Err (CompressedTags P × Bool) :=
  let is_co_allocatable := (s b.1).isCompressed (some b.2) && P.canCoAllocate compression_size
  let was_compressed := (s.blk b).compressed
  let evict_blks := if was_compressed && !is_co_allocatable then s.coAllocated b else []
  if evict_blks.any fun c => findMatch (s.regenerateBlkAddr c) (s.blk c).secure then
    .ok ((s.setSizeBits b (P.blkSize * 8)).setCompressed b false, false)
  else do
    let s := (s.setCompressed b is_co_allocatable).setSizeBits b compression_size
    let s ← SectorTags.evict s evict_blks
    return (s, true)

/-! ## Runs -/

inductive Op (P : SectorParams)
  | allocate (addr : Addr) (is_secure : Bool) (compressed_size : Nat) (way : Fin P.assoc)
  | invalidate (b : P.Loc)
  | update (b : P.Loc) (compression_size : Nat) (findMatch : Addr → Bool → Bool)

/-- What is invalidated or updated is valid. -/
def Allowed (s : CompressedTags P) : Op P → Prop
  | .allocate _ _ _ _ => True
  | .invalidate b => (s.blk b).valid = true
  | .update b _ _ => (s.blk b).valid = true

instance (s : CompressedTags P) : DecidablePred s.Allowed
  | .allocate _ _ _ _ => inferInstanceAs (Decidable True)
  | .invalidate _ => inferInstanceAs (Decidable (_ = _))
  | .update _ _ _ => inferInstanceAs (Decidable (_ = _))

/-- A block that could not be updated is evicted by the caller. -/
def exec (s : CompressedTags P) : Op P → Except Err (CompressedTags P)
  | .allocate addr is_secure compressed_size way => do
    let (victim, evict_blks) ← s.findVictim addr is_secure compressed_size way
    let s ← SectorTags.evict s evict_blks
    CompressedTags.insertBlock (CompressedTags.setSizeBits s victim compressed_size) addr is_secure victim
  | .invalidate b => SectorTags.invalidate s b
  | .update b compression_size findMatch => do
    let (s, done) ← s.updateCompressionData b compression_size findMatch
    if done then return s else SectorTags.invalidate s b

def system (P : SectorParams) : System (CompressedTags P) (Op P) where
  init s := s = SectorTags.tagsInit P
  step s op := if s.Allowed op then (s.exec op).toOption else none

/-! ## What the blocks of a superblock share -/

/-- Blocks that are not alone are compressed, and a compressed block has its share. -/
structure Shares (P : SectorParams) (s : SectorBlk P.numBlocksPerSector) : Prop where
  together : ∀ k k', (s.blks k).valid = true → (s.blks k').valid = true → k ≠ k' → (s.blks k).compressed = true
  small : ∀ k, (s.blks k).valid = true → (s.blks k).compressed = true → P.canCoAllocate (s.blks k).size = true

section Shares

variable {t t' : SectorBlk P.numBlocksPerSector} {k : Fin P.numBlocksPerSector}

/-- Of a superblock that is seen as compressed, all the blocks are. -/
theorem Shares.compressed (h : Shares P t) {ignored_blk : Option (Fin P.numBlocksPerSector)}
    (hc : t.isCompressed ignored_blk = true) (hv : (t.blks k).valid = true) (hk : some k ≠ ignored_blk) :
    (t.blks k).compressed = true := by
  rw [SectorBlk.isCompressed] at hc
  split at hc
  · rename_i k' hfind
    have hk' := List.find?_some hfind
    simp only [Bool.and_eq_true, decide_eq_true_eq] at hk'
    by_cases hkk : k = k'
    · rw [hkk]
      exact hc
    · exact h.together k k' hv hk'.1 hkk
  · rename_i hfind
    have := List.find?_eq_none.mp hfind k (List.mem_finRange k)
    simp [hv, hk] at this

theorem Shares.mono (h : Shares P t) (hsub : ∀ k, (t'.blks k).valid = true → t'.blks k = t.blks k) : Shares P t' := by
  constructor
  · intro k k' hk hk' hne
    have hkt := hsub k hk
    have hkt' := hsub k' hk'
    rw [hkt]
    rw [hkt] at hk
    rw [hkt'] at hk'
    exact h.together k k' hk hk' hne
  · intro k hk hc
    have hkt := hsub k hk
    rw [hkt] at hk hc ⊢
    exact h.small k hk hc

theorem shares_of_alone (halone : ∀ i, (t.blks i).valid = true → i = k)
    (hsmall : (t.blks k).compressed = true → P.canCoAllocate (t.blks k).size = true) : Shares P t := by
  constructor
  · intro i i' hi hi' hne
    exact absurd ((halone i hi).trans (halone i' hi').symm) hne
  · intro i hi hc
    rw [halone i hi] at hc ⊢
    exact hsmall hc

/-- A block that is compressed to its share is beside others that are compressed. -/
theorem Shares.add (h : Shares P t) (hother : ∀ i, i ≠ k → t'.blks i = t.blks i)
    (hcomp : ∀ i, i ≠ k → (t.blks i).valid = true → (t.blks i).compressed = true)
      (hself : (t'.blks k).compressed = true)
    (hsmall : P.canCoAllocate (t'.blks k).size = true) : Shares P t' := by
  constructor
  · intro i i' hi _ _
    by_cases hik : i = k
    · rw [hik]
      exact hself
    · rw [hother i hik] at hi ⊢
      exact hcomp i hik hi
  · intro i hi hc
    by_cases hik : i = k
    · rw [hik]
      exact hsmall
    · rw [hother i hik] at hi hc ⊢
      exact h.small i hi hc

end Shares

/-! ## What the operations do to the blocks -/

section Blocks

variable {s s' : CompressedTags P} {b c : P.Loc} {addr : Addr} {is_secure : Bool} {l : List P.Loc} {v : SubBlk}

theorem blk_setBlk_self : SectorTags.blk (s.setBlk b v) b = v := by
  rw [SectorTags.blk, setBlk, Function.update_self]
  exact Function.update_self _ _ _

theorem blk_setBlk_of_ne (h : c ≠ b) : SectorTags.blk (s.setBlk b v) c = s.blk c :=
  SectorTags.blk_update_of_ne (fun _ hk => Function.update_of_ne hk _ _) h

theorem blk_invalidate (h : SectorTags.invalidate s b = .ok s') :
    (s'.blk b).valid = false ∧ ∀ c, c ≠ b → s'.blk c = s.blk c := by
  rw [SectorTags.invalidate] at h
  split at h
  · obtain rfl := Except.ok.inj h
    constructor
    · simp [SectorTags.blk, SectorBlk.invalidate, SectorBlk.setBlk, SectorBlk.invalidateSubBlk]
    · intro c hc
      exact SectorTags.blk_update_of_ne (fun _ hk => Function.update_of_ne hk _ _) hc
  · cases h

theorem blk_evict (h : SectorTags.evict s l = .ok s') :
    (∀ c ∈ l, (s'.blk c).valid = false) ∧ ∀ c, c ∉ l → s'.blk c = s.blk c := by
  induction l generalizing s with
  | nil =>
    obtain rfl := Except.ok.inj h
    constructor
    · intro c hc
      cases hc
    · exact fun _ _ => rfl
  | cons b l ih =>
    rw [SectorTags.evict, List.foldlM_cons] at h
    obtain ⟨s₁, h₁, h⟩ := ok_of_bind h
    have hb : (s₁.blk b).valid = false ∧ ∀ c, c ≠ b → s₁.blk c = s.blk c := by
      split at h₁
      · exact blk_invalidate h₁
      · rename_i hv
        obtain rfl := Except.ok.inj h₁
        exact ⟨Bool.eq_false_iff.mpr hv, fun _ _ => rfl⟩
    obtain ⟨hin, hout⟩ := ih h
    constructor
    · intro c hc
      by_cases hcl : c ∈ l
      · exact hin c hcl
      · rw [hout c hcl, (List.mem_cons.mp hc).resolve_right hcl]
        exact hb.1
    · intro c hc
      obtain ⟨hcb, hcl⟩ := not_or.mp (List.mem_cons.not.mp hc)
      rw [hout c hcl, hb.2 c hcb]

theorem blk_insertBlock (h : SectorTags.insertBlock s addr is_secure b = .ok s') :
    s'.blk b = { s.blk b with tag := P.extractTag addr, valid := true, secure := is_secure } ∧
      (∀ c, c ≠ b → s'.blk c = s.blk c) := by
  rw [SectorTags.insertBlock] at h
  split at h
  · cases h
  obtain ⟨t, ht, h⟩ := ok_of_bind h
  obtain rfl := Except.ok.inj h
  have hblks := SectorBlk.insert_blks ht
  constructor
  · rw [SectorTags.blk, Function.update_self, hblks, Function.update_self]
    rfl
  · intro c hc
    refine SectorTags.blk_update_of_ne (fun i hi => ?_) hc
    rw [hblks, Function.update_of_ne hi]

end Blocks

theorem mem_coAllocated {s : CompressedTags P} {b c : P.Loc} :
    c ∈ s.coAllocated b ↔ c.1 = b.1 ∧ c.2 ≠ b.2 ∧ (s.blk c).valid = true := by
  rw [coAllocated, List.mem_map]
  constructor
  · rintro ⟨k, hk, rfl⟩
    simp only [List.mem_filter, Bool.and_eq_true, decide_eq_true_eq] at hk
    exact ⟨rfl, hk.2.2, hk.2.1⟩
  · rintro ⟨he, hk, hv⟩
    refine ⟨c.2, ?_, Prod.ext he.symm rfl⟩
    rw [SectorTags.blk, he] at hv
    simp [hv, hk]

theorem isCompressed_congr {N : Nat} {t t' : SectorBlk N} (h : ∀ k, (t'.blks k).valid = (t.blks k).valid ∧
    (t'.blks k).compressed = (t.blks k).compressed) (ignored_blk : Option (Fin N)) :
    t'.isCompressed ignored_blk = t.isCompressed ignored_blk := by
  have hpred : (fun k => (t'.blks k).valid && decide (some k ≠ ignored_blk)) =
      fun k => (t.blks k).valid && decide (some k ≠ ignored_blk) := by
    funext k
    rw [(h k).1]
  rw [SectorBlk.isCompressed, SectorBlk.isCompressed, hpred]
  split
  · exact (h _).2
  · rfl

/-! ## Every run -/

section Steps

variable {s s' : CompressedTags P} {b : P.Loc} {addr : Addr} {is_secure : Bool} {way : Fin P.assoc} {size : Nat}
  {findMatch : Addr → Bool → Bool} {done : Bool}

/-- The victim is put beside others that are compressed, or in a superblock that is emptied. -/
theorem findVictim_cases {l : List P.Loc} (h : s.findVictim addr is_secure size way = .ok (b, l)) :
    (l = [] ∧ (s.blk b).valid = false ∧ (s b.1).isCompressed none = true ∧ P.canCoAllocate size = true) ∨
      ∀ k, (b.1, k) ∈ l := by
  rw [findVictim] at h
  split at h
  · rename_i e hfind
    have he := List.find?_some hfind
    simp only [coAllocates, Bool.and_eq_true, Bool.not_eq_true'] at he
    obtain ⟨⟨⟨-, hv⟩, hc⟩, hsize⟩ := he
    split at h
    · cases h
    · obtain ⟨rfl, rfl⟩ := Prod.mk.inj (Except.ok.inj h)
      exact .inl ⟨rfl, hv, hc, hsize⟩
  · obtain ⟨rfl, rfl⟩ := Prod.mk.inj (Except.ok.inj h)
    exact .inr fun k => List.mem_map.mpr ⟨k, List.mem_finRange k, rfl⟩

section

variable (h : ∀ e, Shares P (s e))
include h

theorem shares_allocate (hok : s.exec (.allocate addr is_secure size way) = .ok s') : ∀ e, Shares P (s' e) := by
  obtain ⟨⟨b, l⟩, hvictim, hok⟩ := ok_of_bind hok
  obtain ⟨s₁, hevict, hok⟩ := ok_of_bind hok
  obtain ⟨s₂, hins, hok⟩ := ok_of_bind hok
  obtain ⟨flag, hflag, rfl⟩ : ∃ flag, (((setSizeBits s₁ b size) b.1).isCompressed none &&
      P.canCoAllocate (SectorTags.blk (setSizeBits s₁ b size) b).size) = flag ∧ setCompressed s₂ b flag = s' :=
    ⟨_, rfl, Except.ok.inj hok⟩
  obtain ⟨hin, hout⟩ := blk_evict hevict
  obtain ⟨hself, hother⟩ := blk_insertBlock hins
  have hsized : (SectorTags.blk (setSizeBits s₁ b size) b).size = size := by
    rw [setSizeBits, blk_setBlk_self]
  have hblk : SectorTags.blk (setCompressed s₂ b flag) b = { s₂.blk b with compressed := flag } := blk_setBlk_self
  have hsize : (SectorTags.blk (setCompressed s₂ b flag) b).size = size := by
    rw [hblk, hself]
    exact hsized
  have hrest : ∀ c, c ≠ b → SectorTags.blk (setCompressed s₂ b flag) c = s₁.blk c := by
    intro c hc
    rw [setCompressed, blk_setBlk_of_ne hc, hother c hc, setSizeBits, blk_setBlk_of_ne hc]
  rw [hsized] at hflag
  intro e
  by_cases he : e = b.1
  · subst he
    rcases findVictim_cases hvictim with ⟨rfl, hv, hc, hco⟩ | hall
    · -- the victim is beside blocks that are all compressed
      obtain rfl : s = s₁ := Except.ok.inj hevict
      have hsame : ((setSizeBits s b size) b.1).isCompressed none = (s b.1).isCompressed none := by
        apply isCompressed_congr
        intro k
        by_cases hk : k = b.2
        · have hb : (setSizeBits s b size b.1).blks k = { s.blk b with size := size } := by
            rw [hk]
            exact blk_setBlk_self
          rw [hb, hk]
          exact ⟨rfl, rfl⟩
        · have hb : (setSizeBits s b size b.1).blks k = (s b.1).blks k :=
            blk_setBlk_of_ne (c := (b.1, k)) fun h => hk (congrArg Prod.snd h)
          rw [hb]
          exact ⟨rfl, rfl⟩
      rw [hsame, hc, hco] at hflag
      refine (h b.1).add (k := b.2) (fun i hi => hrest (b.1, i) fun h => hi (congrArg Prod.snd h)) ?_ ?_ ?_
      · exact fun i _ hvi => (h b.1).compressed hc hvi (by simp)
      · exact (congrArg SubBlk.compressed hblk).trans hflag.symm
      · exact (congrArg P.canCoAllocate hsize).trans hco
    · apply shares_of_alone (k := b.2)
      · intro i hi
        by_contra hne
        have hold := hrest (b.1, i) fun h => hne (congrArg Prod.snd h)
        have := hin (b.1, i) (hall i)
        rw [← hold] at this
        exact absurd hi (Bool.eq_false_iff.mp this)
      · intro hc
        have hcomp : flag = true := (congrArg SubBlk.compressed hblk).symm.trans hc
        exact (congrArg P.canCoAllocate hsize).trans (Bool.and_eq_true_iff.mp (hflag.trans hcomp)).2
  · apply (h e).mono
    intro k hk
    have hnew := hrest (e, k) fun h => he (congrArg Prod.fst h)
    refine hnew.trans (hout (e, k) fun hmem => ?_)
    have := hin (e, k) hmem
    rw [← hnew] at this
    exact absurd hk (Bool.eq_false_iff.mp this)

theorem shares_gone (hgone : (s'.blk b).valid = false) (hother : ∀ c, c ≠ b → s'.blk c = s.blk c) :
    ∀ e, Shares P (s' e) := by
  intro e
  apply (h e).mono
  intro k hk
  by_cases hkb : (e, k) = b
  · rw [← hkb, SectorTags.blk] at hgone
    rw [hgone] at hk
    cases hk
  · exact hother (e, k) hkb

/-- An update, and the eviction of a block that could not be updated. -/
theorem shares_update (hv : (s.blk b).valid = true) (hok : s.exec (.update b size findMatch) = .ok s') :
    ∀ e, Shares P (s' e) := by
  obtain ⟨⟨s₁, done⟩, hupd, hok⟩ := ok_of_bind hok
  rw [updateCompressionData] at hupd
  generalize hflag : ((s b.1).isCompressed (some b.2) && P.canCoAllocate size) = flag at hupd
  generalize hl : (if ((s.blk b).compressed && !flag) = true then s.coAllocated b else []) = l at hupd
  split at hupd
  · -- a neighbour has an MSHR, and the block goes
    obtain ⟨rfl, rfl⟩ := Prod.mk.inj (Except.ok.inj hupd)
    obtain ⟨hgone, hother⟩ := blk_invalidate hok
    refine shares_gone h hgone fun c hc => ?_
    rw [hother c hc, setCompressed, blk_setBlk_of_ne hc, setSizeBits, blk_setBlk_of_ne hc]
  · -- what the block shares with its neighbours, or that it is alone
    obtain ⟨s₂, hevict, hupd⟩ := ok_of_bind hupd
    obtain ⟨rfl, rfl⟩ := Prod.mk.inj (Except.ok.inj hupd)
    obtain rfl : s₂ = s' := Except.ok.inj hok
    obtain ⟨hin, hout⟩ := blk_evict hevict
    have hbl : b ∉ l := by
      rw [← hl]
      split
      · exact fun hmem => (mem_coAllocated.mp hmem).2.1 rfl
      · simp
    have hblk : s₂.blk b = { s.blk b with compressed := flag, size := size } := by
      rw [hout b hbl, setSizeBits, blk_setBlk_self, setCompressed, blk_setBlk_self]
    have hrest : ∀ c, c ≠ b → (s₂.blk c).valid = true → c ∉ l ∧ s₂.blk c = s.blk c := by
      intro c hc hvc
      have hcl : c ∉ l := by
        intro hmem
        rw [hin c hmem] at hvc
        cases hvc
      rw [hout c hcl, setSizeBits, blk_setBlk_of_ne hc, setCompressed, blk_setBlk_of_ne hc]
      exact ⟨hcl, rfl⟩
    intro e
    by_cases he : e = b.1
    · subst he
      cases flag with
      | true =>
        obtain ⟨hc, hco⟩ := Bool.and_eq_true_iff.mp hflag
        have hnil : l = [] := by
          rw [← hl]
          simp
        have hother : ∀ i, i ≠ b.2 → (s₂ b.1).blks i = (s b.1).blks i := by
          intro i hi
          have hne : (b.1, i) ≠ b := fun h => hi (congrArg Prod.snd h)
          have := hout (b.1, i) (by simp [hnil])
          rw [setSizeBits, blk_setBlk_of_ne hne, setCompressed, blk_setBlk_of_ne hne] at this
          exact this
        refine (h b.1).add hother (fun i hi hvi => (h b.1).compressed hc hvi ?_) ?_ ?_
        · exact fun heq => hi (Option.some.inj heq)
        · exact congrArg SubBlk.compressed hblk
        · exact (congrArg (fun c => P.canCoAllocate c.size) hblk).trans hco
      | false =>
        apply shares_of_alone (k := b.2)
        · intro i hi
          by_contra hne
          obtain ⟨hil, hsame⟩ := hrest (b.1, i) (fun h => hne (congrArg Prod.snd h)) hi
          have hvi : (s.blk (b.1, i)).valid = true := by
            rw [← hsame]
            exact hi
          -- the block was compressed beside this one, which was then evicted
          have hcomp : (s.blk b).compressed = true := (h b.1).together b.2 i hv hvi (Ne.symm hne)
          rw [← hl, hcomp, if_pos (by simp)] at hil
          exact hil (mem_coAllocated.mpr ⟨rfl, hne, hvi⟩)
        · intro hc
          have := (congrArg SubBlk.compressed hblk).symm.trans hc
          cases this
    · apply (h e).mono
      intro k hk
      exact (hrest (e, k) (fun h => he (congrArg Prod.fst h)) hk).2

/-- **Every step** keeps what the superblocks share. -/
theorem shares_exec {op : Op P} (hA : s.Allowed op) (hok : s.exec op = .ok s') : ∀ e, Shares P (s' e) := by
  cases op with
  | allocate addr is_secure size way => exact shares_allocate h hok
  | invalidate b =>
    obtain ⟨hgone, hother⟩ := blk_invalidate hok
    exact shares_gone h hgone hother
  | update b size findMatch => exact shares_update h hA hok

end

end Steps

theorem shares_of_reachable {s : CompressedTags P} (h : (system P).Reachable s) : ∀ e, Shares P (s e) := by
  refine System.invariantWhen (I := fun s => ∀ e, Shares P (s e)) ?_ ?_ h
  · rintro s rfl e
    constructor
    · intro k k' hk
      cases hk
    · intro k hk
      cases hk
  · rintro s op s' - hs - hstep
    obtain ⟨hA, hstep⟩ := Option.ite_none_right_eq_some.mp hstep
    exact shares_exec hs hA (ok_of_toOption hstep)

/-- **The capacity of a superblock**: in every state that a run reaches, each superblock has at most one valid block, or
all of them are compressed, each to its share of a block, and together they are no bigger than one. -/
theorem superblock_capacity {s : CompressedTags P} (h : (system P).Reachable s) (e : P.Entry) :
    (∀ k k', ((s e).blks k).valid = true → ((s e).blks k').valid = true → k = k') ∨
      (∀ k, ((s e).blks k).valid = true →
        ((s e).blks k).compressed = true ∧ ((s e).blks k).size ≤ P.blkSize * 8 / P.numBlocksPerSector) ∧
      ∑ k with ((s e).blks k).valid = true, ((s e).blks k).size ≤ P.blkSize * 8 := by
  have hs := shares_of_reachable h e
  by_cases hone : ∀ k k', ((s e).blks k).valid = true → ((s e).blks k').valid = true → k = k'
  · exact .inl hone
  · right
    push Not at hone
    obtain ⟨a, b, ha, hb, hab⟩ := hone
    have hall : ∀ k, ((s e).blks k).valid = true →
        ((s e).blks k).compressed = true ∧ ((s e).blks k).size ≤ P.blkSize * 8 / P.numBlocksPerSector := by
      intro k hk
      have hc : ((s e).blks k).compressed = true := by
        by_cases hka : k = a
        · exact hs.together k b hk hb (hka ▸ hab)
        · exact hs.together k a hk ha hka
      exact ⟨hc, of_decide_eq_true (hs.small k hk hc)⟩
    refine ⟨hall, ?_⟩
    calc ∑ k with ((s e).blks k).valid = true, ((s e).blks k).size
        ≤ (Finset.univ.filter fun k => ((s e).blks k).valid = true).card • (P.blkSize * 8 / P.numBlocksPerSector) :=
          Finset.sum_le_card_nsmul _ _ _ fun k hk => (hall k (Finset.mem_filter.mp hk).2).2
      _ ≤ P.numBlocksPerSector * (P.blkSize * 8 / P.numBlocksPerSector) :=
          Nat.mul_le_mul_right _ ((Finset.card_filter_le _ _).trans_eq (Finset.card_fin _))
      _ ≤ P.blkSize * 8 := Nat.mul_div_le _ _

/-- Two blocks beside each other, one of which was expanded and is compressed again. -/
theorem superblock_capacity_two : ∃ s : CompressedTags SectorTags.Run.skewedSectors,
    (∀ k, ((s (⟨2, by decide⟩, ⟨0, by decide⟩)).blks k).valid = true) ∧
      ∑ k with ((s (⟨2, by decide⟩, ⟨0, by decide⟩)).blks k).valid = true,
        ((s (⟨2, by decide⟩, ⟨0, by decide⟩)).blks k).size ≤ 32 := by
  obtain ⟨s, hs, hall⟩ := System.reachable_of_replay (S := system SectorTags.Run.skewedSectors)
    (rfl : (system SectorTags.Run.skewedSectors).init (SectorTags.tagsInit _))
    [.allocate 96 false 16 ⟨0, by decide⟩, .allocate 100 false 8 ⟨1, by decide⟩,
      .update ((⟨2, by decide⟩, ⟨0, by decide⟩), ⟨1, by decide⟩) 30 fun _ _ => false,
      .update ((⟨2, by decide⟩, ⟨0, by decide⟩), ⟨1, by decide⟩) 12 fun _ _ => false,
      .allocate 96 false 16 ⟨1, by decide⟩]
    (fun s => ∀ k, ((s (⟨2, by decide⟩, ⟨0, by decide⟩)).blks k).valid = true) (by decide)
  refine ⟨s, hall, ?_⟩
  rcases superblock_capacity hs (⟨2, by decide⟩, ⟨0, by decide⟩) with hone | ⟨-, hsum⟩
  · exact absurd (hone ⟨0, by decide⟩ ⟨1, by decide⟩ (hall _) (hall _)) (by decide)
  · exact hsum

end CompressedTags

end Salam.Cache
