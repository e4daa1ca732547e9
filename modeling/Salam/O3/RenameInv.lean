import Mathlib.Data.List.Nodup
import Mathlib.Order.Basic
import Salam.O3.Rename

/-!
# What renaming keeps

Each physical register that can be renamed is in one place: the free list, the entry of one architectural register, or
one entry of the history buffer that it was replaced in. One entry of the history buffer is undone by `doSquash`, the
newest one, or freed by `removeFromHistory`, the oldest one; `Inv` is what both keep, and what the renaming of one
destination keeps.

* `Inv.renameDestReg`, `Inv.undo`, `Inv.free`: one turn of each loop.
* `Inv.renameDestRegs`, `Inv.doSquash`, `Inv.removeFromHistory`: the loops, over an instruction and over the history
  buffer.
-/

namespace Salam.O3

open Function (update_eq_self update_of_ne update_self update_idem update)

/-- What a list counts when an element of it is replaced. -/
theorem count_set_add {α : Type*} [DecidableEq α] {l : List α} {i : Nat} {a b : α} (h : l[i]? = some b) (r : α) :
    (l.set i a).count r + (if b = r then 1 else 0) = l.count r + if a = r then 1 else 0 := by
  obtain ⟨hi, rfl⟩ := List.getElem?_eq_some_iff.mp h
  have hpos : l[i] = r → 0 < l.count r := by
    rintro rfl
    exact List.count_pos_iff.mpr (List.getElem_mem hi)
  rw [List.count_set hi]
  simp only [beq_iff_eq]
  by_cases hb : l[i] = r
  · have := hpos hb
    simp only [hb, if_true]
    omega
  · simp only [hb, if_false]
    omega

namespace Params

variable {p : Params} {mode : VecMode} {cls : RegClass} {r : PhysRegId} {i : Nat}

theorem classValue_of_mem_regIds (h : r ∈ p.regIds mode cls) : r.classValue = cls := by
  have hmap : ∀ n, r ∈ (List.range n).map (⟨cls, ·, 0⟩ : Nat → PhysRegId) → r.classValue = cls := by
    intro n hr
    obtain ⟨_, -, rfl⟩ := List.mem_map.mp hr
    rfl
  cases cls with
  | IntRegClass => exact hmap _ h
  | FloatRegClass => exact hmap _ h
  | VecRegClass =>
    rw [regIds] at h
    split at h
    · exact hmap _ h
    · cases h
  | VecElemClass =>
    rw [regIds] at h
    split at h
    · obtain ⟨_, -, hr⟩ := List.mem_flatMap.mp h
      obtain ⟨_, -, rfl⟩ := List.mem_map.mp hr
      rfl
    · cases h
  | VecPredRegClass => exact hmap _ h
  | CCRegClass => exact hmap _ h
  | MiscRegClass => cases h

theorem nodup_regIds (p : Params) (mode : VecMode) (cls : RegClass) : (p.regIds mode cls).Nodup := by
  have hmap : ∀ n, ((List.range n).map (⟨cls, ·, 0⟩ : Nat → PhysRegId)).Nodup := by
    intro n
    exact List.Nodup.map (fun i j h => (PhysRegId.mk.inj h).2.1) List.nodup_range
  cases cls with
  | IntRegClass => exact hmap _
  | FloatRegClass => exact hmap _
  | VecRegClass =>
    rw [regIds]
    split
    · exact hmap _
    · exact List.nodup_nil
  | VecElemClass =>
    rw [regIds]
    split
    · refine List.nodup_flatMap.mpr ⟨fun _ _ =>
        List.Nodup.map (fun _ _ h => (PhysRegId.mk.inj h).2.2) List.nodup_range, ?_⟩
      refine List.pairwise_map.mpr (List.nodup_range.imp fun {i j} hij r hi hj => ?_)
      obtain ⟨_, -, rfl⟩ := List.mem_map.mp hi
      obtain ⟨_, -, hr⟩ := List.mem_map.mp hj
      exact hij (PhysRegId.mk.inj hr).2.1.symm
    · exact List.nodup_nil
  | VecPredRegClass => exact hmap _
  | CCRegClass => exact hmap _
  | MiscRegClass => exact List.nodup_nil

/-- There are at least as many physical registers as entries of the map. -/
theorem numRegs_le (p : Params) (mode : VecMode) (cls : RegClass) :
    p.numRegs mode cls ≤ (p.regIds mode cls).length := by
  cases cls with
  | IntRegClass => simpa [regIds, numRegs] using p.intRegs
  | FloatRegClass => simpa [regIds, numRegs] using p.floatRegs
  | VecRegClass =>
    rw [regIds, numRegs]
    split
    · simpa [vecRegIds] using p.vecRegs
    · exact Nat.le_refl _
  | VecElemClass =>
    rw [regIds, numRegs]
    split
    · simpa [vecRegIds, getRegElemIds, List.length_flatMap, Function.comp_def] using Nat.mul_le_mul_right _ p.vecRegs
    · exact Nat.le_refl _
  | VecPredRegClass => simpa [regIds, numRegs] using p.vecPredRegs
  | CCRegClass => simpa [regIds, numRegs] using p.ccRegs
  | MiscRegClass => exact Nat.le_refl _

/-- The vector mode allows a class whose map has entries. -/
theorem modeOk_of_lt (h : i < p.numRegs mode cls) : DefaultRename.modeOk mode cls = true := by
  cases cls with
  | VecRegClass =>
    rw [numRegs] at h
    split at h
    · exact decide_eq_true ‹_›
    · exact absurd h (Nat.not_lt_zero _)
  | VecElemClass =>
    rw [numRegs] at h
    split at h
    · exact decide_eq_true ‹_›
    · exact absurd h (Nat.not_lt_zero _)
  | IntRegClass | FloatRegClass | VecPredRegClass | CCRegClass | MiscRegClass => rfl

end Params

theorem eq_zeroReg {p : Params} {a : RegId} : a.eq (p.zeroReg a.classValue) = true ↔
    a.classValue = .IntRegClass ∧ p.flatIndex a = p.ZeroReg ∧ a.elemIndex = 0 := by
  simp only [RegId.eq, Bool.and_eq_true, decide_eq_true_eq, and_assoc]
  refine and_congr_right fun hint => ?_
  rw [Params.flatIndex, hint]
  rfl

/-! ## Undoing renames -/

/-- The rename maps of all classes. -/
abbrev Maps := RegClass → List PhysRegId

section Undo

variable (p : Params)

/-- The maps with the entry of one rename undone. -/
def undoEntry (maps : Maps) (e : RenameHistory) : Maps :=
  if e.newPhysReg ≠ e.prevPhysReg then
    Function.update maps e.archReg.classValue ((maps e.archReg.classValue).set (p.flatIndex e.archReg) e.prevPhysReg)
  else maps

/-- The maps with renames undone, newest first. -/
def undoAll (entries : List RenameHistory) (maps : Maps) : Maps := entries.foldl (undoEntry p) maps

/-- Each entry has what the map has once the newer ones are undone. -/
def Recorded : List RenameHistory → Maps → Prop
  | [], _ => True
  | e :: h, maps =>
    (e.newPhysReg ≠ e.prevPhysReg → (maps e.archReg.classValue)[p.flatIndex e.archReg]? = some e.newPhysReg) ∧
      Recorded h (undoEntry p maps e)

/-- The registers that the entries of the history buffer replaced. -/
def superseded (h : List RenameHistory) : List PhysRegId :=
  (h.filter fun e => e.newPhysReg ≠ e.prevPhysReg).map RenameHistory.prevPhysReg

end Undo

variable {p : Params} {h h' : List RenameHistory}

theorem superseded_append : superseded (h ++ h') = superseded h ++ superseded h' := by
  rw [superseded, List.filter_append, List.map_append]
  rfl

theorem superseded_cons_of_ne {e : RenameHistory} {h : List RenameHistory} (hne : e.newPhysReg ≠ e.prevPhysReg) :
    superseded (e :: h) = e.prevPhysReg :: superseded h := by
  rw [superseded, List.filter_cons_of_pos (by simpa using hne)]
  rfl

theorem superseded_cons_of_eq {e : RenameHistory} {h : List RenameHistory} (heq : e.newPhysReg = e.prevPhysReg) :
    superseded (e :: h) = superseded h := by
  rw [superseded, List.filter_cons_of_neg (by simpa using heq)]
  rfl

theorem undoAll_append {maps : Maps} : undoAll p (h ++ h') maps = undoAll p h' (undoAll p h maps) := List.foldl_append

theorem Recorded.of_append : ∀ {maps : Maps}, Recorded p (h ++ h') maps → Recorded p h maps := by
  induction h with
  | nil => exact fun _ => trivial
  | cons e h ih => exact fun hr => ⟨hr.1, ih hr.2⟩

/-! ## The invariant -/

/-- The places of a register: free, mapped, and replaced by an instruction that is not committed. -/
def places (maps free : Maps) (h : List RenameHistory) (r : PhysRegId) : Nat :=
  (free r.classValue).count r + (maps r.classValue).count r + (superseded h).count r

/-- What holds of an entry that really renamed. -/
structure Entry (p : Params) (mode : VecMode) (e : RenameHistory) : Prop where
  notMisc : e.archReg.classValue ≠ .MiscRegClass
  new : e.newPhysReg.classValue = e.archReg.classValue
  prev : e.prevPhysReg.classValue = e.archReg.classValue
  index : p.flatIndex e.archReg < p.numRegs mode e.archReg.classValue
  notZero : e.archReg.classValue = .IntRegClass → p.flatIndex e.archReg ≠ p.ZeroReg

/-- What renames, squashes and commits in one vector mode keep. -/
structure Conserved (p : Params) (mode : VecMode) (maps free : Maps) (pinned : PhysRegId → Int)
    (h : List RenameHistory) :
    Prop where
  places : ∀ r, places maps free h r = (p.regIds mode r.classValue).count r
  length : ∀ cls, (maps cls).length = p.numRegs mode cls
  freeClass : ∀ cls, ∀ r ∈ free cls, r.classValue = cls
  mapClass : ∀ cls, ∀ r ∈ maps cls, r.classValue = cls
  recorded : Recorded p h maps
  entries : ∀ e ∈ h, e.newPhysReg ≠ e.prevPhysReg → Entry p mode e
  pinned : ∀ r, pinned r = 0
  zero : p.ZeroReg < p.NumIntRegs → (maps .IntRegClass)[p.ZeroReg]? = some ⟨.IntRegClass, p.ZeroReg, 0⟩

namespace DefaultRename

variable {s s' : DefaultRename p} {e : RenameHistory} {h : List RenameHistory} {r : RegId} {f : RegId → RegId} {n : Nat}

def Inv (s : DefaultRename p) : Prop :=
  Conserved p s.vecMode s.renameMap s.freeList s.numPinnedWrites s.historyBuffer

/-! ### Undoing and freeing -/

theorem addReg_ok {r : PhysRegId} (hr : r.classValue ≠ .MiscRegClass) : s.addReg r = .ok { s with
    freeList := update s.freeList r.classValue (s.freeList r.classValue ++ [r]) } := by
  rw [addReg, if_neg hr]

theorem setClassMap_classMap (s : DefaultRename p) {cls : RegClass} : s.setClassMap cls (s.classMap cls) = s := by
  change DefaultRename.mk _ (update s.renameMap _ (s.renameMap _)) (update s.freeList _ (s.freeList _)) _ _ = _
  rw [update_eq_self, update_eq_self]
  rfl

theorem setEntry_ok {r : PhysRegId} {a : RegId} (ha : a.classValue ≠ .MiscRegClass) (hr : r.classValue = a.classValue)
    (hi : p.flatIndex a < p.numRegs s.vecMode a.classValue)
    (hl : (s.renameMap a.classValue).length = p.numRegs s.vecMode a.classValue) :
    s.setEntry a r = .ok { s with
      renameMap := update s.renameMap a.classValue ((s.renameMap a.classValue).set (p.flatIndex a) r) } := by
  have hlt : ¬ (s.classMap a.classValue).map.length < p.flatIndex a := by
    change ¬ (s.renameMap a.classValue).length < _
    omega
  have hne : ¬ (s.classMap a.classValue).map.length = p.flatIndex a := by
    change ¬ (s.renameMap a.classValue).length = _
    omega
  rw [setEntry, if_neg ha, if_neg (not_not.mpr hr), if_neg (not_not.mpr (Params.modeOk_of_lt hi)),
    SimpleRenameMap.setEntry, if_neg hlt, if_neg hne]
  change Except.ok _ = _
  congr 1
  change DefaultRename.mk _ _ (update s.freeList _ (s.freeList _)) _ _ = _
  rw [update_eq_self]
  rfl

theorem Inv.undo (hs : s.Inv) (heq : s.historyBuffer = e :: h) : ∃ s', s.undo e = .ok s' ∧
    s'.vecMode = s.vecMode ∧ Conserved p s'.vecMode s'.renameMap s'.freeList s'.numPinnedWrites h ∧
    s'.renameMap = undoEntry p s.renameMap e := by
  have hrec : Recorded p (e :: h) s.renameMap := heq ▸ hs.recorded
  have htail : ∀ e' ∈ h, e'.newPhysReg ≠ e'.prevPhysReg → Entry p s.vecMode e' := fun e' he' =>
    hs.entries e' (heq ▸ List.mem_cons_of_mem _ he')
  by_cases hne : e.newPhysReg = e.prevPhysReg
  · have hmap : undoEntry p s.renameMap e = s.renameMap := if_neg (not_not.mpr hne)
    refine ⟨s, if_neg (not_not.mpr hne), rfl, ?_, hmap.symm⟩
    refine { hs with places := fun r => ?_, recorded := hmap ▸ hrec.2, entries := htail }
    rw [← hs.places r, places, places, heq, superseded_cons_of_eq hne]
  · obtain ⟨hmisc, hnew, hprev, hindex, hzero⟩ := hs.entries e (heq ▸ List.mem_cons_self) hne
    have hold := hrec.1 hne
    have hmap : undoEntry p s.renameMap e = update s.renameMap e.archReg.classValue
        ((s.renameMap e.archReg.classValue).set (p.flatIndex e.archReg) e.prevPhysReg) := if_pos hne
    refine ⟨⟨s.vecMode, undoEntry p s.renameMap e, update s.freeList e.newPhysReg.classValue
      (s.freeList e.newPhysReg.classValue ++ [e.newPhysReg]), s.numPinnedWrites, s.historyBuffer⟩, ?_, rfl, ?_, rfl⟩
    · rw [DefaultRename.undo, if_pos hne, setEntry_ok hmisc hprev hindex (hs.length _), hmap]
      exact addReg_ok (hnew ▸ hmisc)
    · change Conserved p s.vecMode (undoEntry p s.renameMap e) (update s.freeList e.newPhysReg.classValue
        (s.freeList e.newPhysReg.classValue ++ [e.newPhysReg])) s.numPinnedWrites h
      refine ⟨fun r => ?_, fun cls => ?_, fun cls r hr => ?_, fun cls r hr => ?_, ?_, htail, hs.pinned, fun hlt => ?_⟩
      · rw [← hs.places r, places, places, heq, superseded_cons_of_ne hne, hnew, hmap]
        by_cases hr : r.classValue = e.archReg.classValue
        · have hset := count_set_add (a := e.prevPhysReg) hold r
          rw [hr, update_self, update_self, List.count_append, List.count_singleton, List.count_cons]
          simp only [beq_iff_eq]
          omega
        · have hprev' : ¬ e.prevPhysReg = r := fun h => hr (h ▸ hprev)
          rw [update_of_ne hr, update_of_ne hr, List.count_cons_of_ne hprev']
      · rw [hmap]
        by_cases hcls : cls = e.archReg.classValue
        · subst hcls
          rw [update_self, List.length_set, hs.length]
        · rw [update_of_ne hcls, hs.length]
      · by_cases hcls : cls = e.archReg.classValue
        · rw [hcls, hnew, update_self] at hr
          obtain hr | hr := List.mem_append.mp hr
          · rw [hs.freeClass _ r hr, hcls]
          · rw [List.mem_singleton.mp hr, hnew, hcls]
        · rw [hnew, update_of_ne hcls] at hr
          exact hs.freeClass cls r hr
      · rw [hmap] at hr
        by_cases hcls : cls = e.archReg.classValue
        · rw [hcls, update_self] at hr
          obtain hr | hr := List.mem_or_eq_of_mem_set hr
          · rw [hs.mapClass _ r hr, hcls]
          · rw [hr, hprev, hcls]
        · rw [update_of_ne hcls] at hr
          exact hs.mapClass cls r hr
      · exact hrec.2
      · rw [hmap]
        by_cases hcls : e.archReg.classValue = .IntRegClass
        · rw [hcls, update_self, List.getElem?_set_ne (hzero hcls)]
          exact hs.zero hlt
        · rw [update_of_ne (Ne.symm hcls)]
          exact hs.zero hlt

theorem Inv.free (hs : s.Inv) (heq : s.historyBuffer = h ++ [e]) : ∃ s', s.free e = .ok s' ∧
    s'.vecMode = s.vecMode ∧ Conserved p s'.vecMode s'.renameMap s'.freeList s'.numPinnedWrites h ∧
    s'.renameMap = s.renameMap ∧
    ∀ cls, s'.freeList cls = s.freeList cls ++ (superseded [e]).filter fun r => r.classValue = cls := by
  have hrec : Recorded p h s.renameMap := Recorded.of_append (heq ▸ hs.recorded)
  have hinit : ∀ e' ∈ h, e'.newPhysReg ≠ e'.prevPhysReg → Entry p s.vecMode e' := fun e' he' =>
    hs.entries e' (heq ▸ List.mem_append_left _ he')
  by_cases hne : e.newPhysReg = e.prevPhysReg
  · have hnone : superseded [e] = [] := superseded_cons_of_eq hne
    refine ⟨s, if_neg (not_not.mpr hne), rfl, ?_, rfl, fun cls => by rw [hnone]; simp⟩
    refine { hs with places := fun r => ?_, recorded := hrec, entries := hinit }
    rw [← hs.places r, places, places, heq, superseded_append, hnone, List.append_nil]
  · obtain ⟨hmisc, -, hprev, -, -⟩ := hs.entries e (heq ▸ List.mem_append_right _ List.mem_cons_self) hne
    have hone : superseded [e] = [e.prevPhysReg] := superseded_cons_of_ne hne
    refine ⟨_, (if_pos hne).trans (addReg_ok (hprev ▸ hmisc)), rfl, ?_, rfl, fun cls => ?_⟩
    · change Conserved p s.vecMode s.renameMap (update s.freeList e.prevPhysReg.classValue
        (s.freeList e.prevPhysReg.classValue ++ [e.prevPhysReg])) s.numPinnedWrites h
      refine { hs with places := fun r => ?_, freeClass := fun cls r hr => ?_, recorded := hrec, entries := hinit }
      · rw [← hs.places r, places, places, heq, superseded_append, hone, List.count_append]
        by_cases hr : r.classValue = e.prevPhysReg.classValue
        · rw [hr, update_self, List.count_append]
          omega
        · have hprev' : ¬ e.prevPhysReg = r := fun h => hr (h ▸ rfl)
          rw [update_of_ne hr, List.count_cons_of_ne hprev']
          rfl
      · by_cases hcls : cls = e.prevPhysReg.classValue
        · rw [hcls, update_self] at hr
          obtain hr | hr := List.mem_append.mp hr
          · rw [hs.freeClass _ r hr, hcls]
          · rw [List.mem_singleton.mp hr, hcls]
        · rw [update_of_ne hcls] at hr
          exact hs.freeClass cls r hr
    · change update s.freeList e.prevPhysReg.classValue (s.freeList e.prevPhysReg.classValue ++ [e.prevPhysReg]) cls = _
      rw [hone]
      by_cases hcls : cls = e.prevPhysReg.classValue
      · rw [hcls, update_self, List.filter_cons_of_pos (by simp)]
        rfl
      · rw [update_of_ne hcls, List.filter_cons_of_neg (by simpa using Ne.symm hcls)]
        exact (List.append_nil _).symm

/-! ### Renaming -/

section Simple

variable {m : SimpleRenameMap} {a : RegId} {prev renamed : PhysRegId} {freeRegs : List PhysRegId}

theorem entry_ok {i : Nat} (h : m.map[i]? = some prev) : m.entry i = .ok prev := by
  rw [SimpleRenameMap.entry, h]

theorem rename_zero (hentry : m.entry (p.flatIndex a) = .ok prev) (hz : a.eq (p.zeroReg a.classValue) = true)
    (hprev : p.isZeroReg prev = true) : m.rename p a = .ok ((prev, prev), m) := by
  rw [SimpleRenameMap.rename, hentry]
  change (if a.eq (p.zeroReg a.classValue) = true then _ else _) = _
  rw [if_pos hz, if_pos hprev]

/-- Another register that is not pinned gets the first free register. -/
theorem rename_free (hentry : m.entry (p.flatIndex a) = .ok prev) (hz : ¬ a.eq (p.zeroReg a.classValue) = true)
    (hpinned : m.numPinnedWrites prev = 0) (hfree : m.freeList = renamed :: freeRegs) :
    m.rename p a = .ok ((renamed, prev), ⟨m.map.set (p.flatIndex a) renamed, freeRegs,
      update m.numPinnedWrites renamed a.numPinnedWrites⟩) := by
  rw [SimpleRenameMap.rename, hentry]
  change (if a.eq (p.zeroReg a.classValue) = true then _ else _) = _
  rw [if_neg hz, if_neg (hpinned ▸ Int.lt_irrefl 0), hfree]
  rfl

end Simple

/-- A register with an entry is renamed in the map of its class. -/
theorem rename_class {a : RegId} {info : RenameInfo} {m : SimpleRenameMap} (hmisc : a.classValue ≠ .MiscRegClass)
    (hlt : p.flatIndex a < p.numRegs s.vecMode a.classValue)
      (h : (s.classMap a.classValue).rename p a = .ok (info, m)) :
    s.rename a = .ok (info, s.setClassMap a.classValue m) := by
  rw [DefaultRename.rename, if_neg hmisc, if_neg (not_not.mpr (Params.modeOk_of_lt hlt)), h]
  rfl

/-- An entry that keeps the mapping is recorded. -/
theorem Inv.push_same (hs : s.Inv) (heq : e.newPhysReg = e.prevPhysReg) :
    Conserved p s.vecMode s.renameMap s.freeList s.numPinnedWrites (e :: s.historyBuffer) := by
  have hmap : undoEntry p s.renameMap e = s.renameMap := if_neg (not_not.mpr heq)
  refine { hs with
    places := fun r => ?_
    recorded := ⟨fun hne => absurd heq hne, hmap.symm ▸ hs.recorded⟩
    entries := fun e' he' hne => ?_ }
  · rw [← hs.places r, places, places, superseded_cons_of_eq heq]
  · obtain rfl | he' := List.mem_cons.mp he'
    · exact absurd heq hne
    · exact hs.entries e' he' hne

/-- A free register is mapped, and the entry that replaces another is recorded. -/
theorem Inv.push_new {cls : RegClass} {freeRegs : List PhysRegId} (hs : s.Inv) (hcls : e.archReg.classValue = cls)
    (hmisc : cls ≠ .MiscRegClass) (hfree : s.freeList cls = e.newPhysReg :: freeRegs)
    (hold : (s.renameMap cls)[p.flatIndex e.archReg]? = some e.prevPhysReg)
    (hzero : cls = .IntRegClass → p.flatIndex e.archReg ≠ p.ZeroReg) :
    let maps := update s.renameMap cls ((s.renameMap cls).set (p.flatIndex e.archReg) e.newPhysReg)
    Conserved p s.vecMode maps (update s.freeList cls freeRegs) (update s.numPinnedWrites e.newPhysReg 0)
      (e :: s.historyBuffer) ∧ undoEntry p maps e = s.renameMap := by
  intro maps
  obtain ⟨hindex, hprev⟩ := List.getElem?_eq_some_iff.mp hold
  have hnewcls : e.newPhysReg.classValue = cls := hs.freeClass cls _ (hfree ▸ List.mem_cons_self)
  have hprevcls : e.prevPhysReg.classValue = cls := hs.mapClass cls _ (hprev ▸ List.getElem_mem hindex)
  have hself : maps cls = (s.renameMap cls).set (p.flatIndex e.archReg) e.newPhysReg := update_self ..
  have hother : ∀ cls', cls' ≠ cls → maps cls' = s.renameMap cls' := fun cls' h => update_of_ne h ..
  -- a register cannot be free and mapped at once
  have hne : e.newPhysReg ≠ e.prevPhysReg := by
    intro heq
    have hcount := hs.places e.newPhysReg
    have hfree' : 0 < (s.freeList e.newPhysReg.classValue).count e.newPhysReg := by
      rw [hnewcls, hfree]
      exact List.count_pos_iff.mpr List.mem_cons_self
    have hmapped : 0 < (s.renameMap e.newPhysReg.classValue).count e.newPhysReg := by
      rw [hnewcls, heq]
      exact List.count_pos_iff.mpr (hprev ▸ List.getElem_mem hindex)
    have hle := List.nodup_iff_count_le_one.mp (p.nodup_regIds s.vecMode e.newPhysReg.classValue) e.newPhysReg
    rw [places] at hcount
    omega
  have hundo : undoEntry p maps e = s.renameMap := by
    rw [undoEntry, if_pos hne, hcls, hself, List.set_set, update_idem, ← hprev, List.set_getElem_self,
      update_eq_self]
  refine ⟨⟨fun r => ?_, fun cls' => ?_, fun cls' r hr => ?_, fun cls' r hr => ?_, ⟨fun _ => ?_, ?_⟩,
    fun e' he' hne' => ?_, fun r => ?_, fun hlt => ?_⟩, hundo⟩
  · rw [← hs.places r, places, places, superseded_cons_of_ne hne]
    by_cases hr : r.classValue = cls
    · have hset := count_set_add (a := e.newPhysReg) hold r
      rw [hr, hself, update_self, hfree, List.count_cons, List.count_cons]
      simp only [beq_iff_eq]
      omega
    · have hprev' : ¬ e.prevPhysReg = r := fun h => hr (h ▸ hprevcls)
      rw [hother _ hr, update_of_ne hr, List.count_cons_of_ne hprev']
  · by_cases h : cls' = cls
    · rw [h, hself, List.length_set, hs.length]
    · rw [hother _ h, hs.length]
  · by_cases h : cls' = cls
    · rw [h, update_self] at hr
      rw [h]
      exact hs.freeClass cls r (hfree ▸ List.mem_cons_of_mem _ hr)
    · rw [update_of_ne h] at hr
      exact hs.freeClass cls' r hr
  · by_cases h : cls' = cls
    · rw [h, hself] at hr
      obtain hr | hr := List.mem_or_eq_of_mem_set hr
      · rw [hs.mapClass _ r hr, h]
      · rw [hr, hnewcls, h]
    · rw [hother _ h] at hr
      exact hs.mapClass cls' r hr
  · rw [hcls, hself]
    exact List.getElem?_set_self hindex
  · rw [hundo]
    exact hs.recorded
  · obtain rfl | he' := List.mem_cons.mp he'
    · rw [hs.length cls] at hindex
      exact ⟨hcls ▸ hmisc, hnewcls.trans hcls.symm, hprevcls.trans hcls.symm, hcls ▸ hindex, hcls ▸ hzero⟩
    · exact hs.entries e' he' hne'
  · by_cases h : r = e.newPhysReg
    · rw [h, update_self]
    · rw [update_of_ne h, hs.pinned]
  · by_cases h : cls = .IntRegClass
    · rw [← h, hself, List.getElem?_set_ne (hzero h)]
      exact h ▸ hs.zero hlt
    · rw [hother _ (Ne.symm h)]
      exact hs.zero hlt

/-- What renaming one destination does: the newest entry undoes it, and a class loses at most one free register. -/
structure RenamedOne (s s' : DefaultRename p) (n : Nat) (cls : RegClass) : Prop where
  mode : s'.vecMode = s.vecMode
  inv : s'.Inv
  history : ∃ e : RenameHistory, s'.historyBuffer = e :: s.historyBuffer ∧ e.instSeqNum = n ∧
    undoEntry p s'.renameMap e = s.renameMap
  free : ∀ cls', (s.freeList cls').length ≤ (s'.freeList cls').length + if cls = cls' then 1 else 0

theorem Inv.renameDestReg (hs : s.Inv) (hv : Run.Valid p s.vecMode f r)
    (hfree : r.classValue ≠ .MiscRegClass → s.freeList r.classValue ≠ []) :
    ∃ s', s.renameDestReg f n r = .ok s' ∧ RenamedOne s s' n r.classValue := by
  obtain ⟨hpinned, hcls, hindex, helem⟩ := hv
  -- the flattened destination
  obtain ⟨a, ha⟩ : ∃ a : RegId, a = { f r with numPinnedWrites := r.numPinnedWrites } := ⟨_, rfl⟩
  have hacls : a.classValue = r.classValue := by rw [ha, ← hcls]
  have haindex : p.flatIndex a = p.flatIndex (f r) := by rw [ha]; rfl
  have hsame : ∀ phys_reg, s.rename a = .ok ((phys_reg, phys_reg), s) →
      ∃ s', s.renameDestReg f n r = .ok s' ∧ RenamedOne s s' n r.classValue := by
    intro phys_reg hok
    let e : RenameHistory := ⟨n, a, phys_reg, phys_reg⟩
    refine ⟨⟨s.vecMode, s.renameMap, s.freeList, s.numPinnedWrites, e :: s.historyBuffer⟩, ?_, rfl, hs.push_same rfl,
      ⟨e, rfl, rfl, ?_⟩, fun _ => Nat.le_add_right _ _⟩
    · rw [DefaultRename.renameDestReg, ← ha, hok]
      rfl
    · exact if_neg (not_not.mpr rfl)
  by_cases hmisc : r.classValue = .MiscRegClass
  · refine hsame ⟨.MiscRegClass, p.flatIndex a, 0⟩ ?_
    rw [hmisc, Params.archRegs] at hindex
    rw [DefaultRename.rename, if_pos (hacls.trans hmisc), getMiscRegId, if_pos (haindex ▸ hindex)]
    rfl
  · have hlt : p.flatIndex a < p.numRegs s.vecMode a.classValue := by
      rw [haindex, hacls]
      cases hc : r.classValue with
      | MiscRegClass => exact absurd hc hmisc
      | IntRegClass | FloatRegClass | VecRegClass | VecElemClass | VecPredRegClass | CCRegClass =>
        rw [hc] at hindex
        exact hindex
    obtain ⟨prev, hprev⟩ : ∃ prev, (s.renameMap a.classValue)[p.flatIndex a]? = some prev :=
      ⟨_, List.getElem?_eq_getElem (hlt.trans_eq (hs.length _).symm)⟩
    have hentry : (s.classMap a.classValue).entry (p.flatIndex a) = .ok prev := entry_ok hprev
    by_cases hz : a.eq (p.zeroReg a.classValue) = true
    · -- the zero register keeps its mapping
      obtain ⟨hint, hflat, -⟩ := eq_zeroReg.mp hz
      have hlt' := hlt
      rw [hflat, hint] at hlt hprev
      rw [hs.zero hlt] at hprev
      refine hsame prev ?_
      have hreg : p.isZeroReg prev = true := by
        rw [← Option.some.inj hprev]
        simp [Params.isZeroReg]
      rw [rename_class (hacls ▸ hmisc) hlt' (rename_zero hentry hz hreg), setClassMap_classMap]
    · obtain ⟨renamed, freeRegs, hlist⟩ := List.exists_cons_of_ne_nil (hfree hmisc)
      have hnotzero : r.classValue = .IntRegClass → p.flatIndex a ≠ p.ZeroReg := by
        intro hint heq
        have helem' : a.elemIndex = 0 := by
          rw [ha]
          exact helem (by rw [hint]; decide)
        exact hz (eq_zeroReg.mpr ⟨hacls.trans hint, heq, helem'⟩)
      let e : RenameHistory := ⟨n, a, renamed, prev⟩
      obtain ⟨hinv, hundo⟩ := hs.push_new (e := e) hacls hmisc hlist (hacls ▸ hprev) hnotzero
      refine ⟨⟨s.vecMode, update s.renameMap r.classValue ((s.renameMap r.classValue).set (p.flatIndex a) renamed),
        update s.freeList r.classValue freeRegs, update s.numPinnedWrites renamed 0, e :: s.historyBuffer⟩,
        ?_, rfl, hinv, ⟨e, rfl, rfl, hundo⟩, fun cls' => ?_⟩
      · have hpinned' : a.numPinnedWrites = 0 := by rw [ha, ← hpinned]
        rw [DefaultRename.renameDestReg, ← ha, rename_class (hacls ▸ hmisc) hlt
          (rename_free hentry hz (hs.pinned _) (hacls ▸ hlist)), hpinned', hacls]
        rfl
      · change _ ≤ (update s.freeList r.classValue freeRegs cls').length + _
        by_cases hc : r.classValue = cls'
        · rw [← hc, update_self, hlist, if_pos rfl]
          exact Nat.le_refl _
        · rw [update_of_ne (Ne.symm hc)]
          exact Nat.le_add_right _ _

/-! ### The loops -/

theorem Inv.renameDestRegs {inst : DynInst} :
    ∀ {s : DefaultRename p}, s.Inv → (∀ r ∈ inst.destRegs, Run.Valid p s.vecMode f r) →
    (∀ cls, cls ≠ .MiscRegClass → inst.numDestRegs cls ≤ (s.freeList cls).length) →
    ∃ s', s.renameDestRegs f inst = .ok s' ∧ s'.Inv ∧ ∃ entries, s'.historyBuffer = entries ++ s.historyBuffer ∧
      (∀ e ∈ entries, e.instSeqNum = inst.seqNum) ∧ undoAll p entries s'.renameMap = s.renameMap := by
  obtain ⟨seqNum, destRegs⟩ := inst
  simp only [DefaultRename.renameDestRegs, DynInst.numDestRegs]
  induction destRegs with
  | nil =>
    intro s hs _ _
    exact ⟨s, rfl, hs, [], rfl, List.forall_mem_nil _, rfl⟩
  | cons r rs ih =>
    intro s hs hv hfree
    have hone : r.classValue ≠ .MiscRegClass → s.freeList r.classValue ≠ [] := by
      intro hmisc hnil
      have := hfree r.classValue hmisc
      rw [List.countP_cons_of_pos (by simp), hnil] at this
      exact absurd this (Nat.not_succ_le_zero _)
    obtain ⟨s₁, hok, hmode, hs₁, ⟨e, hhist, hseq, hundo⟩, hlen⟩ :=
      hs.renameDestReg (n := seqNum) (hv r List.mem_cons_self) hone
    have hfree₁ : ∀ cls, cls ≠ .MiscRegClass →
      rs.countP (fun r => decide (r.classValue = cls)) ≤ (s₁.freeList cls).length := by
      intro cls hmisc
      have h := hfree cls hmisc
      have h₁ := hlen cls
      rw [List.countP_cons] at h
      simp only [decide_eq_true_eq] at h
      omega
    obtain ⟨s', hok', hs', entries, hhist', hseq', hundo'⟩ :=
      ih hs₁ (fun r hr => hmode ▸ hv r (List.mem_cons_of_mem _ hr)) hfree₁
    refine ⟨s', ?_, hs', entries ++ [e], ?_, ?_, ?_⟩
    · rw [List.foldlM_cons, hok]
      exact hok'
    · rw [hhist', hhist, List.append_assoc]
      rfl
    · intro e' he'
      obtain he' | he' := List.mem_append.mp he'
      · exact hseq' e' he'
      · rw [List.mem_singleton.mp he', hseq]
    · rw [undoAll_append, hundo']
      exact hundo

/-- `doSquash` undoes the newest entries, as long as their instructions are squashed. -/
theorem Inv.squashLoop : ∀ {hb : List RenameHistory} {s : DefaultRename p}, s.Inv → s.historyBuffer = hb →
    ∃ s', DefaultRename.squashLoop n hb s = .ok s' ∧ s'.vecMode = s.vecMode ∧ s'.Inv ∧
      s'.historyBuffer = hb.dropWhile (fun e => n < e.instSeqNum) ∧
      s'.renameMap = undoAll p (hb.takeWhile fun e => n < e.instSeqNum) s.renameMap := by
  intro hb
  induction hb with
  | nil =>
    intro s hs heq
    exact ⟨s, rfl, rfl, hs, heq, rfl⟩
  | cons e hb ih =>
    intro s hs heq
    by_cases hlt : n < e.instSeqNum
    · obtain ⟨s₁, hok, hmode, hinv, hmap⟩ := hs.undo heq
      obtain ⟨s', hok', hmode', hs', hhist, hmap'⟩ := ih (s := { s₁ with historyBuffer := hb }) hinv rfl
      refine ⟨s', ?_, hmode'.trans hmode, hs', ?_, ?_⟩
      · rw [DefaultRename.squashLoop, if_pos hlt, hok]
        exact hok'
      · rw [hhist, List.dropWhile_cons, if_pos (decide_eq_true hlt)]
      · rw [hmap', List.takeWhile_cons, if_pos (decide_eq_true hlt), hmap]
        rfl
    · have hnot : ¬ decide (n < e.instSeqNum) = true := fun h => hlt (of_decide_eq_true h)
      refine ⟨s, if_neg hlt, rfl, hs, ?_, ?_⟩
      · rw [heq, List.dropWhile_cons, if_neg hnot]
      · rw [List.takeWhile_cons, if_neg hnot]
        rfl

/-- `removeFromHistory` frees what the oldest entries replaced, as long as their instructions are committed. -/
theorem Inv.commitLoop : ∀ {hb : List RenameHistory} {s : DefaultRename p}, s.Inv → s.historyBuffer = hb.reverse →
    ∃ s', DefaultRename.commitLoop n hb s = .ok s' ∧ s'.Inv ∧ s'.renameMap = s.renameMap ∧
      s'.historyBuffer = (hb.dropWhile fun e => e.instSeqNum ≤ n).reverse ∧
      ∀ cls, s'.freeList cls = s.freeList cls ++
        (superseded (hb.takeWhile fun e => e.instSeqNum ≤ n)).filter fun r => r.classValue = cls := by
  intro hb
  induction hb with
  | nil =>
    intro s hs heq
    exact ⟨s, rfl, hs, rfl, heq, fun cls => (List.append_nil _).symm⟩
  | cons e hb ih =>
    intro s hs heq
    by_cases hle : e.instSeqNum ≤ n
    · obtain ⟨s₁, hok, -, hinv, hmap, hfree⟩ := hs.free (heq.trans List.reverse_cons)
      obtain ⟨s', hok', hs', hmap', hhist, hfree'⟩ := ih (s := { s₁ with historyBuffer := hb.reverse }) hinv rfl
      refine ⟨s', ?_, hs', hmap'.trans hmap, ?_, fun cls => ?_⟩
      · rw [DefaultRename.commitLoop, if_pos hle, hok]
        exact hok'
      · rw [hhist, List.dropWhile_cons, if_pos (decide_eq_true hle)]
      · have hcons : ∀ t, superseded (e :: t) = superseded [e] ++ superseded t := fun t => superseded_append (h := [e])
        rw [hfree', List.takeWhile_cons, if_pos (decide_eq_true hle), hcons, List.filter_append,
          ← List.append_assoc, ← hfree]
    · have hnot : ¬ decide (e.instSeqNum ≤ n) = true := fun h => hle (of_decide_eq_true h)
      refine ⟨s, if_neg hle, hs, rfl, ?_, fun cls => ?_⟩
      · rw [heq, List.dropWhile_cons, if_neg hnot]
      · rw [List.takeWhile_cons, if_neg hnot]
        exact (List.append_nil _).symm

/-! ### The initial state -/

theorem initMap_ok : ∀ {size : Nat} {freeRegs : List PhysRegId}, size ≤ freeRegs.length →
    initMap size freeRegs = .ok (freeRegs.take size, freeRegs.drop size)
  | 0, _, _ => rfl
  | size + 1, phys_reg :: freeRegs, h => by
    change (initMap size freeRegs).bind _ = _
    rw [initMap_ok (Nat.le_of_succ_le_succ h)]
    rfl

theorem Init.inv (h : s.Init) : s.Inv := by
  obtain ⟨hmode, hinit, hpinned, hhist⟩ := h
  have hsplit : ∀ cls, (p.regIds p.vecMode cls).take (p.numRegs p.vecMode cls) = s.renameMap cls ∧
      (p.regIds p.vecMode cls).drop (p.numRegs p.vecMode cls) = s.freeList cls := by
    intro cls
    have := hinit cls
    rw [initMap_ok (p.numRegs_le _ cls)] at this
    exact Prod.mk.inj (Except.ok.inj this)
  rw [Inv, hmode, hhist, hpinned]
  refine ⟨fun r => ?_, fun cls => ?_, fun cls r hr => ?_, fun cls r hr => ?_, trivial, fun e he => ?_, fun _ => rfl,
    fun hlt => ?_⟩
  · rw [places, ← (hsplit _).1, ← (hsplit _).2, Nat.add_comm (List.count r _), ← List.count_append,
      List.take_append_drop]
    rfl
  · rw [← (hsplit cls).1, List.length_take, Nat.min_eq_left (p.numRegs_le _ cls)]
  · rw [← (hsplit cls).2] at hr
    exact Params.classValue_of_mem_regIds (List.mem_of_mem_drop hr)
  · rw [← (hsplit cls).1] at hr
    exact Params.classValue_of_mem_regIds (List.mem_of_mem_take hr)
  · cases he
  · rw [← (hsplit _).1, List.getElem?_take_of_lt (show p.ZeroReg < p.numRegs _ .IntRegClass from hlt), Params.regIds,
      List.getElem?_map, List.getElem?_range (Nat.lt_of_lt_of_le hlt p.intRegs)]
    rfl

end DefaultRename

end Salam.O3
