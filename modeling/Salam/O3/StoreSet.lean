import Mathlib.Logic.Function.Basic
import Salam.Lib.System

/-!
# Store sets

The predictor keeps, for each set, the last store that was fetched (`LFST`). A store that issues finds its entry through
the set that its PC has then, which a violation may have changed: as long as this does not happen (`keepsName`), the
entries name stores that are in flight.

* `squashList_spec`: the loop of `squash` ends.
* `checkInst_live`: the result. `moved_store`: a store that has issued is named.
-/

namespace Salam.O3

open Function (update_of_ne update_self update)

abbrev Addr := BitVec 64

/-! ## The predictor -/

structure StoreSetParams where
  clearPeriod : Nat
  SSITSize : Nat
  LFSTSize : Nat

/-- A set of the `SSIT` is one with `validSSIT`. The map `storeList` has the youngest store first. -/
structure StoreSet where
  SSIT : Nat → Option Nat
  LFST : Nat → Nat
  validLFST : Nat → Bool
  storeList : List (Nat × Nat)
  memOpsPred : Nat

namespace StoreSet

variable (p : StoreSetParams) (s : StoreSet)

def calcIndex (PC : Addr) : Nat := (PC >>> 2 &&& BitVec.ofNat 64 (p.SSITSize - 1)).toNat

def calcSSID (PC : Addr) : Nat := (PC ^^^ PC >>> 10).toNat % p.LFSTSize

def init : StoreSet := ⟨fun _ => none, fun _ => 0, fun _ => false, [], 0⟩

/-- The entry of an index. -/
def setSSIT (index ssid : Nat) : StoreSet := { s with SSIT := Function.update s.SSIT index (some ssid) }

def violation (store_PC load_PC : Addr) : StoreSet :=
  let load_index := calcIndex p load_PC
  let store_index := calcIndex p store_PC
  match s.SSIT load_index, s.SSIT store_index with
  | none, none => (s.setSSIT load_index (calcSSID p load_PC)).setSSIT store_index (calcSSID p load_PC)
  | some load_SSID, none => s.setSSIT store_index load_SSID
  | none, some store_SSID => s.setSSIT load_index store_SSID
  | some load_SSID, some store_SSID =>
    -- the store set with the lower number wins
    if store_SSID > load_SSID then s.setSSIT store_index load_SSID else s.setSSIT load_index store_SSID

def clear : StoreSet := { s with SSIT := fun _ => none, validLFST := fun _ => false, storeList := [] }

def checkClear : StoreSet :=
  if s.memOpsPred + 1 > p.clearPeriod then { s with memOpsPred := 0 }.clear
    else { s with memOpsPred := s.memOpsPred + 1 }

def insertLoad : StoreSet := s.checkClear p

/-- `storeList[seq_num] = ssid` -/
def put (seq_num ssid : Nat) : List (Nat × Nat) → List (Nat × Nat)
  | [] => [(seq_num, ssid)]
  | e :: rest =>
    if e.1 > seq_num then e :: put seq_num ssid rest
    else if e.1 = seq_num then (seq_num, ssid) :: rest
    else (seq_num, ssid) :: e :: rest

def insertStore (store_PC : Addr) (store_seq_num : Nat) : StoreSet :=
  let s := s.checkClear p
  match s.SSIT (calcIndex p store_PC) with
  | none => s
  | some store_SSID =>
    { s with
      LFST := Function.update s.LFST store_SSID store_seq_num
      validLFST := Function.update s.validLFST store_SSID true
      storeList := put store_seq_num store_SSID s.storeList }

def checkInst (PC : Addr) : Nat :=
  match s.SSIT (calcIndex p PC) with
  | none => 0
  | some inst_SSID => if s.validLFST inst_SSID = true then s.LFST inst_SSID else 0

def issued (issued_PC : Addr) (issued_seq_num : Nat) (is_store : Bool) : StoreSet :=
  if is_store then
    let s := { s with storeList := s.storeList.filter fun e => e.1 ≠ issued_seq_num }
    match s.SSIT (calcIndex p issued_PC) with
    | none => s
    | some store_SSID =>
      if s.validLFST store_SSID = true ∧ s.LFST store_SSID = issued_seq_num then
        { s with validLFST := Function.update s.validLFST store_SSID false }
      else s
  else s

/-- The loop of `squash`, which comes to an entry again if it does not erase it: nothing if it does so forever. -/
def squashList (LFST : Nat → Nat) (squashed_num : Nat) :
    List (Nat × Nat) → (Nat → Bool) → Option (List (Nat × Nat) × (Nat → Bool))
  | [], validLFST => some ([], validLFST)
  | e :: rest, validLFST =>
    if e.1 ≤ squashed_num then some (e :: rest, validLFST)
    else
      let younger := LFST e.2 > squashed_num
      if validLFST e.2 = true ∧ younger then squashList LFST squashed_num rest (Function.update validLFST e.2 false)
      else if younger then squashList LFST squashed_num rest validLFST
      else none

def squash (squashed_num : Nat) : Option StoreSet :=
  (squashList s.LFST squashed_num s.storeList s.validLFST).map fun r => { s with storeList := r.1, validLFST := r.2 }

end StoreSet

/-! ## Runs -/

/-- The predictor, with the stores that are in flight, each with its thread, and the last one that was inserted. -/
structure StoreState where
  set : StoreSet
  live : List (Nat × Nat)
  last : Nat

inductive StoreEvent
  | violation (store_PC load_PC : Addr)
  | insertLoad
  | insertStore (store_PC : Addr) (store_seq_num tid : Nat)
  | issued (issued_PC : Addr) (issued_seq_num : Nat) (is_store : Bool)
  | squash (squashed_num tid : Nat)
  | clear

namespace StoreState

variable (p : StoreSetParams) (s : StoreState)

/-- Stores come with increasing numbers, and a store issues once, if it was not squashed. -/
def exec : StoreEvent → Option StoreState
  | .violation store_PC load_PC => some { s with set := s.set.violation p store_PC load_PC }
  | .insertLoad => some { s with set := s.set.insertLoad p }
  | .insertStore store_PC store_seq_num tid =>
    if s.last < store_seq_num then
      some ⟨s.set.insertStore p store_PC store_seq_num, (store_seq_num, tid) :: s.live, store_seq_num⟩
    else none
  | .issued issued_PC issued_seq_num is_store =>
    if ¬ is_store = true then some { s with set := s.set.issued p issued_PC issued_seq_num is_store }
    else if issued_seq_num ∈ s.live.map (·.1) then
      some { s with
        set := s.set.issued p issued_PC issued_seq_num is_store
        live := s.live.filter fun e => e.1 ≠ issued_seq_num }
    else none
  | .squash squashed_num tid =>
    (s.set.squash squashed_num).map fun set =>
      { s with set := set, live := s.live.filter fun e => ¬ (squashed_num < e.1 ∧ e.2 = tid) }
  | .clear => some { s with set := s.set.clear }

end StoreState

def storeSystem (p : StoreSetParams) : System StoreState StoreEvent where
  init s := s = ⟨.init, [], 0⟩
  step s e := s.exec p e

/-- A store that issues, if its set names it as the last store, still has this set. -/
def keepsName (p : StoreSetParams) (s : StoreState) : StoreEvent → Bool
  | .issued issued_PC issued_seq_num true =>
    (s.set.storeList.lookup issued_seq_num).all fun ssid =>
      !(s.set.validLFST ssid && s.set.LFST ssid = issued_seq_num) ||
        s.set.SSIT (StoreSet.calcIndex p issued_PC) = some ssid
  | _ => true

variable {p : StoreSetParams} {s s' : StoreState}

/-! ## What the entries name -/

/-- The stores of the list are in order, and none is younger than the last one of its set. -/
structure StoreSet.Listed (s : StoreSet) (last : Nat) : Prop where
  order : s.storeList.Pairwise fun a b => b.1 < a.1
  younger : ∀ e ∈ s.storeList, e.1 ≤ s.LFST e.2 ∧ e.1 ≤ last

/-- A valid entry names a store of the list that is in flight. -/
def StoreState.Named (s : StoreState) : Prop :=
  ∀ i, s.set.validLFST i = true → (s.set.LFST i, i) ∈ s.set.storeList ∧ s.set.LFST i ∈ s.live.map (·.1)

theorem StoreSet.squashList_spec {LFST : Nat → Nat} {n : Nat} {list : List (Nat × Nat)}
    (horder : list.Pairwise fun a b => b.1 < a.1) (hyounger : ∀ e ∈ list, e.1 ≤ LFST e.2) : ∀ valid : Nat → Bool,
    ∃ valid', squashList LFST n list valid = some (list.filter fun e => e.1 ≤ n, valid') ∧
      ∀ i, valid' i = true ↔ valid i = true ∧ ∀ e ∈ list, n < e.1 → e.2 ≠ i := by
  induction list with
  | nil => exact fun valid => ⟨valid, rfl, fun i => by simp⟩
  | cons e rest ih =>
    intro valid
    obtain ⟨hhead, hrest⟩ := List.pairwise_cons.mp horder
    obtain ⟨he, hyoungers⟩ := List.forall_mem_cons.mp hyounger
    rw [squashList]
    by_cases hn : e.1 ≤ n
    · have hold : ∀ x ∈ e :: rest, x.1 ≤ n := fun x hx => (List.mem_cons.mp hx).elim (fun h => h ▸ hn) fun hx => by
        have := hhead x hx
        omega
      rw [if_pos hn, List.filter_eq_self.mpr fun x hx => decide_eq_true (hold x hx)]
      refine ⟨valid, rfl, fun i => ⟨fun h => ⟨h, fun x hx hlt => ?_⟩, fun h => h.1⟩⟩
      have := hold x hx
      omega
    · -- the last store of the set is not older than this one
      have hlast : LFST e.2 > n := by omega
      rw [if_neg hn, List.filter_cons_of_neg (by simpa using hn)]
      by_cases hvalid : valid e.2 = true
      · obtain ⟨valid', hrun, hiff⟩ := ih hrest hyoungers (update valid e.2 false)
        refine ⟨valid', (if_pos ⟨hvalid, hlast⟩).trans hrun, fun i => ?_⟩
        rw [hiff, List.forall_mem_cons]
        by_cases hi : e.2 = i
        · simp [← hi, Nat.not_le.mp hn]
        · rw [update_of_ne (Ne.symm hi)]
          simp [hi]
      · obtain ⟨valid', hrun, hiff⟩ := ih hrest hyoungers valid
        refine ⟨valid', (if_neg fun h => hvalid h.1).trans ((if_pos hlast).trans hrun), fun i => ?_⟩
        rw [hiff, List.forall_mem_cons]
        by_cases hi : e.2 = i
        · simp [← hi, hvalid]
        · simp [hi]

namespace StoreSet

theorem put_eq {s : StoreSet} {last n : Nat} (h : s.Listed last) (hn : last < n) (ssid : Nat) :
    put n ssid s.storeList = (n, ssid) :: s.storeList := by
  cases hlist : s.storeList with
  | nil => rfl
  | cons e rest =>
    have he := (h.younger e (hlist ▸ List.mem_cons_self)).2
    rw [put, if_neg (by omega), if_neg (by omega)]

theorem Listed.mono {s : StoreSet} {last n : Nat} (h : s.Listed last) (hn : last ≤ n) : s.Listed n :=
  ⟨h.order, fun e he => ⟨(h.younger e he).1, Nat.le_trans (h.younger e he).2 hn⟩⟩

theorem violation_frame (s : StoreSet) (store_PC load_PC : Addr) :
    ∃ f, s.violation p store_PC load_PC = { s with SSIT := f } := by
  unfold violation
  dsimp only
  split
  · exact ⟨_, rfl⟩
  · exact ⟨_, rfl⟩
  · exact ⟨_, rfl⟩
  · split
    · exact ⟨_, rfl⟩
    · exact ⟨_, rfl⟩

theorem checkClear_cases (s : StoreSet) :
    s.checkClear p = { s with memOpsPred := 0 }.clear ∨ s.checkClear p = { s with memOpsPred := s.memOpsPred + 1 } := by
  unfold checkClear
  split
  · exact .inl rfl
  · exact .inr rfl

end StoreSet

/-- What holds between the steps. -/
structure StoreState.Ok (s : StoreState) : Prop where
  listed : s.set.Listed s.last
  named : s.Named

namespace StoreState

theorem ok_clear (set : StoreSet) {live : List (Nat × Nat)} {last : Nat} : Ok ⟨set.clear, live, last⟩ :=
  ⟨⟨.nil, fun _ he => nomatch he⟩, fun _ hi => nomatch hi⟩

theorem Ok.checkClear (h : s.Ok) : Ok { s with set := s.set.checkClear p } := by
  obtain hc | hc := s.set.checkClear_cases (p := p)
  · rw [hc]
    exact ok_clear _
  · rw [hc]
    exact ⟨⟨h.listed.order, h.listed.younger⟩, h.named⟩

theorem Ok.insertStore (h : s.Ok) {PC : Addr} {n tid : Nat} (hn : s.last < n) :
    Ok ⟨s.set.insertStore p PC n, (n, tid) :: s.live, n⟩ := by
  obtain ⟨hlisted, hnamed⟩ := h.checkClear (p := p)
  rw [StoreSet.insertStore]
  dsimp only at hlisted hnamed ⊢
  generalize s.set.checkClear p = set at hlisted hnamed ⊢
  split
  · refine ⟨hlisted.mono (Nat.le_of_lt hn), fun i hi => ⟨(hnamed i hi).1, ?_⟩⟩
    exact List.mem_cons_of_mem _ (hnamed i hi).2
  · rename_i ssid hssid
    refine ⟨⟨?_, ?_⟩, fun i hi => ?_⟩
    · show (StoreSet.put n ssid set.storeList).Pairwise _
      rw [StoreSet.put_eq hlisted hn]
      exact List.pairwise_cons.mpr ⟨fun e he => Nat.lt_of_le_of_lt (hlisted.younger e he).2 hn, hlisted.order⟩
    · show ∀ e ∈ StoreSet.put n ssid set.storeList, e.1 ≤ update set.LFST ssid n e.2 ∧ e.1 ≤ n
      rw [StoreSet.put_eq hlisted hn, List.forall_mem_cons, update_self]
      refine ⟨⟨Nat.le_refl n, Nat.le_refl n⟩, fun e he => ?_⟩
      obtain ⟨hle, hlast⟩ := hlisted.younger e he
      by_cases hset : e.2 = ssid
      · rw [hset, update_self]
        exact ⟨by omega, by omega⟩
      · rw [update_of_ne hset]
        exact ⟨hle, by omega⟩
    · show (update set.LFST ssid n i, i) ∈ StoreSet.put n ssid set.storeList ∧ _
      rw [StoreSet.put_eq hlisted hn]
      by_cases hset : i = ssid
      · rw [hset]
        dsimp only
        rw [update_self]
        exact ⟨List.mem_cons_self, List.mem_cons_self⟩
      · dsimp only at hi ⊢
        rw [update_of_ne hset] at hi ⊢
        exact ⟨List.mem_cons_of_mem _ (hnamed i hi).1, List.mem_cons_of_mem _ (hnamed i hi).2⟩

/-- No other set names the store: the entry of its set is gone, or never was. -/
theorem Ok.not_named (h : s.Ok) {PC : Addr} {n : Nat} (hok : keepsName p s (.issued PC n true) = true) {i : Nat}
    (hi : s.set.validLFST i = true) (hn : s.set.LFST i = n) : s.set.SSIT (StoreSet.calcIndex p PC) = some i := by
  have hmem := (h.named i hi).1
  rw [hn] at hmem
  have hlookup : s.set.storeList.lookup n = some i := by
    obtain ⟨l₁, l₂, hlist⟩ := List.append_of_mem hmem
    have horder := h.listed.order
    rw [hlist] at horder ⊢
    rw [List.lookup_append, List.lookup_eq_none_iff.mpr, Option.none_or, List.lookup_cons_self]
    intro e he
    have hlt : n < e.1 := (List.pairwise_append.mp horder).2.2 e he _ List.mem_cons_self
    exact bne_iff_ne.mpr (Nat.ne_of_lt hlt)
  rw [keepsName, hlookup, Option.all_some, hi, hn] at hok
  simpa using hok

/-- A store issues, and the entry that names it is found. -/
theorem Ok.issued (h : s.Ok) {PC : Addr} {n : Nat} (hok : keepsName p s (.issued PC n true) = true) :
    Ok { s with set := s.set.issued p PC n true, live := s.live.filter fun e => e.1 ≠ n } := by
  have hlisted : ∀ e ∈ s.set.storeList.filter (fun e => e.1 ≠ n), e.1 ≤ s.set.LFST e.2 ∧ e.1 ≤ s.last :=
    fun e he => h.listed.younger e (List.mem_of_mem_filter he)
  have hother {i : Nat} (hi : s.set.validLFST i = true) (hne : s.set.LFST i ≠ n) :
      (s.set.LFST i, i) ∈ s.set.storeList.filter (fun e => e.1 ≠ n) ∧
        s.set.LFST i ∈ (s.live.filter fun e => e.1 ≠ n).map (·.1) := by
    obtain ⟨hlist, hlive⟩ := h.named i hi
    obtain ⟨e, he, hname⟩ := List.mem_map.mp hlive
    exact ⟨List.mem_filter.mpr ⟨hlist, decide_eq_true hne⟩,
      List.mem_map.mpr ⟨e, List.mem_filter.mpr ⟨he, decide_eq_true (by rw [hname]; exact hne)⟩, hname⟩⟩
  have hset (i : Nat) (hi : s.set.validLFST i = true) (hn : s.set.LFST i = n) := h.not_named hok hi hn
  rw [StoreSet.issued, if_pos rfl]
  dsimp only
  split
  · rename_i hnone
    refine ⟨⟨h.listed.order.filter _, hlisted⟩, fun i hi => hother hi fun hn => ?_⟩
    have hsome := hset i hi hn
    rw [hnone] at hsome
    cases hsome
  · rename_i ssid hssid
    split
    · refine ⟨⟨h.listed.order.filter _, hlisted⟩, fun i hi => ?_⟩
      have hne : i ≠ ssid := by
        rintro rfl
        simp at hi
      have hold : s.set.validLFST i = true := by simpa [update_of_ne hne] using hi
      refine hother hold fun hn => hne ?_
      exact Option.some.inj ((hset i hold hn).symm.trans hssid)
    · rename_i hkeep
      refine ⟨⟨h.listed.order.filter _, hlisted⟩, fun i hi => hother hi fun hn => hkeep ?_⟩
      obtain rfl := Option.some.inj ((hset i hi hn).symm.trans hssid)
      exact ⟨hi, hn⟩

theorem Ok.squash (h : s.Ok) (n tid : Nat) : ∃ set, s.set.squash n = some set ∧
    Ok { s with set := set, live := s.live.filter fun e => ¬ (n < e.1 ∧ e.2 = tid) } := by
  obtain ⟨valid, hrun, hvalid⟩ := StoreSet.squashList_spec (n := n) h.listed.order
    (fun e he => (h.listed.younger e he).1) s.set.validLFST
  refine ⟨_, by rw [StoreSet.squash, hrun]; rfl, ⟨h.listed.order.filter _, fun e he => ?_⟩, fun i hi => ?_⟩
  · exact h.listed.younger e (List.mem_of_mem_filter he)
  · obtain ⟨hold, hkept⟩ := (hvalid i).mp hi
    obtain ⟨hlist, hlive⟩ := h.named i hold
    have hle : s.set.LFST i ≤ n := by
      by_contra hlt
      exact hkept _ hlist (by simpa using hlt) rfl
    obtain ⟨e, he, hname⟩ := List.mem_map.mp hlive
    have hstays : e ∈ s.live.filter fun e => ¬ (n < e.1 ∧ e.2 = tid) :=
      List.mem_filter.mpr ⟨he, decide_eq_true fun hgone => by omega⟩
    exact ⟨List.mem_filter.mpr ⟨hlist, decide_eq_true hle⟩, List.mem_map.mpr ⟨e, hstays, hname⟩⟩

theorem Ok.exec (h : s.Ok) {e : StoreEvent} (hok : keepsName p s e = true) (hs : s.exec p e = some s') : s'.Ok := by
  cases e with
  | violation store_PC load_PC =>
    obtain ⟨f, hf⟩ := s.set.violation_frame (p := p) store_PC load_PC
    obtain rfl := Option.some.inj hs
    rw [hf]
    exact ⟨⟨h.listed.order, h.listed.younger⟩, h.named⟩
  | insertLoad =>
    obtain rfl := Option.some.inj hs
    exact h.checkClear
  | insertStore PC n tid =>
    obtain ⟨hn, hs⟩ := Option.ite_none_right_eq_some.mp hs
    exact Option.some.inj hs ▸ h.insertStore hn
  | issued PC n is_store =>
    cases is_store with
    | false => exact Option.some.inj hs ▸ h
    | true =>
      obtain ⟨-, hs⟩ := Option.ite_none_right_eq_some.mp hs
      exact Option.some.inj hs ▸ h.issued hok
  | squash n tid =>
    obtain ⟨set, hset, hsquashed⟩ := h.squash n tid
    rw [StoreState.exec, hset] at hs
    exact Option.some.inj hs ▸ hsquashed
  | clear =>
    obtain rfl := Option.some.inj hs
    exact ok_clear _

end StoreState

/-- **Store sets name live stores**, in the runs in which a store that issues still has the set that names it: `squash`
ends, and `checkInst` returns zero or a store that is in flight. -/
theorem checkInst_live (h : (storeSystem p).ReachableWhen (fun s e => keepsName p s e = true) s) :
    (∀ squashed_num, (s.set.squash squashed_num).isSome = true) ∧
      ∀ PC, s.set.checkInst p PC = 0 ∨ s.set.checkInst p PC ∈ s.live.map (·.1) := by
  have hok : s.Ok := System.invariantWhen (I := StoreState.Ok)
    (fun s hs => by
      obtain rfl : s = ⟨.init, [], 0⟩ := hs
      exact StoreState.ok_clear .init)
    (fun s e s' _ hI hC hs => hI.exec hC hs) h
  refine ⟨fun n => ?_, fun PC => ?_⟩
  · obtain ⟨set, hset, -⟩ := hok.squash n 0
    rw [hset]
    rfl
  · rw [StoreSet.checkInst]
    split
    · exact .inl rfl
    · rename_i ssid hssid
      split
      · rename_i hvalid
        exact .inr (hok.named ssid hvalid).2
      · exact .inl rfl

/-- Tables of eight entries. -/
def eightSets : StoreSetParams := ⟨100, 8, 8⟩

/-- A store of a set is in flight. -/
theorem checkInst_live_one : ∃ s, (storeSystem eightSets).ReachableWhen (fun s e => keepsName eightSets s e = true) s ∧
    s.set.checkInst eightSets 12 = 1 ∧ ((∀ squashed_num, (s.set.squash squashed_num).isSome = true) ∧
      ∀ PC, s.set.checkInst eightSets PC = 0 ∨ s.set.checkInst eightSets PC ∈ s.live.map (·.1)) := by
  obtain ⟨s, hs, hp⟩ := System.reachableWhen_of_replay (S := storeSystem eightSets) (C := keepsName eightSets) rfl
    [.violation 4 12, .insertStore 4 1 0] (fun s => s.set.checkInst eightSets 12 = 1) rfl
  exact ⟨s, hs, hp, checkInst_live hs⟩

/-- A violation moves a store to another set before it issues: the loads of the old set wait for it. -/
theorem moved_store : ∃ s, (storeSystem eightSets).Reachable s ∧ s.live = [] ∧ s.set.checkInst eightSets 12 = 1 :=
  System.reachable_of_replay (S := storeSystem eightSets) rfl
    [.violation 4 12, .violation 20 16, .insertStore 4 1 0, .violation 4 16, .issued 4 1 true]
    (fun s => s.live = [] ∧ s.set.checkInst eightSets 12 = 1) rfl

end Salam.O3
