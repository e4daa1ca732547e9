import Salam.Engine.ComputePass
import Salam.Engine.Control

/-!
# Functional units

A tick counts the units in use from zero: the pass over the compute queue charges a unit for each node in flight, the
scan one for each launch. As long as the pass charges the class of the node it looks at, and no instance is launched
past the count, the nodes of a class in flight at the head of a tick and those launched in it stay within the limit.

* `count_of_step`: what an act launches and what it adds to the compute queue.
* `counted_of_iter`: one iteration keeps `Counted`.
-/

namespace Salam.Engine

namespace Core

/-- The instances of class `u` in the compute queue. -/
def inFlight (c : Core) (u : FunctionalUnit) : Nat := c.computeQueue.countP fun k => (c.node k).functionalUnit = u

/-- The event is the launch of an instance of class `u`. -/
def launchOf (c : Core) (u : FunctionalUnit) : Event → Bool
  | .launch k => (c.node k).functionalUnit = u
  | _ => false

/-- The launches of instances of class `u` so far. -/
def launches (c : Core) (u : FunctionalUnit) : Nat := c.log.countP (c.launchOf u)

/-- Between `c` and `c'` at most `n` instances of class `u` are launched, and no others come to the compute queue. -/
structure Count (u : FunctionalUnit) (n : Nat) (c c' : Core) : Prop where
  launches : c'.launches u ≤ c.launches u + n
  inFlight : c'.inFlight u + c.launches u ≤ c.inFlight u + c'.launches u

end Core

/-- The instance that an act launches, or takes. -/
def Act.launched : Act → Option Nat
  | .launch id | .branch id => some id
  | _ => none

namespace Core

variable {c c' c'' : Core} {u : FunctionalUnit} {n m : Nat}

theorem Count.trans (h : Count u n c c') (h' : Count u m c' c'') : Count u (n + m) c c'' :=
  ⟨by have := h.launches; have := h'.launches; omega, by have := h.inFlight; have := h'.inFlight; omega⟩

/-- The new events of the log launch at most `n` instances of class `u`, and the compute queue loses nodes, or gets one
of those launched. -/
theorem Count.of_log (es : List Event) (hL : c.Lists) (hA : c.Accounts) (hn : ∀ k < c.next, c'.node k = c.node k)
    (hlog : c'.log = c.log ++ es) (hes : es.countP (c'.launchOf u) ≤ n)
    (hq : c'.computeQueue.Sublist c.computeQueue ∨ ∃ k < c.next, c'.computeQueue = c.computeQueue ++ [k] ∧
      ((c.node k).functionalUnit = u → 1 ≤ es.countP (c'.launchOf u))) : Count u n c c' := by
  have hmem := hL.computeQueue_lt
  have hcount : c'.launches u = c.launches u + es.countP (c'.launchOf u) := by
    have hold : c.log.countP (c'.launchOf u) = c.log.countP (c.launchOf u) := by
      refine List.countP_congr fun e he => ?_
      cases e with
      | launch k => simp only [launchOf, hn k (hA.launch_gone k he).2]
      | _ => rfl
    rw [Core.launches, hlog, List.countP_append, hold, Core.launches]
  refine ⟨by omega, ?_⟩
  have hold : c.computeQueue.countP (fun k => (c'.node k).functionalUnit = u) = c.inFlight u :=
    List.countP_congr fun k hk => by rw [hn k (hmem k hk)]
  rcases hq with hsub | ⟨k, hk, hq, hkn⟩
  · have hle := hsub.countP_le (p := fun k => decide ((c'.node k).functionalUnit = u))
    have hdef : c'.inFlight u = c'.computeQueue.countP fun k => (c'.node k).functionalUnit = u := rfl
    omega
  · have hone : c'.inFlight u = c.inFlight u + if (c.node k).functionalUnit = u then 1 else 0 := by
      rw [Core.inFlight, hq, List.countP_append, hold, List.countP_singleton, hn k hk]
      simp
    split at hone
    · rename_i hku
      have := hkn hku
      omega
    · omega

theorem functionalUnit_of_mem {n : Node} (h : n.isLoad = true ∨ n.isStore = true) : n.functionalUnit = .other := by
  unfold Node.isLoad Node.isStore at h
  unfold Node.functionalUnit
  split <;> simp_all

/-- How many instances of class `u` the act launches: one or none. -/
def launchesOf (c : Core) (u : FunctionalUnit) (a : Act) : Nat :=
  match a.launched with
  | some id => if (c.node id).functionalUnit = u then 1 else 0
  | none => 0

/-- **What an act launches.** -/
theorem count_of_effect (hL : c.Lists) (hA : c.Accounts) (hu : u ≠ .other) {a : Act} (he : c.Effect a c') :
    Count u (c.launchesOf u a) c c' := by
  cases he with
  | enter bb => exact .of_log _ hL hA (fun _ _ => rfl) rfl (Nat.le_of_eq rfl) (.inl (List.Sublist.refl _))
  | schedule prev n =>
    refine .of_log _ hL hA (fun k hk => withNew_node (Nat.ne_of_lt hk)) (withNew_log ..) ?_ (.inl (List.Sublist.refl _))
    rw [List.countP_eq_zero.mpr]
    · exact Nat.zero_le _
    · simp [launchOf]
  | @launchUnit id v hr hn hv =>
    have hid : id < c.next := hL.lt_next id (mem_live.mpr (.inl (mem_of_ready hr)))
    refine .of_log [.launch id] hL hA (fun k _ => by simp) rfl ?_ (.inr ⟨id, hid, ?_, ?_⟩)
    · simp [launchOf, launchesOf, Act.launched, List.countP_singleton]
    · rw [park_onUnit (by simpa using hn)]
      rfl
    · intro hk
      simp [launchOf, hk]
  | @launchMem _ id ha hr hn =>
    refine .of_log [.launch id, .request id (c.heap id).addr (c.heap id).len] hL hA (fun k _ => rfl)
      (by simp [Core.emit]) ?_ (.inl ?_)
    · simp [launchOf, functionalUnit_of_mem hn, Ne.symm hu]
    · rcases hn with hn | hn
      · rw [park_isLoad (c := (c.emit _).emit _) hn]
        exact List.Sublist.refl _
      · rw [park_isStore (c := (c.emit _).emit _) hn]
        exact List.Sublist.refl _
  | @branch id d hr hd =>
    refine .of_log [.launch id, .branch id d] hL hA (fun k _ => rfl) (by simp [Core.emit]) ?_
      (.inl List.erase_sublist)
    by_cases hk : (c.node id).functionalUnit = u <;> simp [launchOf, launchesOf, Act.launched, hk]
  | @bump id hid hc =>
    exact .of_log [] hL hA (fun k _ => node_modify rfl k) (by simp) (Nat.zero_le _) (.inl (List.Sublist.refl _))
  | @retire _ id v ha hid hv =>
    refine .of_log _ hL hA (fun k _ => by simp) (by rw [drop_log, retire_log, setFinal_log]) ?_ (.inl ?_)
    · rw [List.countP_eq_zero.mpr]
      · exact Nat.zero_le _
      · simp [launchOf]
    · have hq : ((c.setFinal id v).retire id).computeQueue = c.computeQueue := retire_computeQueue _ _
      rw [drop, hq]
      exact List.erase_sublist
  | @lose _ id v ha hid hc =>
    refine .of_log [] hL hA (fun k _ => ?_) (by simp) (Nat.zero_le _) (.inl List.erase_sublist)
    rw [node_drop]
    exact node_modify rfl k
  | finish hid hn =>
    exact .of_log [.finish] hL hA (fun _ _ => rfl) rfl (Nat.le_of_eq rfl) (.inl List.erase_sublist)

end Core

/-! ## The counters -/

section Limit

variable {cfg : Config} {u v : FunctionalUnit} {L : Nat} {k : Units}

section

variable (hm : cfg.unlimitedMode = false)
include hm

theorem takeUnit_of_ne (hv : v ≠ u) : (takeUnit cfg k v).1 u = k u := by
  simp only [takeUnit, hm, Bool.false_eq_true, if_false, limitedFU]
  split
  · split
    · simp [Units.use, Function.update_of_ne (Ne.symm hv)]
    · rfl
  · rfl

/-- A unit of the class counts, unless the limit is reached. -/
theorem takeUnit_self (hu : u.counted = true) (hlim : cfg.limit u = L) (hk : k u ≤ L) :
    (takeUnit cfg k u).1 u = k u + 1 ∧ k u < L ∨ (takeUnit cfg k u).1 u = k u ∧ k u = L ∧
    (takeUnit cfg k u).2 = false := by
  simp only [takeUnit, hm, Bool.false_eq_true, if_false, limitedFU, hu, if_true, hlim]
  by_cases hlt : k u < L
  · rw [if_pos (.inr (by omega))]
    exact .inl ⟨by simp [Units.use], hlt⟩
  · rw [if_neg (by omega)]
    exact .inr ⟨rfl, by omega, rfl⟩

theorem takeUnit_le (hu : u.counted = true) (hlim : cfg.limit u = L) (hk : k u ≤ L) (v : FunctionalUnit) :
    k u ≤ (takeUnit cfg k v).1 u ∧ (takeUnit cfg k v).1 u ≤ L := by
  by_cases hv : v = u
  · subst hv
    rcases takeUnit_self hm hu hlim hk with ⟨h, hlt⟩ | ⟨h, hL, -⟩ <;> omega
  · rw [takeUnit_of_ne hm hv]
    omega

end

end Limit

/-- The next iteration lets an instance of class `u` use a unit without counting it: the pass over the compute queue
charges another class, or the scan launches an instance of latency 0 or takes a branch. -/
def St.uncharged (s : St) (cfg : Config) (u : FunctionalUnit) : Bool :=
  match s.pc with
  | .compute i => s.core.computeQueue[i]?.any fun id => (s.core.node id).functionalUnit = u ∧ s.core.charged i ≠ u
  | .scan i => s.core.reservation[i]?.any fun id => s.core.ready id && decide ((s.core.node id).functionalUnit = u) &&
      if (s.core.node id).terminator then decide (s.core.reservation.length < cfg.schedulingThreshold)
      else (s.core.node id).maxCycle == 0
  | _ => false

/-- The instances of class `u` that the pass over the compute queue has not looked at yet. -/
def St.toCharge (s : St) (u : FunctionalUnit) : Nat :=
  match s.pc with
  | .compute i => (s.core.computeQueue.drop i).countP fun k => (s.core.node k).functionalUnit = u
  | _ => 0

/-- The count of the tick that began in `s₁`: the instances of class `u` in flight then and those launched since are
counted, but for those still to be charged, unless the limit is reached and nothing was launched. -/
structure St.Counted (s₁ : St) (u : FunctionalUnit) (L : Nat) (s : St) : Prop where
  head : s₁.core.inFlight u ≤ L
  units : s.units u ≤ L
  charged : s₁.core.inFlight u + s.core.launches u ≤ s₁.core.launches u + s.units u + s.toCharge u ∨
    s.units u = L ∧ s.core.launches u ≤ s₁.core.launches u
  compute : ∀ i, s.pc = .compute i → s.core.launches u ≤ s₁.core.launches u
  inFlight : s.core.inFlight u + s₁.core.launches u ≤ s₁.core.inFlight u + s.core.launches u

namespace St

variable {P : Program} {cfg : Config} {s₁ s s' : St} {u : FunctionalUnit} {L : Nat}

/-- Nothing of class `u` is launched, and what was still to be charged is charged or the limit is reached. -/
theorem Counted.of_count (h : s₁.Counted u L s) (hc : Core.Count u 0 s.core s'.core)
    (hu : s.units u ≤ s'.units u ∧ s'.units u ≤ L)
    (ht : s.units u + s.toCharge u ≤ s'.units u + s'.toCharge u ∨ s'.units u = L ∧ ∃ i, s.pc = .compute i)
    (hpc : ∀ i, s'.pc = .compute i → ∃ j, s.pc = .compute j) : s₁.Counted u L s' := by
  have hl := hc.launches
  have hq := hc.inFlight
  refine ⟨h.head, hu.2, ?_, fun i hi => ?_, by have := h.inFlight; omega⟩
  · rcases ht with ht | ⟨ht, i, hi⟩
    · rcases h.charged with hch | ⟨hch, hle⟩
      · exact .inl (by omega)
      · exact .inr (by omega)
    · have := h.compute i hi
      exact .inr (by omega)
  · obtain ⟨j, hj⟩ := hpc i hi
    have := h.compute j hj
    omega

/-- What a tick has in flight and launches is within the limit. -/
theorem Counted.le (h : s₁.Counted u L s) : s₁.core.inFlight u + s.core.launches u ≤ L + s₁.core.launches u := by
  have hu := h.units
  have hh := h.head
  have hc := h.compute
  rcases h.charged with hch | ⟨-, hle⟩
  · unfold toCharge at hch
    split at hch
    · rename_i i hpc
      have := hc i hpc
      omega
    · omega
  · omega

theorem toCharge_pass {i id : Nat} (hpc : s.pc = .compute i) (hid : s.core.computeQueue[i]? = some id)
    (hp : s.Pass cfg i (s.core.done id) s') :
    s.toCharge u = s'.toCharge u + if (s.core.node id).functionalUnit = u then 1 else 0 := by
  obtain ⟨hi, rfl⟩ := List.getElem?_eq_some_iff.mp hid
  simp only [toCharge, hpc, hp.pc, hp.queue, hp.node]
  rw [List.drop_eq_getElem_cons hi, List.countP_cons]
  simp

/-- The pass over the compute queue charges the class of the node it looks at. -/
theorem Counted.pass (h : s₁.Counted u L s) (hm : cfg.unlimitedMode = false) (hu : u.counted = true)
    (hlim : cfg.limit u = L) (hC : s.uncharged cfg u = false) {i id : Nat} (hpc : s.pc = .compute i)
    (hid : s.core.computeQueue[i]? = some id) (hp : s.Pass cfg i (s.core.done id) s')
    (hc : Core.Count u 0 s.core s'.core) : s₁.Counted u L s' := by
  have htake := takeUnit_le hm hu hlim h.units (s.core.charged i)
  have hto := toCharge_pass (u := u) hpc hid hp
  rw [← hp.units] at htake
  refine h.of_count hc htake ?_ fun _ _ => ⟨i, hpc⟩
  by_cases hid' : (s.core.node id).functionalUnit = u
  · have hch : s.core.charged i = u := by simpa [uncharged, hpc, hid, hid'] using hC
    have hunits := congrFun hp.units u
    rw [if_pos hid'] at hto
    rw [hch] at hunits
    rcases takeUnit_self hm hu hlim h.units with ⟨hk, -⟩ | ⟨hk, hL, -⟩
    · exact .inl (by omega)
    · exact .inr ⟨by omega, i, hpc⟩
  · rw [if_neg hid'] at hto
    exact .inl (by omega)

theorem Counted.quiet (h : s₁.Counted u L s) (hc : Core.Count u 0 s.core s'.core) (hu : s'.units u = s.units u)
    (ht : s.toCharge u = 0) (hpc : ∀ i, s'.pc ≠ .compute i) : s₁.Counted u L s' :=
  h.of_count hc ⟨Nat.le_of_eq hu.symm, hu ▸ h.units⟩ (.inl (by omega)) fun i hi => absurd hi (hpc i)

theorem charge_limited (hm : cfg.unlimitedMode = false) (v : FunctionalUnit) : s.charge cfg v = s := by
  simp [charge, hm]

theorem Counted.launch (h : s₁.Counted u L s) (hm : cfg.unlimitedMode = false) (hu : u.counted = true)
    (hlim : cfg.limit u = L) {v : FunctionalUnit} (hk : (takeUnit cfg s.units v).2 = true)
    (hunits : s'.units = (takeUnit cfg s.units v).1) (ht : s.toCharge u = 0) (hpc : ∀ i, s'.pc ≠ .compute i)
    (hc : Core.Count u (if v = u then 1 else 0) s.core s'.core) : s₁.Counted u L s' := by
  by_cases hv : v = u
  · subst hv
    rw [if_pos rfl] at hc
    have hl := hc.launches
    have hq := hc.inFlight
    have hself : s'.units v = s.units v + 1 ∧ s.units v < L := by
      rw [hunits]
      rcases takeUnit_self hm hu hlim h.units with hself | ⟨-, -, hfalse⟩
      · exact hself
      · rw [hk] at hfalse
        cases hfalse
    refine ⟨h.head, by omega, ?_, fun i hi => absurd hi (hpc i), by have := h.inFlight; omega⟩
    rcases h.charged with hch | ⟨hch, -⟩
    · exact .inl (by omega)
    · omega
  · rw [if_neg hv] at hc
    have hsame : s'.units u = s.units u := by rw [hunits, takeUnit_of_ne hm hv]
    exact h.quiet hc hsame ht hpc

theorem ready_of_launch {c c' : Core} {id : Nat} (h : c.step (.launch id) = some c') :
    c.ready id = true ∧ (c.node id).onUnit = true := by
  simp only [Core.step, Option.ite_none_right_eq_some, Bool.and_eq_true] at h
  exact h.1

/-- **One iteration keeps the count.** -/
theorem Counted.iter (h : s₁.Counted u L s) (hm : cfg.unlimitedMode = false) (hu : u.counted = true)
    (hlim : cfg.limit u = L) (hr : (engine P cfg).Reachable s) (hC : s.uncharged cfg u = false)
    (hs : (engine P cfg).step s .iter = some s') (hi : Iter P cfg s s') : s₁.Counted u L s' := by
  have hcore := core_of_reachable hr
  have huo : u ≠ .other := by rintro rfl; cases hu
  have hcount : ∀ {c c' : Core} {a : Act}, Engine.core.ReachableWhen (ofProgram P) c → c.step a = some c' →
      Core.Count u (c.launchesOf u a) c c' := fun hc hs =>
    Core.count_of_effect (lists_of_reachable hc) (accounts_of_reachable hc) huo
      (Core.effect_of_step (lists_of_reachable hc) hs)
  have hrefl : ∀ c, Core.Count u 0 c c := fun c => ⟨Nat.le_refl _, Nat.le_refl _⟩
  cases hi with
  | commit hpc hid hr' hk hc => exact h.pass hm hu hlim hC hpc hid (pass_of_step hr hs hpc hid).2 (hcount hcore hc)
  | bump hpc hid hr' hk hc => exact h.pass hm hu hlim hC hpc hid (pass_of_step hr hs hpc hid).2 (hcount hcore hc)
  | noUnit hpc hid hr' hk => exact h.pass hm hu hlim hC hpc hid (pass_of_step hr hs hpc hid).2 (hrefl _)
  | computeEnd hpc hi hr' =>
    have ht : s.toCharge u = 0 := by simp [toCharge, hpc, List.drop_eq_nil_iff.mpr (List.getElem?_eq_none_iff.mp hi)]
    exact h.quiet (hrefl _) rfl ht (by simp)
  | nextBB hpc hi hr' =>
    have ht : s.toCharge u = 0 := by simp [toCharge, hpc, List.drop_eq_nil_iff.mpr (List.getElem?_eq_none_iff.mp hi)]
    exact h.quiet (hcount (a := .enterBB s.currBB.name) hcore rfl) rfl ht (by simp [scheduleBB])
  | @schedule n rest k hpc =>
    exact h.quiet (hcount (a := .schedule s.prevBB.name n) hcore rfl) rfl (by simp [toCharge, hpc]) (by simp)
  | @schedEnd k hpc => exact h.quiet (hrefl _) rfl (by simp [toCharge, hpc]) (by cases k <;> simp)
  | lockstep hpc => exact h.quiet (hrefl _) rfl (by simp [toCharge, hpc]) (by simp [tickEnd])
  | scanBegin hpc => exact h.quiet (hrefl _) rfl (by simp [toCharge, hpc]) (by simp)
  | scanEnd hpc hi => exact h.quiet (hrefl _) rfl (by simp [toCharge, hpc]) (by simp [tickEnd])
  | load hpc hid hc =>
    rw [charge_limited hm]
    exact h.quiet (hcount hcore hc) rfl (by simp [toCharge, hpc]) (by simp)
  | store hpc hid hc =>
    rw [charge_limited hm]
    exact h.quiet (hcount hcore hc) rfl (by simp [toCharge, hpc]) (by simp)
  | @zero i id c c' hpc hid hz hc hc' =>
    obtain ⟨hready, hunit⟩ := ready_of_launch hc
    have hterm : (s.core.node id).terminator = false := Core.terminator_of_queued (by simp [Node.queued, hunit])
    have hne : (s.core.node id).functionalUnit ≠ u := fun he => by
      simp [uncharged, hpc, hid, hready, he, hterm, hz] at hC
    have h₁ : Core.Count u 0 s.core c := by simpa [Core.launchesOf, Act.launched, hne] using hcount hcore hc
    rw [charge_limited hm]
    exact h.quiet (h₁.trans (hcount (hcore.step (a := .launch id) trivial hc) hc')) rfl
      (by simp [toCharge, hpc]) (by simp)
  | @unit i id c c' hpc hid hz hk hc hc' =>
    have h₁ := (hcount hcore hc).trans (hcount (hcore.step (a := .launch id) trivial hc) hc')
    exact h.launch hm hu hlim hk rfl (by simp [toCharge, hpc]) (by simp) h₁
  | @branch i id c d bb hpc hid hlt hd hbb hc =>
    have hready : s.core.ready id = true := by
      simp only [Core.step, Option.ite_none_right_eq_some] at hc
      exact hc.1
    have hne : (s.core.node id).functionalUnit ≠ u := fun he => by
      have hterm : (s.core.node id).terminator = true := (terminator_of_dest hd).1
      simp [uncharged, hpc, hid, hready, he, hterm, hlt] at hC
    have h₁ : Core.Count u 0 s.core c := by simpa [Core.launchesOf, Act.launched, hne] using hcount hcore hc
    rw [charge_limited hm]
    exact h.quiet (h₁.trans (hcount (a := .enterBB bb.name) (hcore.step (a := .branch id) trivial hc) rfl)) rfl
      (by simp [toCharge, hpc])
      (by simp [scheduleBB])
  | finish hpc hid ha hq hl hw hc => exact h.quiet (hcount hcore hc) rfl (by simp [toCharge, hpc]) (by simp)
  | skip hpc hid => exact h.quiet (hrefl _) rfl (by simp [toCharge, hpc]) (by simp)
  | spin hpc hid hn ha => exact h

end St

section Reachable

variable {P : Program} {cfg : Config} {s s₁ s₂ : St} {u : FunctionalUnit} {L : Nat}

theorem counted_tickBegin (s : St) (hs : s.core.inFlight u ≤ L) : s.tickBegin.Counted u L s.tickBegin := by
  refine ⟨hs, Nat.zero_le _, .inl ?_, fun _ _ => Nat.le_refl _, Nat.le_refl _⟩
  simp [St.toCharge, St.tickBegin, Core.inFlight, Nat.add_comm]

theorem counted_init (h : (engine P cfg).init s) : s.Counted u L s := by
  obtain ⟨s₀, entry, init, ⟨-, hq, -, -⟩, -, rfl⟩ := h
  exact counted_tickBegin _ (by simp [Core.inFlight, hq])

/-- Every state of a run that charges class `u` counts from the head of some tick. -/
theorem counted_of_reachable (hm : cfg.unlimitedMode = false) (hu : u.counted = true) (hlim : cfg.limit u = L)
    (h : (engine P cfg).ReachableWhen (fun s e => e = .iter → s.uncharged cfg u = false) s) : ∃ s₁ :
      St, s₁.Counted u L s := by
  refine System.invariantWhen (I := fun s => ∃ s₁ : St, s₁.Counted u L s) (fun s hs => ⟨s, counted_init hs⟩) ?_ h
  rintro s e s' hr ⟨s₁, hI⟩ hC hs
  have hL := lists_of_reachable (core_of_reachable hr)
  have huo : u ≠ .other := by rintro rfl; cases hu
  have hcount : ∀ {c' : Core} {a : Act}, s.core.step a = some c' → Core.Count u (s.core.launchesOf u a) s.core c' :=
    fun hs => Core.count_of_effect hL (accounts_of_reachable (core_of_reachable hr)) huo (Core.effect_of_step hL hs)
  cases move_of_reachable hr hs with
  | tick hpc hrun =>
    have := hI.le
    have := hI.inFlight
    exact ⟨_, counted_tickBegin s (by omega)⟩
  | iter hne hi => exact ⟨s₁, hI.iter hm hu hlim hr.reachable (hC rfl) hs hi⟩
  | @readCommit id data hpc hid =>
    have hstep : s.core.step (.readCommit id data) = some (s.core.readCommit id data) := by simp [Core.step, hid]
    exact ⟨s₁, hI.quiet (hcount hstep) rfl (by simp [St.toCharge, hpc]) (by simp [hpc])⟩
  | @writeCommit id hpc hid =>
    have hstep : s.core.step (.writeCommit id) = some (s.core.writeCommit id) := by simp [Core.step, hid]
    exact ⟨s₁, hI.quiet (hcount hstep) rfl (by simp [St.toCharge, hpc]) (by simp [hpc])⟩

end Reachable

/-- The state `s` is the head of a tick, reached by a run whose steps meet `C`. -/
def TickHead (P : Program) (cfg : Config) (C : St → Ev → Prop) (s : St) : Prop :=
  (engine P cfg).init s ∨ ∃ s₀, (engine P cfg).ReachableWhen C s₀ ∧ C s₀ .tick ∧ (engine P cfg).step s₀ .tick = some s

/-- **The limits of the functional units.** For a class that `limitedFU` counts, outside the unlimited mode, and in a
run that never lets an instance of the class use a unit uncharged: the instances of the class in flight at the head of
a tick, together with those the tick launches, are within the limit. -/
theorem units_within_limit {P : Program} {cfg : Config} {u : FunctionalUnit} {L : Nat} (hlim : cfg.limit u = L)
    (hu : u.counted = true) (hm : cfg.unlimitedMode = false) {s₁ s₂ : St}
    (h : TickHead P cfg (fun s e => e = .iter → s.uncharged cfg u = false) s₁)
    (hrun : (engine P cfg).Run (fun s e => e = .iter ∧ s.uncharged cfg u = false) s₁ s₂) :
    s₁.core.inFlight u + s₂.core.launches u ≤ L + s₁.core.launches u := by
  have hreach : (engine P cfg).Reachable s₁ := by
    rcases h with h | ⟨s₀, h, hC, hs⟩
    · exact .init h
    · exact (h.step hC hs).reachable
  have hhead : s₁.Counted u L s₁ := by
    rcases h with h | ⟨s₀, h, hC, hs⟩
    · exact counted_init h
    · obtain ⟨t, ht⟩ := counted_of_reachable hm hu hlim h
      cases move_of_reachable h hs with
      | tick hpc hr =>
        have := ht.le
        have := ht.inFlight
        exact counted_tickBegin s₀ (by omega)
  -- the iterations of the tick
  have hcounted : (engine P cfg).Reachable s₂ ∧ s₁.Counted u L s₂ := by
    induction hrun with
    | refl => exact ⟨hreach, hhead⟩
    | @tail s s' e _ hC hs ih =>
      obtain ⟨rfl, hC⟩ := hC
      refine ⟨ih.1.step trivial hs, ?_⟩
      cases move_of_reachable ih.1 hs with
      | iter hne hi => exact ih.2.iter hm hu hlim ih.1 hC hs hi
  exact hcounted.2.le

/-- One unit of class `u`, the other classes without limit. -/
def oneUnit (u : FunctionalUnit) : Config := ⟨false, 10000, fun v => if v = u then 1 else -1⟩

/-- With one adder the second operation waits while the first is in flight. -/
theorem units_within_limit_twoOps : ∃ s₁ s₂ : St, s₁.core.inFlight .intAdder = 1 ∧
    (engine (twoOps .intAdder 2) (oneUnit .intAdder)).Run
      (fun s e => e = .iter ∧ s.uncharged (oneUnit .intAdder) .intAdder = false) s₁ s₂ ∧
    1 ∈ s₂.core.reservation ∧ s₂.core.launches .intAdder ≤ s₁.core.launches .intAdder := by
  obtain ⟨s₀, hs₀, htick⟩ := System.reachableWhen_of_replay
    (C := fun (s : St) (e : Ev) => decide (e ≠ .iter) || !s.uncharged (oneUnit .intAdder) .intAdder)
    (engine_boot (twoOps .intAdder 2) (oneUnit .intAdder) rfl fun _ => 0) (List.replicate 10 .iter)
    (fun s => (((engine (twoOps .intAdder 2) (oneUnit .intAdder)).step s .tick).any fun s₁ =>
      s₁.core.inFlight .intAdder = 1 ∧
      (((engine (twoOps .intAdder 2) (oneUnit .intAdder)).replay
        (fun s e => decide (e = .iter) && !s.uncharged (oneUnit .intAdder) .intAdder) s₁ (List.replicate 5 .iter)).any
          fun s₂ => 1 ∈ s₂.core.reservation) = true) = true) (by decide +kernel)
  obtain ⟨s₁, hs₁, hp⟩ := (Option.any_eq_true _ _).mp htick
  obtain ⟨hq, hreplay⟩ := of_decide_eq_true hp
  obtain ⟨s₂, hs₂, hmem⟩ := (Option.any_eq_true _ _).mp hreplay
  have hrun := (System.run_of_replay hs₂).mono
    (D := fun s e => e = .iter ∧ s.uncharged (oneUnit .intAdder) .intAdder = false) fun s e h => by simpa using h
  have hhead : TickHead (twoOps .intAdder 2) (oneUnit .intAdder)
      (fun s e => e = .iter → s.uncharged (oneUnit .intAdder) .intAdder = false) s₁ :=
    .inr ⟨s₀, hs₀.mono fun s e h he => by simpa [he] using h, by simp, hs₁⟩
  have hle := units_within_limit (L := 1) rfl rfl rfl hhead hrun
  exact ⟨s₁, s₂, hq, hrun, of_decide_eq_true hmem, by omega⟩

/-- The bound that a limit stands for, over every tick. -/
def WithinLimit (P : Program) (cfg : Config) (u : FunctionalUnit) (L : Nat) : Prop :=
  ∀ s₁ s₂, TickHead P cfg (fun _ _ => True) s₁ → (engine P cfg).Run (fun _ e => e = .iter) s₁ s₂ →
    s₁.core.inFlight u + s₂.core.launches u ≤ L + s₁.core.launches u

theorem not_withinLimit {P : Program} {cfg : Config} {u : FunctionalUnit} {L : Nat} {s₁ : St}
    (h : TickHead P cfg (fun _ _ => True) s₁) (n : Nat)
    (hn : ((engine P cfg).replay (fun _ e => decide (e = .iter)) s₁ (List.replicate n .iter)).any
      (fun s₂ => L + s₁.core.launches u < s₁.core.inFlight u + s₂.core.launches u) = true) :
        ¬ WithinLimit P cfg u L := by
  intro hw
  obtain ⟨s₂, hs₂, hlt⟩ := (Option.any_eq_true _ _).mp hn
  have hrun := (System.run_of_replay hs₂).mono (D := fun _ e => e = .iter) fun s e h => by simpa using h
  exact Nat.not_le_of_lt (of_decide_eq_true hlt) (hw s₁ s₂ h hrun)

/-- An addition, a multiplication that waits for it, and another addition. Both additions are of registers: one with a
literal is of class `COUNTER`. -/
def addMulAdd : Program where
  bbList := [⟨"entry", [⟨"%1 = add i64 %0, %0", 3, .compute 1 8 [0, 0] .intAdder List.sum⟩,
    ⟨"%2 = mul i64 %1, 2", 1, .compute 2 8 [1] .intMulti fun ops => ops.headD 0 * 2⟩,
    ⟨"%3 = add i64 %4, %4", 3, .compute 3 8 [4, 4] .intAdder List.sum⟩, ⟨"ret void", 0, .ret⟩]⟩]
  line_ret := by decide

/-- The pass over the compute queue charges the multiplication, which is first in the reservation table, for the
addition in flight, and the second addition gets the one adder too. A limit on dividers is not looked at, one on
conversions alone leaves the engine in unlimited mode, and instances of latency 0 are launched without a unit. -/
theorem units_beyond_limit : ¬ WithinLimit addMulAdd (oneUnit .intAdder) .intAdder 1 ∧
    ¬ WithinLimit (twoOps .fpSpDivid 2) (oneUnit .fpSpDivid) .fpSpDivid 1 ∧
    ¬ WithinLimit (twoOps .conversion 2) (oneUnit .conversion) .conversion 1 ∧
    ¬ WithinLimit (twoOps .intAdder 0) (oneUnit .intAdder) .intAdder 1 := by
  refine ⟨?_, ?_, ?_, ?_⟩
  · obtain ⟨s₀, hs₀, htick⟩ := System.reachable_of_replay
      (engine_boot addMulAdd (oneUnit .intAdder) rfl fun _ => 0) (List.replicate 12 .iter)
      (fun s => (((engine addMulAdd (oneUnit .intAdder)).step s .tick).any fun s₁ =>
        (((engine addMulAdd (oneUnit .intAdder)).replay (fun _ e => decide (e = .iter)) s₁ (List.replicate 5 .iter)).any
          fun s₂ => 1 + s₁.core.launches .intAdder < s₁.core.inFlight .intAdder + s₂.core.launches .intAdder)) = true)
      (by decide +kernel)
    obtain ⟨s₁, hs₁, hlt⟩ := (Option.any_eq_true _ _).mp htick
    exact not_withinLimit (.inr ⟨s₀, hs₀, trivial, hs₁⟩) 5 hlt
  · exact not_withinLimit (.inl (engine_boot _ _ rfl fun _ => 0)) 8 (by decide +kernel)
  · exact not_withinLimit (.inl (engine_boot _ _ rfl fun _ => 0)) 8 (by decide +kernel)
  · exact not_withinLimit (.inl (engine_boot _ _ rfl fun _ => 0)) 8 (by decide +kernel)

end Salam.Engine
