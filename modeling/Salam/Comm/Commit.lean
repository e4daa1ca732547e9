import Mathlib.Algebra.Order.BigOperators.Group.Finset
import Salam.Comm.Ownership

/-!
# Requests are committed

`Owned` says where a request is. Here it is shown that it can leave: when the memory accepts and answers, every packet
that is out comes back (`run_settle`), after which all ports are free, and the next tick sends at least one packet
(`run_tick`); the bytes that are left become fewer, and at the end every request is committed (`run_commit`). The tick
is there when it is needed (`Awake`), and the addresses have to be in the range of some port (`Covered`), for the source
panics on others.

* `request_ownership`: every request has one owner, and is committed once.
-/

namespace Salam.Comm

namespace St

/-! ## The tick is scheduled -/

/-- While a request waits, the tick is scheduled. -/
def Awake (s : St) : Prop := ∀ d, s.queue d ≠ [] → s.tickScheduled = true

theorem awake_rescheduleIfWaiting (s : St) : s.rescheduleIfWaiting.Awake := by
  unfold Awake rescheduleIfWaiting
  split
  · rename_i h
    intro d hd
    cases d with
    | read => exact absurd h.1 hd
    | write => exact absurd h.2 hd
  · exact fun _ _ => rfl

variable {cfg : Config}

theorem awake_tick {env : Env} {s s' : St} {calls : List Call} (h : s.tick cfg env calls = .ok s') : s'.Awake := by
  simp only [tick] at h
  split at h
  · rename_i hempty
    obtain rfl := Except.ok.inj h
    intro d hd
    cases d with
    | read => exact absurd hempty.1 hd
    | write => exact absurd hempty.2 hd
  · unfold processMemoryRequests at h
    split at h
    · exact Except.ok.inj h ▸ awake_rescheduleIfWaiting _
    · split at h
      · cases h
      · split at h
        · cases h
        · exact Except.ok.inj h ▸ awake_rescheduleIfWaiting _

theorem Awake.resend {env : Env} {p : Nat} {ks : List Packet} : ∀ {s : St}, s.Awake → (resend env p ks s).Awake := by
  induction ks with
  | nil => exact fun h => h
  | cons k rest ih =>
    intro s h
    unfold St.resend
    split
    · exact ih fun _ _ => rfl
    · exact h

theorem Awake.step {s s' : St} {e : Ev} (h : s.Awake) (hs : s.step cfg e = some s') : s'.Awake := by
  cases e with
  | call c =>
    simp only [St.step] at hs
    split at hs
    · obtain rfl := Option.some.inj hs
      cases c with
      | enqueueRead add len => exact fun _ _ => rfl
      | enqueueWrite add data => exact fun _ _ => rfl
      | finish => exact h
    · cases hs
  | tick calls env =>
    simp only [St.step] at hs
    split at hs
    · exact awake_tick (ok_of_toOption hs)
    · cases hs
  | retry p env =>
    simp only [St.step] at hs
    split at hs
    · exact Option.some.inj hs ▸ h.resend
    · cases hs
  | response id data =>
    simp only [St.step] at hs
    split at hs
    · split at hs
      · have hr := ok_of_toOption hs
        unfold recvPacket at hr
        split at hr
        · cases hr
        · exact Except.ok.inj hr ▸ fun _ _ => rfl
      · cases hs
    · cases hs
  | write flags =>
    obtain rfl := Option.some.inj hs
    exact fun _ _ => rfl

/-! ## The addresses -/

/-- A port covers the address. -/
def covered (cfg : Config) (add : Word) : Bool := cfg.ports.any fun i => i.contains add

/-- The addresses of the bytes that are left are in the range of some port. -/
def Covered (cfg : Config) (s : St) : Prop :=
  ∀ r < s.nextReq, ∀ i < (s.reqs r).left, covered cfg ((s.reqs r).current + BitVec.ofNat 64 i) = true

/-- The memory accepts every packet and lets every request through. -/
def willing : Env := ⟨fun _ => true, fun _ _ => true⟩

/-- No more bytes are left than before, and for the same requests. -/
structure Less (cfg : Config) (s s' : St) : Prop where
  nextReq : s'.nextReq = s.nextReq
  left : ∀ r, (s'.reqs r).left ≤ (s.reqs r).left
  covered : Covered cfg s → Covered cfg s'

theorem Less.refl (cfg : Config) (s : St) : Less cfg s s := ⟨rfl, fun _ => Nat.le_refl _, id⟩

theorem Less.trans {s s₁ s₂ : St} (h : Less cfg s s₁) (h' : Less cfg s₁ s₂) : Less cfg s s₂ :=
  ⟨h'.nextReq.trans h.nextReq, fun r => (h'.left r).trans (h.left r), fun hc => h'.covered (h.covered hc)⟩

theorem Less.of_setQueue {s s' : St} {d : Dir} {q : List Nat} (h : Less cfg (s.setQueue d q) s') :
    Less cfg s s' := ⟨h.nextReq, h.left, h.covered⟩

section Ports

variable {cfg : Config} {s s' : St} {d : Dir} {r p : Nat} {k : Packet}

theorem exists_inRange {add : Word} (h : covered cfg add = true) : ∃ kind, inRange cfg kind add = true := by
  obtain ⟨i, hi, hadd⟩ := List.any_eq_true.mp h
  exact ⟨i.kind, List.any_eq_true.mpr ⟨i, hi, by simp [hadd]⟩⟩

/-- A port is looked for among those of the kind whose range has the address. -/
theorem choosePort_ok (env : Env) (h : covered cfg (s.reqs r).current = true) : ∃ kind ok,
    inRange cfg kind (s.reqs r).current = true ∧ (env = willing → ∀ p, ok p = true) ∧
    choosePort cfg env s d r = .ok (getValidPort cfg s d kind (s.reqs r).current ok) := by
  obtain ⟨kind, hkind⟩ := exists_inRange h
  simp only [choosePort]
  split_ifs with h₁ h₂ h₃ h₄
  · exact ⟨_, env.valid r, h₁, fun he => he ▸ fun _ => rfl, rfl⟩
  · exact ⟨_, env.valid r, h₂, fun he => he ▸ fun _ => rfl, rfl⟩
  · exact ⟨_, fun _ => true, h₃, fun _ _ => rfl, rfl⟩
  · exact ⟨_, fun _ => true, h₄, fun _ _ => rfl, rfl⟩
  · cases kind
    · exact absurd hkind h₁
    · exact absurd hkind h₂
    · exact absurd hkind h₃
    · exact absurd hkind h₄

/-- When all ports are free, a port is found. -/
theorem choosePort_free (h : covered cfg (s.reqs r).current = true) (hfree : ∀ p, s.portReq d p = none)
    (hst : ∀ p, s.outstandingPkts p = []) : ∃ p, choosePort cfg willing s d r = .ok (some p) := by
  obtain ⟨kind, ok, hkind, hok, heq⟩ := choosePort_ok willing h (s := s) (d := d)
  have hsome : (getValidPort cfg s d kind (s.reqs r).current ok).isSome = true := by
    obtain ⟨i, hi, hadd⟩ := List.any_eq_true.mp hkind
    obtain ⟨p, hp, rfl⟩ := List.getElem_of_mem hi
    refine List.find?_isSome.mpr ⟨p, List.mem_range.mpr hp, ?_⟩
    simp only [List.getElem?_eq_getElem hp, Option.any_some, hadd, isStalled, hst, hfree, hok rfl]
    rfl
  obtain ⟨p, hp⟩ := Option.isSome_iff_exists.mp hsome
  exact ⟨p, by rw [heq, hp]⟩

theorem Sent.left_lt {q : MemoryRequest} (h : s.Sent d p r k q s') : (s'.reqs r).left < (s.reqs r).left := by
  obtain ⟨hpos, hle⟩ := h.size
  rw [h.reqs, Function.update_self, h.rest]
  omega

theorem Sent.less {q : MemoryRequest} (h : s.Sent d p r k q s') : Less cfg s s' := by
  have hself : s'.reqs r = q := by rw [h.reqs, Function.update_self]
  have hother : ∀ {x}, x ≠ r → s'.reqs x = s.reqs x := fun hx => by rw [h.reqs, Function.update_of_ne hx]
  refine ⟨h.nextReq, fun x => ?_, fun hc x hx i hi => ?_⟩
  · by_cases hxr : x = r
    · rw [hxr]
      exact Nat.le_of_lt h.left_lt
    · rw [hother hxr]
  · by_cases hxr : x = r
    · subst hxr
      rw [hself, h.rest] at hi
      rw [hself, h.current, BitVec.add_assoc, ← BitVec.ofNat_add]
      exact hc x (h.nextReq ▸ hx) (k.size + i) (by omega)
    · rw [hother hxr] at hi ⊢
      exact hc x (h.nextReq ▸ hx) i hi

theorem Owned.covered_current (h : s.Owned) (hc : Covered cfg s) (hr : r ∈ s.queue d) :
    covered cfg (s.reqs r).current = true := by
  have hlt := (h.own d r (.inl hr)).1
  have := hc r hlt 0 ((h.left r hlt).mp (h.waiting d r hr))
  simpa using this

theorem Owned.process_less (env : Env) {todo : List Nat} : ∀ {kept : List Nat} {s : St}, s.Owned → Covered cfg s →
    s.queue d = kept ++ todo → ∃ s', St.process cfg env d kept todo s = .ok s' ∧ Less cfg s s' := by
  induction todo with
  | nil => exact fun {_ s} _ _ _ => ⟨s, rfl, .refl cfg s⟩
  | cons r rest ih =>
    intro kept s h hc hq
    have hr : r ∈ s.queue d := by rw [hq]; simp
    obtain ⟨kind, ok, -, -, hport⟩ := choosePort_ok env (h.covered_current hc hr) (d := d)
    unfold St.process
    rw [hport]
    cases hp : getValidPort cfg s d kind (s.reqs r).current ok with
    | none => exact ih h hc (by rw [hq]; simp)
    | some p =>
      rw [hp] at hport
      obtain ⟨h', hq'⟩ := h.carry hq hport
      obtain ⟨k, q, hs⟩ := h.sent_of_choosePort hq hport
      have hless : Less cfg s ((s.setQueue d (kept ++ rest)).carry cfg env d r p) := hs.less.of_setQueue
      obtain ⟨s', hs', hless'⟩ := ih h' (hless.covered hc) hq'
      exact ⟨s', hs', hless.trans hless'⟩

/-- When all ports are free, the first request of the queue is taken. -/
theorem Owned.process_lt {rest : List Nat} (h : s.Owned) (hc : Covered cfg s) (hq : s.queue d = r :: rest)
    (hfree : ∀ p, s.portReq d p = none) (hst : ∀ p, s.outstandingPkts p = []) :
    ∃ s', St.process cfg willing d [] (r :: rest) s = .ok s' ∧ Less cfg s s' ∧ (s'.reqs r).left < (s.reqs r).left := by
  have hr : r ∈ s.queue d := by rw [hq]; simp
  obtain ⟨p, hport⟩ := choosePort_free (h.covered_current hc hr) hfree hst
  have hq : s.queue d = [] ++ r :: rest := hq
  obtain ⟨h', hq'⟩ := h.carry hq hport
  obtain ⟨k, q, hs⟩ := h.sent_of_choosePort hq hport
  have hless : Less cfg s ((s.setQueue d ([] ++ rest)).carry cfg willing d r p) := hs.less.of_setQueue
  obtain ⟨s', hs', hless'⟩ := h'.process_less willing (hless.covered hc) hq'
  have hlt : _ < (s.reqs r).left := hs.left_lt
  refine ⟨s', ?_, hless.trans hless', Nat.lt_of_le_of_lt (hless'.left r) hlt⟩
  unfold St.process
  rw [hport]
  exact hs'

theorem checkMMR_nil (s : St) : ∃ m c l, s.checkMMR [] = { s with mmreg := m, computationNeeded := c, log := l } := by
  unfold St.checkMMR
  split
  · exact ⟨_, _, _, rfl⟩
  · exact ⟨_, _, _, rfl⟩

/-- The memory requests are processed, and when all ports are free and a request waits, a packet is sent. -/
theorem Owned.processMemoryRequests_lt (h : s.Owned) (hc : Covered cfg s) (hq : s.queue d ≠ [])
    (hfree : ∀ d p, s.portReq d p = none) (hst : ∀ p, s.outstandingPkts p = []) :
    ∃ s', s.processMemoryRequests cfg willing = .ok s' ∧ Less cfg s s' ∧
      ∃ r < s.nextReq, (s'.reqs r).left < (s.reqs r).left := by
  obtain ⟨r₀, hr₀⟩ := List.exists_mem_of_ne_nil _ hq
  have hstalled : allPortsStalled cfg s = false := by
    obtain ⟨i, hi, -⟩ := List.any_eq_true.mp (h.covered_current hc hr₀)
    obtain ⟨p, hp, -⟩ := List.getElem_of_mem hi
    refine List.all_eq_false.mpr ⟨p, List.mem_range.mpr hp, ?_⟩
    simp [isStalled, hst]
  have hsched : ∀ t : St, Less cfg t t.rescheduleIfWaiting := fun t => by
    unfold St.rescheduleIfWaiting
    split
    · exact .refl cfg t
    · exact ⟨rfl, fun _ => Nat.le_refl _, id⟩
  unfold St.processMemoryRequests
  rw [hstalled, if_neg Bool.false_ne_true]
  cases hread : s.queue .read with
  | nil =>
    -- the request is a write
    have hwrite : s.queue .write ≠ [] := by
      cases d with
      | read => exact absurd hread hq
      | write => exact hq
    obtain ⟨r, rest, hr⟩ := List.exists_cons_of_ne_nil hwrite
    obtain ⟨s', hs', hless, hlt⟩ := h.process_lt hc hr (hfree .write) hst
    have hmem : r ∈ s.queue .write := by rw [hr]; exact List.mem_cons_self
    refine ⟨_, ?_, hless.trans (hsched s'), r, (h.own _ r (.inl hmem)).1, Nat.lt_of_le_of_lt ((hsched s').left r) hlt⟩
    rw [← hr] at hs'
    simp only [St.process, hs']
  | cons r rest =>
    obtain ⟨s₁, hs₁, hless₁, hlt⟩ := h.process_lt hc hread (hfree .read) hst
    have hall : s.queue .read = [] ++ r :: rest := hread
    have h₁ : s₁.Owned := h.process hall hs₁
    have hall₁ : s₁.queue .write = [] ++ s₁.queue .write := rfl
    obtain ⟨s', hs', hless⟩ := h₁.process_less willing (hless₁.covered hc) hall₁
    have hmem : r ∈ s.queue .read := by rw [hread]; exact List.mem_cons_self
    have hless' := hless.trans (hsched s')
    refine ⟨_, ?_, hless₁.trans hless', r, (h.own _ r (.inl hmem)).1, Nat.lt_of_le_of_lt (hless'.left r) hlt⟩
    simp only [hs₁, hs']

/-- **The next tick sends a packet**, when all ports are free. -/
theorem run_tick (h : s.Owned) (hawake : s.Awake) (hc : Covered cfg s) (hq : s.queue d ≠ [])
    (hfree : ∀ d p, s.portReq d p = none) (hst : ∀ p, s.outstandingPkts p = []) :
    ∃ s', (comm cfg).Run (fun _ _ => True) s s' ∧ Less cfg s s' ∧
    ∃ r < s.nextReq, (s'.reqs r).left < (s.reqs r).left := by
  obtain ⟨m, c, l, heq⟩ := checkMMR_nil { s with tickScheduled := false }
  have hstart : ({ s with tickScheduled := false } : St).Owned :=
    h.congr rfl rfl (Nat.le_refl _) rfl rfl rfl rfl rfl fun _ _ => rfl
  have hnone : ∀ c ∈ ([] : List Call), c.ok = true := nofun
  have h₁ := hstart.checkMMR hnone
  rw [heq] at h₁
  obtain ⟨s', hs', hless, hlt⟩ := h₁.processMemoryRequests_lt hc hq hfree hst
  refine ⟨s', .single (a := .tick [] willing) trivial ?_, ⟨hless.nextReq, hless.left, hless.covered⟩, hlt⟩
  have hne : ¬(s.queue .read = [] ∧ s.queue .write = []) := fun he => by
    cases d with
    | read => exact hq he.1
    | write => exact hq he.2
  show St.step cfg s (.tick [] willing) = some s'
  simp only [St.step, hawake d hq, List.all_nil, Bool.and_self, if_true, St.tick, heq]
  rw [if_neg hne, hs']
  rfl

/-! ## The packets come back -/

/-- A retry of a memory that accepts sends all packets of the port. -/
theorem resend_willing {ks : List Packet} : ∀ {s : St}, s.outstandingPkts p = ks → ∃ b, resend willing p ks s = { s with
    outstandingPkts := Function.update s.outstandingPkts p []
    inFlight := s.inFlight ++ ks
    tickScheduled := b } := by
  induction ks with
  | nil =>
    intro s hp
    refine ⟨s.tickScheduled, ?_⟩
    rw [← hp, Function.update_eq_self, hp, List.append_nil]
    rfl
  | cons k rest ih =>
    intro s hp
    obtain ⟨b, hb⟩ := ih (s := { s.setOutstanding p rest with inFlight := s.inFlight ++ [k] }.schedule)
      (Function.update_self ..)
    refine ⟨b, ?_⟩
    have haccept : willing.accept k.id = true := rfl
    refine hb.trans ?_
    simp [setOutstanding, schedule]

theorem Owned.answer (cfg : Config) (h : s.Owned) (hk : k ∈ s.inFlight) :
    ∃ s', s.step cfg (.response k.id (List.replicate k.size 0)) = some s' ∧ s.Answered k s' := by
  have hfind : s.inFlight.find? (fun x => x.id = k.id) = some k := by
    have hsome : (s.inFlight.find? fun x => x.id = k.id).isSome = true := List.find?_isSome.mpr ⟨k, hk, by simp⟩
    obtain ⟨x, hx⟩ := Option.isSome_iff_exists.mp hsome
    have hid : x.id = k.id := by simpa using List.find?_some hx
    rw [hx, h.unique x k (.inl (List.mem_of_find?_eq_some hx)) (.inl hk) hid]
  have hreq := h.findMemRequest (.inl hk)
  have hport := h.carried _ _ (h.owner k (.inl hk)).1
  obtain ⟨p, hp⟩ := Option.isSome_iff_exists.mp hport
  have hrecv := recvPacket_eq (s := { s with inFlight := s.inFlight.erase k }) (List.replicate k.size 0) hreq hp
  refine ⟨_, ?_, answered_of_recvPacket hreq hport hrecv⟩
  simp only [St.step, hfind, List.length_replicate, implies_true, if_true, hrecv]
  rfl

theorem Answered.less (h : s.Answered k s') : Less cfg s s' := by
  refine ⟨h.nextReq, fun x => Nat.le_of_eq (h.left x), fun hc x hx i hi => ?_⟩
  rw [h.left] at hi
  rw [h.current]
  exact hc x (h.nextReq ▸ hx) i hi

theorem run_inFlight (cfg : Config) (hk : s.Out k) : ∃ s', (comm cfg).Run (fun _ _ => True) s s' ∧ k ∈ s'.inFlight ∧
    s'.acc = s.acc ∧ Less cfg s s' := by
  rcases hk with hk | ⟨p, hk⟩
  · exact ⟨s, .refl s, hk, rfl, .refl cfg s⟩
  · obtain ⟨b, hb⟩ := resend_willing (s := s) (p := p) rfl
    refine ⟨_, .single (a := .retry p willing) trivial (if_pos ?_), ?_⟩
    · cases ho : s.outstandingPkts p with
      | nil => rw [ho] at hk; cases hk
      | cons x rest => simp [isStalled, ho]
    · rw [recvReqRetry, hb]
      exact ⟨List.mem_append_right _ hk, rfl, rfl, fun _ => Nat.le_refl _, id⟩

end Ports

section Commit

variable {cfg : Config} {s : St} {s' : St}

theorem run_single {e : Ev} (h : s.step cfg e = some s') : (comm cfg).Run (fun _ _ => True) s s' :=
  .single trivial h

theorem Owned.run (h : s.Owned) (hrun : (comm cfg).Run (fun _ _ => True) s s') : s'.Owned :=
  hrun.keeps (fun _ _ _ h _ hs => h.step hs) h

theorem Awake.run (h : s.Awake) (hrun : (comm cfg).Run (fun _ _ => True) s s') : s'.Awake :=
  hrun.keeps (fun _ _ _ h _ hs => h.step hs) h

/-- **Every packet that is out comes back.** -/
theorem run_settle (cfg : Config) (h : s.Owned) :
    ∃ s', (comm cfg).Run (fun _ _ => True) s s' ∧ Less cfg s s' ∧ ∀ d, s'.acc d = [] := by
  -- by induction over the requests with a packet out
  generalize hn : (s.acc .read).length + (s.acc .write).length = n
  induction n generalizing s with
  | zero =>
    refine ⟨s, .refl s, .refl cfg s, fun d => List.length_eq_zero_iff.mp ?_⟩
    cases d <;> omega
  | succ n ih =>
    obtain ⟨d, r, hr⟩ : ∃ d r, r ∈ s.acc d := by
      by_contra hnone
      push Not at hnone
      have hnil : ∀ d, s.acc d = [] := fun d => List.eq_nil_iff_forall_not_mem.mpr (hnone d)
      simp [hnil] at hn
    obtain ⟨k, hk, rfl, rfl⟩ := h.packet d r hr
    obtain ⟨s₁, hrun₁, hk₁, hacc₁, hless₁⟩ := run_inFlight cfg hk
    have h₁ := h.run hrun₁
    obtain ⟨s₂, hstep, hans⟩ := h₁.answer cfg hk₁
    have hrun₂ : (comm cfg).Run (fun _ _ => True) s s₂ := hrun₁.trans (run_single hstep)
    have hlen := List.length_erase_of_mem hr
    have hpos := List.length_pos_of_mem hr
    obtain ⟨s', hrun, hless, hnil⟩ := ih (h.run hrun₂) (by
      rw [hans.acc, hans.acc, hacc₁]
      cases hd : k.dir <;> simp only [hd] at hlen hpos <;> simp <;> omega)
    exact ⟨s', hrun₂.trans hrun, (hless₁.trans hans.less).trans hless, hnil⟩

/-- The bytes that are left. -/
def total (s : St) : Nat := ∑ r ∈ Finset.range s.nextReq, (s.reqs r).left

theorem Less.total_le (h : Less cfg s s') : s'.total ≤ s.total := by
  unfold total
  rw [h.nextReq]
  exact Finset.sum_le_sum fun r _ => h.left r

theorem Less.total_lt (h : Less cfg s s') {r : Nat} (hr : r < s.nextReq) (hlt : (s'.reqs r).left < (s.reqs r).left) :
    s'.total < s.total := by
  unfold total
  rw [h.nextReq]
  exact Finset.sum_lt_sum (fun r _ => h.left r) ⟨r, Finset.mem_range.mpr hr, hlt⟩

/-- **When the memory accepts and answers, nothing is left to do.** -/
theorem run_commit (h : s.Owned) (hawake : s.Awake) (hc : Covered cfg s) :
    ∃ s', (comm cfg).Run (fun _ _ => True) s s' ∧ s'.nextReq = s.nextReq ∧ ∀ d, s'.queue d = [] ∧ s'.acc d = [] := by
  -- by induction over the bytes that are left
  generalize hn : s.total = n
  induction n using Nat.strong_induction_on generalizing s with
  | _ n ih =>
    obtain ⟨s₁, hrun₁, hless₁, hacc⟩ := run_settle cfg h
    have h₁ := h.run hrun₁
    by_cases hq : ∀ d, s₁.queue d = []
    · exact ⟨s₁, hrun₁, hless₁.nextReq, fun d => ⟨hq d, hacc d⟩⟩
    · push Not at hq
      obtain ⟨d, hd⟩ := hq
      have hfree : ∀ d p, s₁.portReq d p = none := by
        intro d p
        by_contra hne
        obtain ⟨r, hr⟩ := Option.ne_none_iff_exists'.mp hne
        have := ((h₁.carrier d p r).mp hr).1
        rw [hacc] at this
        cases this
      have hst : ∀ p, s₁.outstandingPkts p = [] := by
        intro p
        refine List.eq_nil_iff_forall_not_mem.mpr fun k hk => ?_
        have := (h₁.owner k (.inr ⟨p, hk⟩)).1
        rw [hacc] at this
        cases this
      obtain ⟨s₂, hrun₂, hless₂, r, hr, hlt⟩ := run_tick h₁ (hawake.run hrun₁) (hless₁.covered hc) hd hfree hst
      have hless := hless₁.trans hless₂
      have hrun := hrun₁.trans hrun₂
      have htotal : s₂.total < n := hn ▸ Nat.lt_of_lt_of_le (hless₂.total_lt hr hlt) hless₁.total_le
      obtain ⟨s', hrun', hnext, hdone⟩ := ih _ htotal (h.run hrun) (hawake.run hrun) (hless.covered hc) rfl
      exact ⟨s', hrun.trans hrun', hnext.trans hless.nextReq, hdone⟩

end Commit

end St

theorem awake_of_reachable {cfg : Config} {s : St} (h : (comm cfg).Reachable s) : s.Awake := by
  refine System.invariantWhen (I := St.Awake) ?_ ?_ h
  · rintro s rfl d hd
    exact absurd rfl hd
  · exact fun s e s' _ hs _ hstep => hs.step hstep

/-- **Every request has one owner, and is committed once.** A request is in one of the two queues, or in one of the two
lists, or committed, and that once; in a list it has one port and one packet; a port carries a request of the list or
nothing; the request of a response is found; and when the memory accepts and answers, every request is committed. -/
theorem request_ownership {cfg : Config} {s : St} (h : (comm cfg).Reachable s) :
    (∀ r < s.nextReq,
      (s.queue .read).count r + (s.queue .write).count r + (s.acc .read).count r + (s.acc .write).count r +
        s.commits .read r + s.commits .write r = 1) ∧
    (∀ d, ∀ r ∈ s.acc d, ∃ p k, s.CarriedBy d r p k) ∧
    (∀ d p r, s.portReq d p = some r ↔ r ∈ s.acc d ∧ (s.reqs r).port = some p) ∧
    (∀ k ∈ s.inFlight, ∀ data,
      ({ s with inFlight := s.inFlight.erase k } : St).recvPacket k data ≠ .error .notFound) ∧
    (St.Covered cfg s → ∃ s', (comm cfg).Run (fun _ _ => True) s s' ∧
      ∀ r < s.nextReq, s'.commits .read r + s'.commits .write r = 1) := by
  have ho := owned_of_reachable h
  refine ⟨fun r hr => ho.count_eq hr, fun d r hr => ho.carriedBy hr, ho.carrier, fun k hk data he => ?_, fun hc => ?_⟩
  · have hfind : ({ s with inFlight := s.inFlight.erase k } : St).findMemRequest k = some k.req :=
      ho.findMemRequest (.inl hk)
    unfold St.recvPacket at he
    rw [hfind] at he
    cases he
  · obtain ⟨s', hrun, hnext, hdone⟩ := St.run_commit ho (awake_of_reachable h) hc
    refine ⟨s', hrun, fun r hr => ?_⟩
    have hcount := (ho.run hrun).count_eq (hnext ▸ hr)
    simpa [hdone] using hcount

/-- One port for all addresses. -/
def onePort : Config := ⟨[⟨.localPorts, fun _ => true⟩], 64, by decide⟩

/-- A read over a line boundary and a write; the packet of the write is refused, the first packet of the read is
answered. -/
def halfRead : List Ev :=
  [.call (.enqueueRead 60 8), .call (.enqueueWrite 0 [1, 2]), .tick [] ⟨fun k => k == 0, fun _ _ => true⟩,
    .response 0 [5, 6, 7, 8]]

theorem request_ownership_halfRead : ∃ s, (comm onePort).Reachable s ∧ s.queue .read = [0] ∧ s.acc .write = [1] ∧
    (s.queue .read).count 0 + (s.queue .write).count 0 + (s.acc .read).count 0 + (s.acc .write).count 0 +
      s.commits .read 0 + s.commits .write 0 = 1 ∧ (∃ p k, s.CarriedBy .write 1 p k) ∧
    ∃ s', (comm onePort).Run (fun _ _ => True) s s' ∧ s'.commits .read 0 + s'.commits .write 0 = 1 := by
  obtain ⟨s, hs, hread, hwrite, hn⟩ := System.reachable_of_replay (S := comm onePort)
    (rfl : (comm onePort).init .start) halfRead
    (fun s => s.queue .read = [0] ∧ s.acc .write = [1] ∧ s.nextReq = 2) (by decide)
  obtain ⟨hcount, hcarried, -, -, hcommit⟩ := request_ownership hs
  obtain ⟨s', hrun, hone⟩ := hcommit fun _ _ _ _ => rfl
  exact ⟨s, hs, hread, hwrite, hcount 0 (by omega), hcarried .write 1 (by simp [hwrite]), s', hrun, hone 0 (by omega)⟩

end Salam.Comm
