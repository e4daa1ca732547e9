import Salam.Comm.Readiness
import Salam.Lib.Trace

/-!
# `StreamSlavePortT`

A stream port takes a request when it is neither busy nor owes a retry, and when its device can serve it (`tvalid`). A
refusal of the first two kinds is remembered in `retryReq`, and `release` sends the retry; a refusal by `tvalid` is not.

The port is a system of its own (`slave`): any requests arrive, and the contents of the device change at any time.
`link` is the port with a `MemSidePort` on the other side, which keeps what was refused until the retry comes. The
responses are not here.

* `refusal_owes_retry`: the retries of the port, in every run in which no request is refused by `tvalid`.
* `stalled_iff_retryReq`: in these runs a `MemSidePort` waits exactly as long as a retry is owed.
-/

namespace Salam.Stream

/-- A packet, with what the port looks at. -/
structure Request where
  id : Nat
  size : Nat
  isRead : Bool
  cacheResponding : Bool
  deriving DecidableEq

/-- Panics and assertions. -/
inductive Err
  | cacheResponding
  | device
  | scheduled
  | notBusy
  | noOutstandingPkts
  deriving DecidableEq

/-- The device behind the port: `tvalid`, `streamRead` and `streamWrite` (`none` is a panic), and the size times
`getBandwidth()`, in ticks. -/
structure Device (δ : Type*) where
  tvalid : δ → Nat → Bool → Bool
  stream : δ → Request → Option δ
  duration : Nat → Nat

/-- `StreamBuffer`; its state is the number of bytes in the buffer. -/
def streamBuffer (fifoSize : Nat) (duration : Nat → Nat) : Device Nat where
  tvalid size len isRead := Comm.tvalid size fifoSize len (if isRead then .read else .write)
  stream size pkt :=
    if pkt.isRead then
      if Comm.canReadStream size pkt.size && decide (pkt.size ∈ [1, 2, 4, 8]) then some (size - pkt.size) else none
    else if Comm.canWriteStream size fifoSize pkt.size then some (size + pkt.size) else none
  duration := duration

inductive Event
  | accepted (id : Nat)
  | refused (id : Nat)
  | retry
  deriving DecidableEq

/-- The port with its device; `releaseEvent` is whether the event is scheduled. No function reads the `log`. -/
structure Slave (δ : Type*) where
  isBusy : Bool
  retryReq : Bool
  releaseEvent : Bool
  device : δ
  log : List Event

namespace Slave

variable {δ : Type*}

def emit (s : Slave δ) (e : Event) : Slave δ := { s with log := s.log ++ [e] }

def recvTimingReq (dev : Device δ) (s : Slave δ) (pkt : Request) : Except Err (Slave δ × Bool) :=
  if s.retryReq then .ok (s.emit (.refused pkt.id), false)
  else if s.isBusy then .ok ({ s with retryReq := true }.emit (.refused pkt.id), false)
  else if !dev.tvalid s.device pkt.size pkt.isRead then .ok (s.emit (.refused pkt.id), false)
  else if pkt.cacheResponding then .error .cacheResponding
  else if dev.duration pkt.size ≠ 0 ∧ s.releaseEvent then .error .scheduled
  else
    match dev.stream s.device pkt with
    | none => .error .device
    | some d =>
      let s := if dev.duration pkt.size ≠ 0 then { s with releaseEvent := true, isBusy := true } else s
      .ok ({ s with device := d }.emit (.accepted pkt.id), true)

/-- `release()`, run by `releaseEvent`; whether it calls `sendRetryReq`. -/
def release (s : Slave δ) : Except Err (Slave δ × Bool) :=
  let s := { s with releaseEvent := false }
  if !s.isBusy then .error .notBusy
  else if s.retryReq then .ok ({ s with isBusy := false, retryReq := false }.emit .retry, true)
  else .ok ({ s with isBusy := false }, false)

def start (d : δ) : Slave δ := ⟨false, false, false, d, []⟩

end Slave

/-- What happens at the port: a request, the event `releaseEvent`, or a change of the device. -/
inductive SlaveEv (δ : Type*)
  | request (pkt : Request)
  | release
  | device (d : δ)

/-- The runs of the port. -/
def slave {δ : Type*} (dev : Device δ) : System (Slave δ) (SlaveEv δ) where
  init s := ∃ d, s = .start d
  step s
    | .request pkt => ((s.recvTimingReq dev pkt).map Prod.fst).toOption
    | .release => if s.releaseEvent then (s.release.map Prod.fst).toOption else none
    | .device d => some { s with device := d }

/-- A refusal has not been followed by a retry. -/
def owes (l : List Event) : Bool :=
  l.foldl (fun b e => match e with | .accepted _ => b | .refused _ => true | .retry => false) false

@[simp] theorem owes_accepted (l : List Event) (id : Nat) : owes (l ++ [.accepted id]) = owes l := by simp [owes]

@[simp] theorem owes_refused (l : List Event) (id : Nat) : owes (l ++ [.refused id]) = true := by simp [owes]

@[simp] theorem owes_retry (l : List Event) : owes (l ++ [.retry]) = false := by simp [owes]

/-- A refusal is followed by a retry, or the retry is owed. -/
theorem retry_mem_of_owes {l₁ l₂ : List Event} {id : Nat} (h : owes (l₁ ++ .refused id :: l₂) = false) :
    .retry ∈ l₂ := by
  induction l₂ using List.reverseRecOn with
  | nil => simp at h
  | append_singleton l₂ e ih =>
    have hl : l₁ ++ .refused id :: (l₂ ++ [e]) = (l₁ ++ .refused id :: l₂) ++ [e] := by simp
    rw [hl] at h
    cases e with
    | accepted j => exact List.mem_append_left _ (ih (by rwa [owes_accepted] at h))
    | refused j =>
      rw [owes_refused] at h
      cases h
    | retry => simp

namespace Slave

variable {δ : Type*} {dev : Device δ} {s s' : Slave δ} {pkt : Request} {b : Bool}

/-- The request is not refused by `tvalid`. -/
def served (dev : Device δ) (s : Slave δ) (pkt : Request) : Prop :=
  s.retryReq = true ∨ s.isBusy = true ∨ dev.tvalid s.device pkt.size pkt.isRead = true

theorem recvTimingReq_cases (h : s.recvTimingReq dev pkt = .ok (s', b)) :
    (b = false ∧ s' = { s with retryReq := s.retryReq || s.isBusy }.emit (.refused pkt.id) ∧
      (s.served dev pkt → s'.retryReq = true)) ∨
    (b = true ∧ s.retryReq = false ∧ s.isBusy = false ∧ ∃ d c, s' = ({ s with
      releaseEvent := s.releaseEvent || c, isBusy := c, device := d } : Slave δ).emit (.accepted pkt.id) ∧
      (c = true → s.releaseEvent = false)) := by
  obtain ⟨isBusy, retryReq, releaseEvent, device, log⟩ := s
  cases retryReq with
  | true =>
    cases h
    exact .inl ⟨rfl, rfl, fun _ => rfl⟩
  | false =>
    cases isBusy with
    | true =>
      cases h
      exact .inl ⟨rfl, rfl, fun _ => rfl⟩
    | false =>
      unfold recvTimingReq at h
      simp only [Bool.false_eq_true, if_false] at h
      split at h
      · rename_i hvalid
        cases h
        refine .inl ⟨rfl, rfl, fun hs => ?_⟩
        simp only [served, Bool.false_eq_true, false_or] at hs
        rw [hs] at hvalid
        cases hvalid
      · split at h
        · cases h
        · split at h
          · cases h
          · rename_i hsched
            split at h
            · cases h
            · rename_i d _
              refine .inr ?_
              by_cases hd : dev.duration pkt.size ≠ 0
              · rw [if_pos hd] at h
                cases h
                refine ⟨rfl, rfl, rfl, d, true, by simp, fun _ => ?_⟩
                simpa [hd] using hsched
              · rw [if_neg hd] at h
                cases h
                exact ⟨rfl, rfl, rfl, d, false, by simp, fun hc => by cases hc⟩

theorem recvTimingReq_error {e : Err} (h : s.recvTimingReq dev pkt = .error e) : e ≠ .noOutstandingPkts := by
  rintro rfl
  unfold recvTimingReq at h
  repeat' split at h
  all_goals cases h

/-- What is true of the port in every run: a retry is owed only while the port is busy, and the port is busy exactly
while its release is scheduled; a retry is sent only after a refusal. -/
structure Wellformed (s : Slave δ) : Prop where
  owes : s.retryReq = true → owes s.log = true
  busy : s.retryReq = true → s.isBusy = true
  scheduled : s.releaseEvent = s.isBusy
  retries : Ordered (fun before e => e = .retry → Stream.owes before = true) s.log

theorem Wellformed.recvTimingReq (h : s.Wellformed) (hr : s.recvTimingReq dev pkt = .ok (s', b)) : s'.Wellformed := by
  rcases recvTimingReq_cases hr with ⟨-, rfl, -⟩ | ⟨-, hretry, hbusy, d, c, rfl, -⟩
  · refine ⟨fun _ => owes_refused _ _, fun hs => ?_, h.scheduled, h.retries.concat fun he => (by cases he)⟩
    have hs : (s.retryReq || s.isBusy) = true := hs
    rcases Bool.or_eq_true_iff.mp hs with hs | hs
    · exact h.busy hs
    · exact hs
  · have hnone : s.retryReq ≠ true := by rw [hretry]; exact Bool.false_ne_true
    refine ⟨fun hs => absurd hs hnone, fun hs => absurd hs hnone, ?_, h.retries.concat fun he => (by cases he)⟩
    show (s.releaseEvent || c) = c
    rw [h.scheduled, hbusy, Bool.false_or]

/-- **A release that is scheduled ends well**, and sends a retry if one is owed. -/
theorem Wellformed.release (h : s.Wellformed) (hs : s.releaseEvent = true) :
    s.release = .ok (if s.retryReq then
      (({ s with releaseEvent := false, isBusy := false, retryReq := false } : Slave δ).emit .retry, true)
    else ({ s with releaseEvent := false, isBusy := false }, false)) := by
  have hbusy : s.isBusy = true := h.scheduled ▸ hs
  unfold Slave.release
  cases hretry : s.retryReq <;> simp [hbusy]

theorem Wellformed.release_wellformed (h : s.Wellformed) (hs : s.releaseEvent = true) (hr : s.release = .ok (s', b)) :
    s'.Wellformed := by
  rw [h.release hs] at hr
  cases hretry : s.retryReq <;> rw [hretry] at hr <;> cases hr
  · exact ⟨fun hc => (by cases hc), fun hc => (by cases hc), rfl, h.retries⟩
  · exact ⟨fun hc => (by cases hc), fun hc => (by cases hc), rfl, h.retries.concat fun _ => h.owes hretry⟩

/-- A retry is owed exactly when a refusal has not been followed by one. -/
structure Owing (s : Slave δ) : Prop extends s.Wellformed where
  of_owes : Stream.owes s.log = true → s.retryReq = true

theorem Owing.recvTimingReq (h : s.Owing) (hs : s.served dev pkt) (hr : s.recvTimingReq dev pkt = .ok (s', b)) :
    s'.Owing := by
  refine ⟨h.toWellformed.recvTimingReq hr, fun ho => ?_⟩
  rcases recvTimingReq_cases hr with ⟨-, -, hretry⟩ | ⟨-, -, -, d, c, rfl, -⟩
  · exact hretry hs
  · have ho : Stream.owes (s.log ++ [.accepted pkt.id]) = true := ho
    rw [owes_accepted] at ho
    exact h.of_owes ho

theorem Owing.release (h : s.Owing) (hs : s.releaseEvent = true) (hr : s.release = .ok (s', b)) : s'.Owing := by
  refine ⟨h.release_wellformed hs hr, fun ho => ?_⟩
  rw [h.toWellformed.release hs] at hr
  cases hretry : s.retryReq <;> rw [hretry] at hr <;> cases hr
  · exact hretry.symm.trans (h.of_owes ho)
  · have ho : Stream.owes (s.log ++ [.retry]) = true := ho
    rw [owes_retry] at ho
    cases ho

theorem owing_start (d : δ) : (start d).Owing :=
  ⟨⟨fun h => (by cases h), fun h => (by cases h), rfl, .nil⟩, fun h => (by cases h)⟩

end Slave

/-- A request that the event brings is not refused by `tvalid`. -/
def SlaveEv.served {δ : Type*} (dev : Device δ) (s : Slave δ) : SlaveEv δ → Prop
  | .request pkt => s.served dev pkt
  | _ => True

section Runs

variable {δ : Type*} {dev : Device δ} {s s' : Slave δ}

theorem owing_of_reachable (h : (slave dev).ReachableWhen (fun s e => e.served dev s) s) : s.Owing := by
  refine System.invariantWhen (I := Slave.Owing) ?_ ?_ h
  · rintro s ⟨d, rfl⟩
    exact Slave.owing_start d
  · intro s e s' _ hs hC hstep
    cases e with
    | request pkt =>
      obtain ⟨⟨s₁, b⟩, hr, rfl⟩ := ok_of_map (ok_of_toOption hstep)
      exact hs.recvTimingReq hC hr
    | release =>
      simp only [slave] at hstep
      split at hstep
      · rename_i hsched
        obtain ⟨⟨s₁, b⟩, hr, rfl⟩ := ok_of_map (ok_of_toOption hstep)
        exact hs.release hsched hr
      · cases hstep
    | device d =>
      obtain rfl := Option.some.inj hstep
      exact ⟨⟨hs.owes, hs.busy, hs.scheduled, hs.retries⟩, hs.of_owes⟩

/-- **Every refusal is owed one retry**, in every run in which no request is refused by `tvalid`: a retry is owed
exactly while the last refusal has not been followed by one; the release that sends it is scheduled; and no other retry
is sent. The next request that is refused is owed a retry unless `tvalid` refuses it. -/
theorem refusal_owes_retry (h : (slave dev).ReachableWhen (fun s e => e.served dev s) s) :
    (∀ pkt s', s.recvTimingReq dev pkt = .ok (s', false) → (s'.retryReq = true ↔ s.served dev pkt)) ∧
    (s.retryReq = true ↔ owes s.log = true) ∧
    (s.retryReq = true → ∃ s', (slave dev).step s .release = some s' ∧ s'.log = s.log ++ [.retry] ∧
    s'.retryReq = false) ∧ (∀ l₁ id l₂, s.log = l₁ ++ .refused id :: l₂ → .retry ∈ l₂ ∨ s.retryReq = true) ∧
    Ordered (fun before e => e = .retry → owes before = true) s.log := by
  have hs := owing_of_reachable h
  refine ⟨fun pkt s' hr => ?_, ⟨hs.owes, hs.of_owes⟩, fun hretry => ?_, fun l₁ id l₂ hl => ?_, hs.retries⟩
  · rcases Slave.recvTimingReq_cases hr with ⟨-, rfl, hserved⟩ | ⟨hb, -⟩
    · refine ⟨fun hretry => ?_, hserved⟩
      have hor : (s.retryReq || s.isBusy) = true := hretry
      rcases Bool.or_eq_true_iff.mp hor with hor | hor
      · exact .inl hor
      · exact .inr (.inl hor)
    · cases hb
  · have hsched : s.releaseEvent = true := hs.scheduled.trans (hs.busy hretry)
    refine ⟨({ s with releaseEvent := false, isBusy := false, retryReq := false } : Slave δ).emit .retry, ?_, rfl, rfl⟩
    simp only [slave, hsched, if_true, hs.toWellformed.release hsched, hretry]
    rfl
  · cases hretry : s.retryReq with
    | true => exact .inr rfl
    | false =>
      have howes : owes s.log = false :=
        Bool.eq_false_iff.mpr fun ho => Bool.false_ne_true (hretry.symm.trans (hs.of_owes ho))
      rw [hl] at howes
      exact .inl (retry_mem_of_owes howes)

end Runs

/-! ## A `MemSidePort` on the other side -/

/-- The port and the packets that the other side keeps. -/
structure Link (δ : Type*) where
  slave : Slave δ
  outstandingPkts : List Request

namespace Link

variable {δ : Type*}

def sendPacket (dev : Device δ) (s : Link δ) (pkt : Request) : Except Err (Link δ) :=
  if s.outstandingPkts ≠ [] then .ok { s with outstandingPkts := s.outstandingPkts ++ [pkt] }
  else
    match s.slave.recvTimingReq dev pkt with
    | .error e => .error e
    | .ok (slave, true) => .ok { s with slave := slave }
    | .ok (slave, false) => .ok ⟨slave, s.outstandingPkts ++ [pkt]⟩

/-- The loop of `recvReqRetry`. -/
def resend (dev : Device δ) : List Request → Slave δ → Except Err (Link δ)
  | [], slave => .ok ⟨slave, []⟩
  | pkt :: pkts, slave =>
    match slave.recvTimingReq dev pkt with
    | .error e => .error e
    | .ok (slave, true) => resend dev pkts slave
    | .ok (slave, false) => .ok ⟨slave, pkt :: pkts⟩

def recvReqRetry (dev : Device δ) (s : Link δ) : Except Err (Link δ) :=
  if s.outstandingPkts = [] then .error .noOutstandingPkts else resend dev s.outstandingPkts s.slave

def release (dev : Device δ) (s : Link δ) : Except Err (Link δ) :=
  match s.slave.release with
  | .error e => .error e
  | .ok (slave, true) => { s with slave := slave }.recvReqRetry dev
  | .ok (slave, false) => .ok { s with slave := slave }

end Link

inductive LinkEv (δ : Type*)
  | send (pkt : Request)
  | release
  | device (d : δ)

/-- One event, if it can happen: what it leads to, or the panic. -/
def Link.exec {δ : Type*} (dev : Device δ) (s : Link δ) : LinkEv δ → Option (Except Err (Link δ))
  | .send pkt => some (s.sendPacket dev pkt)
  | .release => if s.slave.releaseEvent then some (s.release dev) else none
  | .device d => some (.ok { s with slave := { s.slave with device := d } })

def link {δ : Type*} (dev : Device δ) : System (Link δ) (LinkEv δ) where
  init s := ∃ d, s = ⟨.start d, []⟩
  step s e := (s.exec dev e).bind (·.toOption)

namespace Link

variable {δ : Type*}

/-- None of the packets that the loop sends is refused by `tvalid`. -/
def resendServed (dev : Device δ) : List Request → Slave δ → Prop
  | [], _ => True
  | pkt :: pkts, slave => slave.served dev pkt ∧ ∀ slave', slave.recvTimingReq dev pkt = .ok (slave', true) →
    resendServed dev pkts slave'

/-- None of the packets that are sent in the event is refused by `tvalid`. -/
def served (dev : Device δ) (s : Link δ) : LinkEv δ → Prop
  | .send pkt => s.outstandingPkts ≠ [] ∨ s.slave.served dev pkt
  | .release => ∀ slave, s.slave.release = .ok (slave, true) → resendServed dev s.outstandingPkts slave
  | .device _ => True

/-- The other side waits exactly while a retry is owed. -/
structure InStep (s : Link δ) : Prop extends s.slave.Owing where
  stalled : s.outstandingPkts ≠ [] ↔ s.slave.retryReq = true

variable {dev : Device δ} {s s' : Link δ}

theorem InStep.sendPacket (h : s.InStep) {pkt : Request} (hs : s.served dev (.send pkt))
    (hp : s.sendPacket dev pkt = .ok s') : s'.InStep := by
  unfold Link.sendPacket at hp
  split at hp
  · rename_i hstalled
    cases hp
    exact ⟨h.toOwing, fun _ => h.stalled.mp hstalled, fun _ => by simp⟩
  · rename_i hempty
    have hs := hs.resolve_left hempty
    split at hp
    · cases hp
    · rename_i slave hr
      cases hp
      refine ⟨h.toOwing.recvTimingReq hs hr, fun hc => absurd hc hempty, fun hc => ?_⟩
      rcases Slave.recvTimingReq_cases hr with ⟨hb, -⟩ | ⟨-, -, -, d, c, rfl, -⟩
      · cases hb
      · exact h.stalled.mpr hc
    · rename_i slave hr
      cases hp
      refine ⟨h.toOwing.recvTimingReq hs hr, fun _ => ?_, fun _ => by simp⟩
      rcases Slave.recvTimingReq_cases hr with ⟨-, -, hretry⟩ | ⟨hb, -⟩
      · exact hretry hs
      · cases hb

/-- The loop starts with no retry owed, and ends with one owed if a packet is left. -/
theorem inStep_of_resend {pkts : List Request} : ∀ {slave : Slave δ}, slave.Owing → slave.retryReq = false →
    resendServed dev pkts slave → resend dev pkts slave = .ok s' → s'.InStep := by
  induction pkts with
  | nil =>
    intro slave h hfree _ hr
    cases hr
    exact ⟨h, fun hc => absurd rfl hc, fun hc => absurd (hfree.symm.trans hc) Bool.false_ne_true⟩
  | cons pkt pkts ih =>
    intro slave h hfree hs hr
    unfold resend at hr
    split at hr
    · cases hr
    · rename_i slave' hreq
      rcases Slave.recvTimingReq_cases hreq with ⟨hb, -⟩ | ⟨-, hretry, -, d, c, heq, -⟩
      · cases hb
      · exact ih (h.recvTimingReq hs.1 hreq) (by rw [heq]; exact hretry) (hs.2 _ hreq) hr
    · rename_i slave' hreq
      cases hr
      refine ⟨h.recvTimingReq hs.1 hreq, fun _ => ?_, fun _ => by simp⟩
      rcases Slave.recvTimingReq_cases hreq with ⟨-, -, hretry⟩ | ⟨hb, -⟩
      · exact hretry hs.1
      · cases hb

theorem InStep.release (h : s.InStep) (hsched : s.slave.releaseEvent = true) (hs : s.served dev .release)
    (hr : s.release dev = .ok s') : s'.InStep := by
  have hrel := h.toWellformed.release hsched
  unfold Link.release at hr
  cases hretry : s.slave.retryReq with
  | false =>
    rw [hrel, hretry] at hr
    rw [hretry] at hrel
    cases hr
    have hempty := h.stalled.not.mpr (by rw [hretry]; exact Bool.false_ne_true)
    exact ⟨h.toOwing.release hsched hrel, fun hc => absurd hc hempty, fun hc => (by cases hc)⟩
  | true =>
    rw [hrel, hretry] at hr
    rw [hretry] at hrel
    simp only [if_true, recvReqRetry, h.stalled.mpr hretry, if_false] at hr
    exact inStep_of_resend (h.toOwing.release hsched hrel) rfl (hs _ hrel) hr

theorem resend_error {pkts : List Request} {slave : Slave δ} : resend dev pkts slave ≠ .error .noOutstandingPkts := by
  fun_induction resend dev pkts slave with
  | case1 => simp
  | case2 _ _ _ e he => exact fun hc => Slave.recvTimingReq_error he (Except.error.inj hc)
  | case3 _ _ _ _ _ ih => exact ih
  | case4 => simp

end Link

section Runs

variable {δ : Type*} {dev : Device δ} {s : Link δ}

theorem inStep_of_reachable (h : (link dev).ReachableWhen (fun s e => s.served dev e) s) : s.InStep := by
  refine System.invariantWhen (I := Link.InStep) ?_ ?_ h
  · rintro s ⟨d, rfl⟩
    exact ⟨Slave.owing_start d, fun hc => absurd rfl hc, fun hc => (by cases hc)⟩
  · intro s e s' _ hs hC hstep
    cases e with
    | send pkt => exact hs.sendPacket hC (ok_of_toOption hstep)
    | release =>
      simp only [link, Link.exec] at hstep
      split at hstep
      · rename_i hsched
        exact hs.release hsched hC (ok_of_toOption hstep)
      · cases hstep
    | device d =>
      obtain rfl := Option.some.inj hstep
      exact ⟨⟨⟨hs.owes, hs.busy, hs.scheduled, hs.retries⟩, hs.of_owes⟩, hs.stalled⟩

/-- **A `MemSidePort` waits exactly while a retry is owed**, in every run in which no packet is refused by `tvalid`;
then the release that sends the retry is scheduled, and the retry finds a packet. -/
theorem stalled_iff_retryReq (h : (link dev).ReachableWhen (fun s e => s.served dev e) s) :
    (s.outstandingPkts ≠ [] ↔ s.slave.retryReq = true) ∧ (s.slave.retryReq = true → s.slave.releaseEvent = true) ∧
      (s.slave.releaseEvent = true → s.release dev ≠ .error .noOutstandingPkts) := by
  have hs := inStep_of_reachable h
  refine ⟨hs.stalled, fun hretry => hs.scheduled.trans (hs.busy hretry), fun hsched => ?_⟩
  unfold Link.release
  rw [hs.toWellformed.release hsched]
  cases hretry : s.slave.retryReq with
  | false => simp
  | true => simpa [Link.recvReqRetry, hs.stalled.mpr hretry] using Link.resend_error

/-- A `MemSidePort` that waits at a port without a release waits forever. -/
theorem wedged_run {s' : Link δ} (hstalled : s.outstandingPkts ≠ []) (hsched : s.slave.releaseEvent = false)
    (h : (link dev).Run (fun _ _ => True) s s') : s'.outstandingPkts ≠ [] ∧ s'.slave.releaseEvent = false ∧
      s'.slave.log = s.slave.log := by
  refine h.keeps (I := fun s' => s'.outstandingPkts ≠ [] ∧ s'.slave.releaseEvent = false ∧
    s'.slave.log = s.slave.log) ?_
    ⟨hstalled, hsched, rfl⟩
  rintro s₁ e s₂ ⟨hne, hnone, hlog⟩ - hstep
  cases e with
  | send pkt =>
    have hsend : s₁.sendPacket dev pkt = .ok { s₁ with outstandingPkts := s₁.outstandingPkts ++ [pkt] } := if_pos hne
    simp only [link, Link.exec, hsend] at hstep
    obtain rfl := Option.some.inj hstep
    exact ⟨by simp, hnone, hlog⟩
  | release =>
    simp only [link, Link.exec, hnone, Bool.false_eq_true, if_false] at hstep
    cases hstep
  | device d =>
    obtain rfl := Option.some.inj hstep
    exact ⟨hne, hnone, hlog⟩

end Runs

/-- A stream buffer of 8 bytes; a packet keeps the port busy. -/
def smallBuffer : Device Nat := streamBuffer 8 fun _ => 1

def read8 (id : Nat) : Request := ⟨id, 8, true, false⟩

theorem refusal_owes_retry_busy : ∃ s, (slave smallBuffer).ReachableWhen (fun s e => e.served smallBuffer s) s ∧
    s.log = [.accepted 0, .refused 1] ∧ s.retryReq = true ∧
    ∃ s', (slave smallBuffer).step s .release = some s' ∧ s'.log = s.log ++ [.retry] := by
  have hinit : (slave smallBuffer).init (.start 8) := ⟨8, rfl⟩
  have hfirst : (slave smallBuffer).ReachableWhen (fun s e => e.served smallBuffer s)
    ⟨true, false, true, 0, [.accepted 0]⟩ :=
    (System.ReachableWhen.init hinit).step (a := .request (read8 0)) (.inr (.inr rfl)) rfl
  have hsecond : (slave smallBuffer).ReachableWhen (fun s e => e.served smallBuffer s)
      ⟨true, true, true, 0, [.accepted 0, .refused 1]⟩ := hfirst.step (a := .request (read8 1)) (.inr (.inl rfl)) rfl
  obtain ⟨-, -, hretry, -, -⟩ := refusal_owes_retry hsecond
  obtain ⟨s', hs', hlog, -⟩ := hretry rfl
  exact ⟨_, hsecond, rfl, rfl, s', hs', hlog⟩

theorem stalled_iff_retryReq_busy : ∃ s, (link smallBuffer).ReachableWhen (fun s e => s.served smallBuffer e) s ∧
    s.outstandingPkts = [read8 1] ∧ s.slave.retryReq = true ∧ s.slave.releaseEvent = true := by
  have hfirst : (link smallBuffer).ReachableWhen (fun s e => s.served smallBuffer e)
      ⟨⟨true, false, true, 0, [.accepted 0]⟩, []⟩ :=
    (System.ReachableWhen.init (S := link smallBuffer) (s := ⟨.start 8, []⟩) ⟨8, rfl⟩).step (a := .send (read8 0))
      (.inr (.inr (.inr rfl))) rfl
  have hsecond : (link smallBuffer).ReachableWhen (fun s e => s.served smallBuffer e)
      ⟨⟨true, true, true, 0, [.accepted 0, .refused 1]⟩, [read8 1]⟩ :=
    hfirst.step (a := .send (read8 1)) (.inr (.inr (.inl rfl))) rfl
  obtain ⟨hstalled, hsched, -⟩ := stalled_iff_retryReq hsecond
  have hretry := hstalled.mp (List.cons_ne_nil _ _)
  exact ⟨_, hsecond, rfl, hretry, hsched hretry⟩

/-- **A refusal by `tvalid` is forgotten.** The second read is refused because the port is busy; when the retry comes,
the buffer is empty, and the read is refused by `tvalid`. No retry is owed, none is ever sent, and the other side waits
forever. -/
theorem invalid_refusal_forgotten : ∃ s, (link smallBuffer).Reachable s ∧ s.outstandingPkts = [read8 1] ∧
    s.slave.log = [.accepted 0, .refused 1, .retry, .refused 1] ∧ s.slave.retryReq = false ∧
    ∀ s', (link smallBuffer).Run (fun _ _ => True) s s' → s'.outstandingPkts ≠ [] ∧ s'.slave.log = s.slave.log := by
  obtain ⟨s, hs, hout, hlog, hretry, hsched⟩ := System.reachable_of_replay (S := link smallBuffer)
    (⟨8, rfl⟩ : (link smallBuffer).init ⟨.start 8, []⟩)
      [.send (read8 0), .device 8, .send (read8 1), .device 0, .release]
    (fun s => s.outstandingPkts = [read8 1] ∧ s.slave.log = [.accepted 0, .refused 1, .retry, .refused 1] ∧
      s.slave.retryReq = false ∧ s.slave.releaseEvent = false) (by decide)
  refine ⟨s, hs, hout, hlog, hretry, fun s' hrun => ?_⟩
  obtain ⟨hne, -, hsame⟩ := wedged_run (by rw [hout]; exact List.cons_ne_nil _ _) hsched hrun
  exact ⟨hne, hsame⟩

end Salam.Stream
