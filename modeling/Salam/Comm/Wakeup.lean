import Salam.Comm.Commit

/-!
# No wake-up is missed

Requests are sent by `tick()` only, and so is the run bit read. Here `tickEvent` is an event of a queue that may not get
it a second time, and the compute unit one that may not be started while it computes; both end the run (`Fault`). In the
code every `schedule` stands behind `!tickEvent.scheduled()`, and the start behind `computationNeeded`.

* `step_eq`: the interface with the two assertions is the interface without them, so that none of them fails.
* `wakeup_scheduled`: a tick is scheduled while a request waits, and while the run bit is set and nothing is computed.
-/

namespace Salam.Comm

/-- What ends a run. -/
inductive Fault
  | scheduled
  | computing
  | panic (e : Err)
  deriving DecidableEq

/-- The interface, and whether the compute unit is between `initialize()` and `finish()`. -/
structure Device where
  st : St
  computing : Bool

namespace Device

def set (v : Device) (s : St) : Device := { v with st := s }

/-- `schedule(tickEvent, ..)`. -/
def schedule (v : Device) : Except Fault Device :=
  if v.st.tickScheduled then .error .scheduled else .ok (v.set { v.st with tickScheduled := true })

/-- `if (!tickEvent.scheduled()) schedule(tickEvent, ..)`. -/
def scheduleUnlessScheduled (v : Device) : Except Fault Device := if !v.st.tickScheduled then v.schedule else .ok v

/-! ## The calls of the compute unit -/

def enqueue (v : Device) (q : MemoryRequest) : Except Fault Device :=
  let s := { v.st with reqs := Function.update v.st.reqs v.st.nextReq q, nextReq := v.st.nextReq + 1 }
  (v.set (s.setQueue q.dir (s.queue q.dir ++ [v.st.nextReq]))).scheduleUnlessScheduled

def finish (v : Device) : Device := { st := v.st.finish, computing := false }

def call (v : Device) : Call → Except Fault Device
  | .enqueueRead add len => v.enqueue (.forRead add len)
  | .enqueueWrite add data => v.enqueue (.forWrite add data)
  | .finish => .ok v.finish

/-- `cu->initialize()`, which makes the calls. -/
def cuInitialize (v : Device) (calls : List Call) : Except Fault Device :=
  if v.computing then .error .computing else calls.foldlM call { st := v.st.emit .initialized, computing := true }

def checkMMR (v : Device) (calls : List Call) : Except Fault Device :=
  if !v.st.computationNeeded && v.st.mmreg &&& 0x01 != 0 then
    (v.set { v.st with mmreg := v.st.mmreg &&& 0xfe ||| 0x02, computationNeeded := true }).cuInitialize calls
  else .ok v

/-! ## Sending -/

/-- `tryRead` and `tryWrite`. -/
def tryAccess (cfg : Config) (env : Env) (v : Device) (d : Dir) (p r : Nat) : Except Fault Device :=
  if (v.st.reqs r).left = 0 then .ok v
  else
    let k := v.st.nextPacket cfg d r
    let s := ({ v.st with nextPkt := v.st.nextPkt + 1 }.emit (.issue k)).modify r fun q => q.sent k
    let s := s.sendPacket env p k
    if (s.reqs r).left = 0 || !s.isStalled p then (v.set s).scheduleUnlessScheduled else .ok (v.set s)

/-- The port `p` takes the request `r`, which has left its queue. -/
def carry (cfg : Config) (env : Env) (v : Device) (d : Dir) (r p : Nat) : Except Fault Device :=
  let s := (v.st.setPortReq d p (some r)).modify r fun q => { q with port := some p }
  if (s.reqs r).needTo then do
    let v ← (v.set s).tryAccess cfg env d p r
    return v.set (v.st.setAcc d (v.st.acc d ++ [r]))
  else .ok (v.set s)

/-- The loop over `readQueue` or `writeQueue`. -/
def process (cfg : Config) (env : Env) (d : Dir) (kept : List Nat) : List Nat → Device → Except Fault Device
  | [], v => .ok v
  | r :: rest, v =>
    match St.choosePort cfg env v.st d r with
    | .error e => .error (.panic e)
    | .ok none => process cfg env d (kept ++ [r]) rest v
    | .ok (some p) => do
      let v ← (v.set (v.st.setQueue d (kept ++ rest))).carry cfg env d r p
      process cfg env d kept rest v

def rescheduleIfWaiting (v : Device) : Except Fault Device :=
  if !v.st.tickScheduled && (v.st.queue .read).length + (v.st.queue .write).length > 0 then v.schedule else .ok v

def processMemoryRequests (cfg : Config) (env : Env) (v : Device) : Except Fault Device :=
  if v.st.allPortsStalled cfg then v.rescheduleIfWaiting
  else do
    let v ← process cfg env .read [] (v.st.queue .read) v
    let v ← process cfg env .write [] (v.st.queue .write) v
    v.rescheduleIfWaiting

/-- `tick()`, run by `tickEvent`. -/
def tick (cfg : Config) (env : Env) (v : Device) (calls : List Call) : Except Fault Device := do
  let v ← (v.set { v.st with tickScheduled := false }).checkMMR calls
  if (v.st.queue .read).length + (v.st.queue .write).length > 0 then v.processMemoryRequests cfg env else .ok v

/-- The loop of `recvReqRetry` over the packets of the port. -/
def resend (env : Env) (p : Nat) : List Packet → Device → Except Fault Device
  | [], v => .ok v
  | k :: rest, v =>
    if env.accept k.id then do
      let v ← (v.set { v.st.setOutstanding p rest with inFlight := v.st.inFlight ++ [k] }).scheduleUnlessScheduled
      resend env p rest v
    else .ok v

def recvReqRetry (v : Device) (env : Env) (p : Nat) : Except Fault Device := v.resend env p (v.st.outstandingPkts p)

/-! ## Receiving -/

def recvPacket (v : Device) (k : Packet) (data : List Byte) : Except Fault Device :=
  match v.st.findMemRequest k with
  | none => .error (.panic .notFound)
  | some r =>
    let s := (v.st.release k.dir r).modify r fun q => q.receive k data
    let s := if !(s.reqs r).needTo then s.emit (.commit k.dir r) else s.setQueue k.dir (r :: s.queue k.dir)
    (v.set (s.setAcc k.dir ((s.acc k.dir).erase r))).scheduleUnlessScheduled

/-- What one event does; `none` is an event that cannot happen. A port gets a retry only after it was refused, and a
response only to a packet that was accepted. -/
def step (cfg : Config) (v : Device) : Ev → Option (Except Fault Device)
  | .call c => some (v.call c)
  | .tick calls env => if v.st.tickScheduled then some (v.tick cfg env calls) else none
  | .retry p env => if v.st.isStalled p then some (v.recvReqRetry env p) else none
  | .response id data =>
    match v.st.inFlight.find? fun k => k.id = id with
    | some k =>
      if k.dir = .read → data.length = k.size then
        some ((v.set { v.st with inFlight := v.st.inFlight.erase k }).recvPacket k data)
      else none
    | none => none
  | .write flags => some (v.set { v.st with mmreg := flags }).scheduleUnlessScheduled

end Device

/-- The runs of the interface with its assertions. -/
def wakeups (cfg : Config) : System Device Ev where
  init v := v = ⟨.start, false⟩
  step v e := (v.step cfg e).bind Except.toOption

/-! ## The assertions hold -/

/-- The interface in the state `s`: something is computed when the code says so. -/
def St.device (s : St) : Device := ⟨s, s.computationNeeded⟩

@[simp] theorem St.device_st (s : St) : s.device.st = s := rfl

/-- The same with the assertions. -/
def asserted : Except Err St → Except Fault Device
  | .ok s => .ok s.device
  | .error e => .error (.panic e)

namespace Device

theorem set_device {s s' : St} (h : s'.computationNeeded = s.computationNeeded) : s.device.set s' = s'.device := by
  unfold Device.set St.device
  rw [h]

theorem scheduleUnlessScheduled_device (s : St) : s.device.scheduleUnlessScheduled = .ok s.schedule.device := by
  unfold scheduleUnlessScheduled schedule
  cases hs : s.device.st.tickScheduled with
  | false => rfl
  | true =>
    have heq : s.schedule = s := by
      unfold St.schedule
      rw [← hs]
      rfl
    rw [heq]
    rfl

theorem scheduleWhen_device (s : St) (b : Bool) :
    (if b then s.device.scheduleUnlessScheduled else .ok s.device) = .ok (if b then s.schedule else s).device := by
  cases b with
  | false => rfl
  | true => exact scheduleUnlessScheduled_device s

theorem call_device (s : St) (c : Call) : s.device.call c = .ok (s.call c).device := by
  cases c with
  | enqueueRead add len => exact scheduleUnlessScheduled_device _
  | enqueueWrite add data => exact scheduleUnlessScheduled_device _
  | finish => rfl

theorem calls_device {calls : List Call} : ∀ s :
    St, calls.foldlM call s.device = .ok (calls.foldl St.call s).device := by
  induction calls with
  | nil => exact fun _ => rfl
  | cons c calls ih =>
    intro s
    rw [List.foldlM_cons, call_device]
    exact ih _

/-- The compute unit is started only when it does not compute. -/
theorem checkMMR_device (s : St) (calls : List Call) : s.device.checkMMR calls = .ok (s.checkMMR calls).device := by
  unfold checkMMR St.checkMMR
  cases hneeded : s.computationNeeded with
  | true => simp [St.device, hneeded]
  | false =>
    by_cases hrun : s.mmreg &&& 0x01 != 0
    · rw [if_pos (by simpa [St.device, hneeded] using hrun), if_pos (by simpa using hrun)]
      unfold cuInitialize
      rw [if_neg (by simp [St.device, set, hneeded])]
      exact calls_device _
    · rw [if_neg (by simpa [St.device, hneeded] using hrun), if_neg (by simpa using hrun)]

section Sending

variable (cfg : Config) (env : Env) (s : St) (d : Dir) (p r : Nat)

theorem tryAccess_device : s.device.tryAccess cfg env d p r = .ok (s.tryAccess cfg env d p r).device := by
  have hneeded : ∀ (s' : St) (k : Packet), s'.computationNeeded = s.computationNeeded →
      (s'.sendPacket env p k).computationNeeded = s.computationNeeded := by
    intro s' k h
    unfold St.sendPacket
    split
    · exact h
    · exact h
  unfold tryAccess St.tryAccess
  simp only [St.device_st]
  by_cases hleft : (s.reqs r).left = 0
  · rw [if_pos hleft]
    exact if_pos hleft
  · rw [if_neg hleft]
    refine (if_neg hleft).trans ?_
    rw [set_device]
    · exact scheduleWhen_device _ _
    · exact hneeded _ _ rfl

theorem carry_device : s.device.carry cfg env d r p = .ok (s.carry cfg env d r p).device := by
  unfold carry St.carry
  simp only [St.device_st]
  split
  · rename_i hneed
    refine (if_pos hneed).trans ?_
    have htry := tryAccess_device cfg env
      ((s.setPortReq d p (some r)).modify r fun q => { q with port := some p }) d p r
    cases d with
    | read => exact congrArg (· >>= _) htry
    | write => exact congrArg (· >>= _) htry
  · rename_i hneed
    exact if_neg hneed

variable {s}

theorem process_device {todo : List Nat} : ∀ (kept : List Nat) (s : St),
    process cfg env d kept todo s.device = asserted (St.process cfg env d kept todo s) := by
  induction todo with
  | nil => exact fun _ _ => rfl
  | cons r rest ih =>
    intro kept s
    unfold process St.process
    simp only [St.device_st]
    cases hport : St.choosePort cfg env s d r with
    | error e => rfl
    | ok o =>
      cases o with
      | none => exact ih (kept ++ [r]) s
      | some p =>
        have hcarry := carry_device cfg env (s.setQueue d (kept ++ rest)) d p r
        exact (congrArg (· >>= _) hcarry).trans (ih kept _)

end Sending

section Requests

variable {cfg : Config} {env : Env} {s : St}

theorem waiting_iff : (s.queue .read).length + (s.queue .write).length > 0 ↔
    ¬(s.queue .read = [] ∧ s.queue .write = []) := by
  rw [← List.length_eq_zero_iff, ← List.length_eq_zero_iff]
  omega

theorem rescheduleIfWaiting_device (s : St) : s.device.rescheduleIfWaiting = .ok s.rescheduleIfWaiting.device := by
  unfold rescheduleIfWaiting St.rescheduleIfWaiting
  simp only [St.device_st, waiting_iff]
  by_cases hempty : s.queue .read = [] ∧ s.queue .write = []
  · rw [if_pos hempty, if_neg (by simp [hempty.1, hempty.2])]
  · rw [if_neg hempty, ← scheduleUnlessScheduled_device]
    simp only [decide_eq_true hempty, Bool.and_true]
    rfl

theorem processMemoryRequests_device (s : St) :
    s.device.processMemoryRequests cfg env = asserted (s.processMemoryRequests cfg env) := by
  unfold processMemoryRequests St.processMemoryRequests
  simp only [St.device_st, process_device]
  split
  · exact rescheduleIfWaiting_device s
  · cases St.process cfg env .read [] (s.queue .read) s with
    | error e => rfl
    | ok s₁ =>
      show (process cfg env .write [] (s₁.queue .write) s₁.device >>= rescheduleIfWaiting) = _
      rw [process_device]
      dsimp only
      cases St.process cfg env .write [] (s₁.queue .write) s₁ with
      | error e => rfl
      | ok s₂ => exact rescheduleIfWaiting_device s₂

theorem tick_device (s : St) (calls : List Call) : s.device.tick cfg env calls = asserted (s.tick cfg env calls) := by
  have hcheck := checkMMR_device { s with tickScheduled := false } calls
  unfold tick St.tick
  refine (congrArg (· >>= _) hcheck).trans ?_
  generalize St.checkMMR { s with tickScheduled := false } calls = s'
  show (if _ then _ else _) = _
  simp only [St.device_st, waiting_iff]
  by_cases hempty : s'.queue .read = [] ∧ s'.queue .write = []
  · rw [if_neg (not_not_intro hempty), if_pos hempty]
    rfl
  · rw [if_pos hempty, if_neg hempty]
    exact processMemoryRequests_device s'

theorem resend_device {p : Nat} {ks : List Packet} : ∀ s :
    St, s.device.resend env p ks = .ok (St.resend env p ks s).device := by
  induction ks with
  | nil => exact fun _ => rfl
  | cons k rest ih =>
    intro s
    unfold resend St.resend
    split
    · have hsent := scheduleUnlessScheduled_device { s.setOutstanding p rest with inFlight := s.inFlight ++ [k] }
      exact (congrArg (· >>= _) hsent).trans (ih _)
    · rfl

theorem recvPacket_device (s : St) (k : Packet) (data : List Byte) :
    s.device.recvPacket k data = asserted (s.recvPacket k data) := by
  have hrelease : ∀ d r, (s.release d r).computationNeeded = s.computationNeeded := fun d r => by
    unfold St.release
    split
    · rfl
    · rfl
  unfold recvPacket St.recvPacket
  simp only [St.device_st]
  cases s.findMemRequest k with
  | none => rfl
  | some r =>
    dsimp only
    rw [set_device]
    · exact scheduleUnlessScheduled_device _
    · refine (apply_ite St.computationNeeded _ _ _).trans (ite_eq_iff'.mpr ⟨fun _ => ?_, fun _ => ?_⟩)
      · exact hrelease _ _
      · exact hrelease _ _

end Requests

end Device

/-! ## A tick is scheduled -/

namespace St

/-- The next tick is scheduled when it has something to do. -/
structure Ready (s : St) : Prop where
  awake : s.Awake
  run : s.computationNeeded = false → s.mmreg &&& 0x01 ≠ 0 → s.tickScheduled = true

theorem Ready.of_scheduled {s : St} (h : s.tickScheduled = true) : s.Ready := ⟨fun _ _ => h, fun _ _ => h⟩

/-- The run bit is not set unless something is computed. -/
def Idle (s : St) : Prop := s.computationNeeded = false → s.mmreg &&& 0x01 = 0

theorem Idle.finish (s : St) : s.finish.Idle := by
  intro _
  have hlast : ∀ m : Byte, (m &&& 0xfc ||| 0x04) &&& 0x01 = 0 := by decide
  exact hlast s.mmreg

theorem Idle.calls {calls : List Call} : ∀ {s : St}, s.Idle → (calls.foldl call s).Idle := by
  induction calls with
  | nil => exact id
  | cons c calls ih =>
    intro s h
    cases c with
    | enqueueRead add len => exact ih h
    | enqueueWrite add data => exact ih h
    | finish => exact ih (.finish s)

theorem Idle.checkMMR (s : St) (calls : List Call) : (s.checkMMR calls).Idle := by
  unfold St.checkMMR
  split
  · exact Idle.calls fun h => by cases h
  · rename_i hrun
    intro hneeded
    simpa [hneeded] using hrun

section Process

variable {cfg : Config} {env : Env}

theorem Idle.carry {s : St} (h : s.Idle) (d : Dir) (r p : Nat) : (s.carry cfg env d r p).Idle := by
  have hsend : ∀ {s : St} (k : Packet), s.Idle → (s.sendPacket env p k).Idle := by
    intro s k h
    unfold St.sendPacket
    split
    · exact h
    · exact h
  have htry : ∀ {s : St} (d : Dir), s.Idle → (s.tryAccess cfg env d p r).Idle := by
    intro s d h
    unfold St.tryAccess
    split
    · exact h
    · dsimp only
      split
      · exact hsend _ h
      · exact hsend _ h
  unfold St.carry
  dsimp only
  split
  · cases d with
    | read => exact htry .read h
    | write => exact htry .write h
  · exact h

theorem Idle.process {d : Dir} {todo : List Nat} : ∀ {kept : List Nat} {s s' : St}, s.Idle →
    St.process cfg env d kept todo s = .ok s' → s'.Idle := by
  induction todo with
  | nil => exact fun h hs => Except.ok.inj hs ▸ h
  | cons r rest ih =>
    intro kept s s' h hs
    unfold St.process at hs
    split at hs
    · cases hs
    · exact ih h hs
    · rename_i p _
      have hqueue : (s.setQueue d (kept ++ rest)).Idle := h
      exact ih (hqueue.carry d r p) hs

theorem Idle.processMemoryRequests {s s' : St} (h : s.Idle) (hs : s.processMemoryRequests cfg env = .ok s') :
    s'.Idle := by
  have hresched : ∀ {s : St}, s.Idle → s.rescheduleIfWaiting.Idle := by
    intro s h
    unfold rescheduleIfWaiting
    split
    · exact h
    · exact h
  unfold St.processMemoryRequests at hs
  split at hs
  · exact Except.ok.inj hs ▸ hresched h
  · split at hs
    · cases hs
    · rename_i s₁ h₁
      split at hs
      · cases hs
      · rename_i s₂ h₂
        exact Except.ok.inj hs ▸ hresched ((h.process h₁).process h₂)

theorem Ready.tick {s s' : St} {calls : List Call} (hs : s.tick cfg env calls = .ok s') : s'.Ready := by
  have hidle : s'.Idle := by
    have hcheck := Idle.checkMMR { s with tickScheduled := false } calls
    simp only [St.tick] at hs
    split at hs
    · exact Except.ok.inj hs ▸ hcheck
    · exact hcheck.processMemoryRequests hs
  exact ⟨awake_tick hs, fun hneeded hrun => absurd (hidle hneeded) hrun⟩

theorem Ready.resend {p : Nat} {ks : List Packet} : ∀ {s : St}, s.Ready → (resend env p ks s).Ready := by
  induction ks with
  | nil => exact id
  | cons k rest ih =>
    intro s h
    unfold St.resend
    split
    · exact ih (.of_scheduled rfl)
    · exact h

theorem Ready.call {s : St} (h : s.Ready) (c : Call) : (s.call c).Ready := by
  cases c with
  | enqueueRead add len => exact .of_scheduled rfl
  | enqueueWrite add data => exact .of_scheduled rfl
  | finish => exact ⟨h.awake, fun hneeded hrun => absurd (Idle.finish s hneeded) hrun⟩

theorem Ready.recvPacket {s s' : St} {k : Packet} {data : List Byte} (hs : s.recvPacket k data = .ok s') :
    s'.Ready := by
  unfold St.recvPacket at hs
  split at hs
  · cases hs
  · exact Except.ok.inj hs ▸ .of_scheduled rfl

end Process

end St

/-- **The assertions hold**: an event does what it does without them. -/
theorem Device.step_eq {cfg : Config} {s : St} {e : Ev} {r : Except Fault Device} (h : s.Ready)
    (hr : s.device.step cfg e = some r) : ∃ q, r = asserted q ∧ ∀ s', q = .ok s' → s'.Ready := by
  cases e with
  | call c =>
    obtain rfl := Option.some.inj hr
    refine ⟨.ok (s.call c), call_device s c, fun s' hs' => ?_⟩
    exact Except.ok.inj hs' ▸ h.call c
  | tick calls env =>
    simp only [step] at hr
    split at hr
    · obtain rfl := Option.some.inj hr
      exact ⟨s.tick cfg env calls, tick_device s calls, fun s' hs' => .tick hs'⟩
    · cases hr
  | retry p env =>
    simp only [step] at hr
    split at hr
    · obtain rfl := Option.some.inj hr
      refine ⟨.ok (s.recvReqRetry env p), resend_device s, fun s' hs' => ?_⟩
      exact Except.ok.inj hs' ▸ h.resend
    · cases hr
  | response id data =>
    simp only [step] at hr
    split at hr
    · rename_i k _
      split at hr
      · obtain rfl := Option.some.inj hr
        exact ⟨_, recvPacket_device { s with inFlight := s.inFlight.erase k } k data, fun s' hs' => .recvPacket hs'⟩
      · cases hr
    · cases hr
  | write flags =>
    obtain rfl := Option.some.inj hr
    refine ⟨.ok ({ s with mmreg := flags } : St).schedule, scheduleUnlessScheduled_device _, fun s' hs' => ?_⟩
    exact Except.ok.inj hs' ▸ .of_scheduled rfl

/-- Every state reached is one of the interface without assertions, and ready. -/
theorem device_of_reachable {cfg : Config} {v : Device} (h : (wakeups cfg).Reachable v) : ∃ s :
    St, v = s.device ∧ s.Ready := by
  refine System.invariantWhen (I := fun v => ∃ s : St, v = s.device ∧ s.Ready) ?_ ?_ h
  · rintro v rfl
    exact ⟨.start, rfl, fun d hd => absurd rfl hd, fun _ hrun => absurd rfl hrun⟩
  · intro v e v' _ hv _ hstep
    obtain ⟨s, rfl, hs⟩ := hv
    obtain ⟨r, hr, hok⟩ := Option.bind_eq_some_iff.mp hstep
    obtain ⟨q, rfl, hq⟩ := Device.step_eq hs hr
    cases q with
    | error e => cases hok
    | ok s' => exact ⟨s', (Option.some.inj hok).symm, hq s' rfl⟩

/-- **No wake-up is missed.** In every state reached `tickEvent` is scheduled when a request waits, and when the run bit
is set and nothing is computed. No event schedules it a second time, or starts the compute unit while it computes. -/
theorem wakeup_scheduled (cfg : Config) {v : Device} (h : (wakeups cfg).Reachable v) :
    (∀ d, v.st.queue d ≠ [] → v.st.tickScheduled = true) ∧
    (v.computing = false → v.st.mmreg &&& 0x01 ≠ 0 → v.st.tickScheduled = true) ∧
    ∀ e, v.step cfg e ≠ some (.error .scheduled) ∧ v.step cfg e ≠ some (.error .computing) := by
  obtain ⟨s, rfl, hs⟩ := device_of_reachable h
  refine ⟨hs.awake, hs.run, fun e => ?_⟩
  have hne : ∀ r, s.device.step cfg e = some r → r ≠ .error .scheduled ∧ r ≠ .error .computing := by
    intro r hr
    obtain ⟨q, rfl, -⟩ := Device.step_eq hs hr
    cases q with
    | error e => exact ⟨nofun, nofun⟩
    | ok s' => exact ⟨nofun, nofun⟩
  exact ⟨fun he => (hne _ he).1 rfl, fun he => (hne _ he).2 rfl⟩

/-- The compute unit is to be started and a request waits: the tick is scheduled, and may make requests itself. -/
theorem wakeup_scheduled_waiting : ∃ v, (wakeups onePort).Reachable v ∧ v.st.mmreg = 1 ∧ v.st.queue .read = [0] ∧
    v.st.tickScheduled = true ∧ v.step onePort (.tick [.enqueueRead 64 8] St.willing) ≠ some (.error .scheduled) := by
  obtain ⟨v, hv, hrun, hqueue⟩ := System.reachable_of_replay (S := wakeups onePort)
    (rfl : (wakeups onePort).init ⟨.start, false⟩) [.write 1, .call (.enqueueRead 0 4)]
    (fun v => v.st.mmreg = 1 ∧ v.st.queue .read = [0]) (by decide)
  obtain ⟨hwaiting, -, hfault⟩ := wakeup_scheduled onePort hv
  exact ⟨v, hv, hrun, hqueue, hwaiting .read (by simp [hqueue]), (hfault _).1⟩

end Salam.Comm
