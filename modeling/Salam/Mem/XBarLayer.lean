import Mathlib.Data.List.Count
import Salam.Lib.System
import Salam.Mem.Clocked

/-!
# `BaseXBar::Layer`

A layer of a crossbar: the arbitration of the source ports that send to one destination port. The calls that leave the
layer are cut in two: `tryTiming` that is answered with `true` begins an attempt, which `succeededTiming` or
`failedTiming` ends, and `retryWaiting` is cut at `sendRetry`, from which the source may call back.

* `exec`: what can happen, in any order; `Allowed` is what the ports and the event queue see to.
* `Books`: who is recorded where, and when the release event is scheduled.
* `layer_arbitration`: it holds in every run, and no assertion fails.
-/

namespace Salam.Mem

/-- `State` of a layer. -/
inductive LayerState
  | idle
  | busy
  | retry
  deriving DecidableEq

/-- A layer; `releaseEvent` is the tick it is scheduled for. -/
structure Layer (Src : Type) where
  state : LayerState
  waitingForLayer : List Src
  waitingForPeer : Option Src
  releaseEvent : Option Nat
  deriving DecidableEq

/-- An assertion fails. -/
inductive LayerErr
  | assertion
  deriving DecidableEq

namespace Layer

variable {Src : Type} [DecidableEq Src]

/-- The constructor. -/
def new : Layer Src := { state := .idle, waitingForLayer := [], waitingForPeer := none, releaseEvent := none }

/-- `occupyLayer`; `schedule` asserts that the event is not scheduled and that the tick is not past. -/
def occupyLayer (l : Layer Src) (curTick until_ : Nat) : Except LayerErr (Layer Src) :=
  if l.state ≠ .busy ∨ until_ = 0 ∨ l.releaseEvent.isSome ∨ until_ < curTick then .error .assertion
  else .ok { l with releaseEvent := some until_ }

/-- `tryTiming`, and its answer. -/
def tryTiming (l : Layer Src) (srcPort : Src) : Except LayerErr (Layer Src × Bool) :=
  if l.state = .busy ∨ l.waitingForPeer ≠ none then
    if srcPort ∈ l.waitingForLayer then .error .assertion
    else .ok ({ l with waitingForLayer := l.waitingForLayer ++ [srcPort] }, false)
  else .ok ({ l with state := .busy }, true)

def succeededTiming (l : Layer Src) (curTick busyTime : Nat) : Except LayerErr (Layer Src) :=
  if l.state ≠ .busy then .error .assertion else l.occupyLayer curTick busyTime

def failedTiming (l : Layer Src) (srcPort : Src) (curTick busyTime : Nat) : Except LayerErr (Layer Src) :=
  if l.waitingForPeer ≠ none then .error .assertion
  else
    let l : Layer Src := { l with waitingForPeer := some srcPort }
    if l.state ≠ .busy then .error .assertion else l.occupyLayer curTick busyTime

/-- `retryWaiting` up to the call of `sendRetry`, and the port that is called. -/
def retryWaiting (l : Layer Src) : Except LayerErr (Layer Src × Src) :=
  match l.waitingForLayer with
  | [] => .error .assertion
  | retryingPort :: rest =>
    if l.state ≠ .idle then .error .assertion
      else .ok ({ l with state := .retry, waitingForLayer := rest }, retryingPort)

/-- The rest of `retryWaiting`, once `sendRetry` has returned. -/
def retried (l : Layer Src) (C : Clock) (curTick : Nat) : Except LayerErr (Layer Src) :=
  if l.state = .retry then { l with state := .busy }.occupyLayer curTick (C.clockEdge curTick 0) else .ok l

/-- `releaseLayer`, and the port that `retryWaiting` calls, if it comes to that. -/
def releaseLayer (l : Layer Src) : Except LayerErr (Layer Src × Option Src) :=
  if l.state ≠ .busy ∨ l.releaseEvent.isSome then .error .assertion
  else
    let l : Layer Src := { l with state := .idle }
    if l.waitingForLayer ≠ [] ∧ l.waitingForPeer = none then l.retryWaiting.map fun r => (r.1, some r.2)
    else .ok (l, none)

/-- `recvRetry`, and the port that `retryWaiting` calls, if it comes to that. -/
def recvRetry (l : Layer Src) : Except LayerErr (Layer Src × Option Src) :=
  match l.waitingForPeer with
  | none => .error .assertion
  | some p =>
    let l : Layer Src := { l with waitingForLayer := p :: l.waitingForLayer, waitingForPeer := none }
    if l.state = .idle then l.retryWaiting.map fun r => (r.1, some r.2)
    else if l.state ≠ .busy then .error .assertion
    else .ok (l, none)

/-- The ports that the layer has on record. -/
def recorded (l : Layer Src) : List Src := l.waitingForLayer ++ l.waitingForPeer.toList

end Layer

/-- What a source sees of the layer. -/
inductive LayerNote (Src : Type)
  | refused (p : Src)
  | retry (p : Src)
  deriving DecidableEq

/-- A layer with its surroundings. -/
structure LayerRun (Src : Type) where
  layer : Layer Src
  curTick : Nat
  /-- The source of the attempt that is under way. -/
  attempt : Option Src
  /-- `sendRetry` has been called and has not returned. -/
  retrying : Bool
  /-- The peer has refused a packet and not yet asked for it again. -/
  peerOwes : Bool
  /-- The refusals and the retries, in order. -/
  log : List (LayerNote Src)

/-- What can happen. -/
inductive LayerOp (Src : Type)
  | tryTiming (p : Src)
  /-- The peer accepts the packet, which occupies the layer for its payload as well. -/
  | succeeded (payloadDelay : Nat)
  | failed
  | releaseLayer
  | recvRetry
  | retryReturns
  | advance (t : Nat)
  deriving DecidableEq

namespace LayerRun

variable {Src : Type} [DecidableEq Src] {C : Clock} {s s' : LayerRun Src}

/-- How often the port was refused. -/
def refusals (log : List (LayerNote Src)) (p : Src) : Nat := log.count (.refused p)

/-- How many retries the port was sent. -/
def retries (log : List (LayerNote Src)) (p : Src) : Nat := log.count (.retry p)

/-- The port has been refused, and was not sent a retry since. -/
def Waiting (s : LayerRun Src) (p : Src) : Prop := retries s.log p < refusals s.log p

instance (s : LayerRun Src) (p : Src) : Decidable (s.Waiting p) := inferInstanceAs (Decidable (_ < _))

/-- A source that waits does not try, and has no attempt of its own refused while it waits; the peer sends one retry for
each packet it has refused. Events run one after the other, not inside the calls of another, and in the order of
time. -/
def Allowed (s : LayerRun Src) : LayerOp Src → Prop
  | .tryTiming p => ¬ s.Waiting p
  | .succeeded _ => s.attempt ≠ none
  | .failed => ∃ p ∈ s.attempt, ¬ s.Waiting p
  | .releaseLayer => s.layer.releaseEvent = some s.curTick ∧ s.attempt = none ∧ s.retrying = false
  | .recvRetry => s.peerOwes = true
  | .retryReturns => s.retrying = true ∧ s.attempt = none
  | .advance t => s.curTick < t ∧ (∀ e ∈ s.layer.releaseEvent, t ≤ e) ∧ s.attempt = none ∧ s.retrying = false

instance (s : LayerRun Src) (op : LayerOp Src) : Decidable (s.Allowed op) := by
  cases op <;> unfold Allowed <;> infer_instance

/-- The layer after a call that may send a retry. -/
def sent (s : LayerRun Src) (r : Layer Src × Option Src) : LayerRun Src :=
  match r.2 with
  | some p => { s with layer := r.1, retrying := true, log := s.log ++ [.retry p] }
  | none => { s with layer := r.1 }

/-- One call, return or event. The ticks that the layer is occupied until are those of `NoncoherentXBar`. -/
def exec (C : Clock) (s : LayerRun Src) : LayerOp Src → Except LayerErr (LayerRun Src)
  | .tryTiming p =>
    (s.layer.tryTiming p).map fun r =>
      if r.2 then { s with layer := r.1, attempt := some p }
      else { s with layer := r.1, log := s.log ++ [.refused p] }
  | .succeeded payloadDelay =>
    (s.layer.succeededTiming s.curTick (C.clockEdge s.curTick 1 + payloadDelay)).map fun l =>
      { s with layer := l, attempt := none }
  | .failed =>
    match s.attempt with
    | none => .ok s
    | some p =>
      (s.layer.failedTiming p s.curTick (C.clockEdge s.curTick 1)).map fun l =>
        { s with layer := l, attempt := none, peerOwes := true, log := s.log ++ [.refused p] }
  | .releaseLayer => ({ s.layer with releaseEvent := none }.releaseLayer).map s.sent
  | .recvRetry => s.layer.recvRetry.map { s with peerOwes := false }.sent
  | .retryReturns => (s.layer.retried C s.curTick).map fun l => { s with layer := l, retrying := false }
  | .advance t => .ok { s with curTick := t }

/-- A layer from its construction on. -/
def system (Src : Type) [DecidableEq Src] (C : Clock) : System (LayerRun Src) (LayerOp Src) where
  init s := s.layer = .new ∧ s.attempt = none ∧ s.retrying = false ∧ s.peerOwes = false ∧ s.log = []
  step s op := if s.Allowed op then (s.exec C op).toOption else none

/-- Who is recorded where, and when the release event is scheduled. -/
structure Books (s : LayerRun Src) : Prop where
  /-- A refused port is recorded once, until it is sent a retry. -/
  recorded : ∀ p, refusals s.log p = retries s.log p + s.layer.recorded.count p ∧ s.layer.recorded.count p ≤ 1
  /-- The release event is scheduled in the busy state, unless the attempt is still under way. -/
  release : s.layer.releaseEvent.isSome ↔ s.layer.state = .busy ∧ s.attempt = none
  /-- Outside a call no port waits at an idle layer for nothing. -/
  waiting : s.attempt = none → s.retrying = false → s.layer.waitingForLayer ≠ [] →
    s.layer.state = .busy ∨ s.layer.waitingForPeer ≠ none
  /-- A port is recorded as waiting for the peer as long as the peer owes a retry. -/
  peer : s.peerOwes = true ↔ s.layer.waitingForPeer ≠ none
  /-- The attempt has the layer. -/
  attempt : s.attempt ≠ none → s.layer.state = .busy ∧ s.layer.waitingForPeer = none
  retry : s.layer.state = .retry → s.attempt = none ∧ s.retrying = true ∧ s.layer.waitingForPeer = none
  idle : s.layer.state = .idle → s.retrying = false ∧ (s.layer.waitingForPeer ≠ none → 0 < s.curTick)
  ticks : ∀ e ∈ s.layer.releaseEvent, s.curTick ≤ e ∧ 0 < e
  retrying : s.retrying = true → 0 < s.curTick

section Steps

theorem refusals_append (log : List (LayerNote Src)) (n : LayerNote Src) (q : Src) :
    refusals (log ++ [n]) q = refusals log q + if n = .refused q then 1 else 0 := by
  simp only [refusals, List.count_append, List.count_singleton, beq_iff_eq]

theorem retries_append (log : List (LayerNote Src)) (n : LayerNote Src) (q : Src) :
    retries (log ++ [n]) q = retries log q + if n = .retry q then 1 else 0 := by
  simp only [retries, List.count_append, List.count_singleton, beq_iff_eq]

variable {p : Src}

theorem Books.not_recorded (h : Books s) (hp : ¬ s.Waiting p) : s.layer.recorded.count p = 0 := by
  have hcount := (h.recorded p).1
  unfold Waiting at hp
  omega

theorem Books.release_none (h : Books s) (hb : ¬ (s.layer.state = .busy ∧ s.attempt = none)) :
    s.layer.releaseEvent = none := by
  cases hr : s.layer.releaseEvent with
  | none => rfl
  | some e => exact absurd (h.release.mp (by rw [hr]; rfl)) hb

variable {l : Layer Src}

/-- A refusal is recorded in one place more. -/
theorem recorded_refused (h : Books s) (hp : ¬ s.Waiting p)
    (hl : ∀ q, l.recorded.count q = s.layer.recorded.count q + if p = q then 1 else 0) (q : Src) :
    refusals (s.log ++ [.refused p]) q = retries (s.log ++ [.refused p]) q + l.recorded.count q ∧
    l.recorded.count q ≤ 1 := by
  have hcount := h.recorded q
  have hzero := h.not_recorded hp
  simp only [refusals_append, retries_append, LayerNote.refused.injEq, reduceCtorEq, if_false, hl]
  by_cases hpq : p = q
  · subst hpq
    simp only [if_true]
    omega
  · simp only [if_neg hpq]
    omega

theorem recorded_retry (h : Books s) (hl : ∀ q, s.layer.recorded.count q = l.recorded.count q + if p = q then 1 else 0)
    (q : Src) : refusals (s.log ++ [.retry p]) q = retries (s.log ++ [.retry p]) q + l.recorded.count q ∧
      l.recorded.count q ≤ 1 := by
  have hcount := h.recorded q
  have hq := hl q
  simp only [refusals_append, retries_append, LayerNote.retry.injEq, reduceCtorEq, if_false]
  by_cases hpq : p = q
  · subst hpq
    omega
  · simp only [if_neg hpq] at hq ⊢
    omega

theorem tryTiming_spec (h : Books s) (hp : ¬ s.Waiting p) : ∃ s', s.exec C (.tryTiming p) = .ok s' ∧ Books s' := by
  have hnot : p ∉ s.layer.waitingForLayer := fun hm =>
    absurd (h.not_recorded hp) (List.count_pos_iff.mpr (List.mem_append_left _ hm)).ne'
  by_cases hbusy : s.layer.state = .busy ∨ s.layer.waitingForPeer ≠ none
  · refine ⟨_, by simp only [exec, Layer.tryTiming, if_pos hbusy, if_neg hnot]; rfl, ?_⟩
    simp only [Bool.false_eq_true, if_false]
    constructor
    · apply recorded_refused h hp
      intro q
      simp only [Layer.recorded, List.count_append, List.count_singleton, beq_iff_eq]
      omega
    · exact h.release
    · intro ha hr _
      exact hbusy
    · exact h.peer
    · exact h.attempt
    · exact h.retry
    · exact h.idle
    · exact h.ticks
    · exact h.retrying
  · refine ⟨_, by simp only [exec, Layer.tryTiming, if_neg hbusy]; rfl, ?_⟩
    simp only [not_or, not_not] at hbusy
    obtain ⟨hstate, hpeer⟩ := hbusy
    have hrelease := h.release_none fun hb => hstate hb.1
    constructor
    · exact h.recorded
    · simp [hrelease]
    · intro ha
      cases ha
    · exact h.peer
    · intro _
      exact ⟨rfl, hpeer⟩
    · intro hs
      cases hs
    · intro hs
      cases hs
    · exact h.ticks
    · exact h.retrying

omit [DecidableEq Src] in
theorem occupyLayer_ok {t u : Nat} (hstate : l.state = .busy) (hrelease : l.releaseEvent = none) (htu : t ≤ u)
    (hpos : 0 < u) :
    l.occupyLayer t u = .ok { l with state := .busy, releaseEvent := some u } := by
  rw [Layer.occupyLayer, if_neg]
  · rw [← hstate]
  · simp only [hstate, hrelease, ne_eq, not_true, Option.isSome_none, Bool.false_eq_true, false_or, not_or]
    omega

/-- The state when no attempt is under way and the layer is occupied. -/
theorem books_occupied {t : Nat} {retrying owes : Bool} {log : List (LayerNote Src)} {u : Nat}
    (hstate : l.state = .busy)
    (hrelease : l.releaseEvent = some u) (hle : t ≤ u) (hpos : 0 < u) (hpeer : owes = true ↔ l.waitingForPeer ≠ none)
    (hretrying : retrying = true → 0 < t)
    (hrec : ∀ p, refusals log p = retries log p + l.recorded.count p ∧ l.recorded.count p ≤ 1) :
    Books { layer := l, curTick := t, attempt := none, retrying, peerOwes := owes, log } := by
  constructor
  · exact hrec
  · simp [hstate, hrelease]
  · intro _ _ _
    exact .inl hstate
  · exact hpeer
  · intro hn
    exact absurd rfl hn
  · intro hs
    rw [hstate] at hs
    cases hs
  · intro hs
    rw [hstate] at hs
    cases hs
  · intro e he
    cases hrelease.symm.trans he
    exact ⟨hle, hpos⟩
  · exact hretrying

section

variable (h : Books s)
include h

theorem succeeded_spec (payloadDelay : Nat) (ha : s.attempt ≠ none) :
    ∃ s', s.exec C (.succeeded payloadDelay) = .ok s' ∧ Books s' := by
  obtain ⟨hstate, hpeer⟩ := h.attempt ha
  have hedge := C.lt_clockEdge_one s.curTick
  have hok := occupyLayer_ok (t := s.curTick) (u := C.clockEdge s.curTick 1 + payloadDelay) hstate
    (h.release_none fun hb => ha hb.2) (by omega) (by omega)
  refine ⟨_, by simp only [exec, Layer.succeededTiming, hstate, ne_eq, not_true, if_false, hok]; rfl, ?_⟩
  exact books_occupied rfl rfl (by omega) (by omega) h.peer h.retrying h.recorded

theorem failed_spec (ha : s.attempt = some p) (hp : ¬ s.Waiting p) : ∃ s', s.exec C .failed = .ok s' ∧ Books s' := by
  have hne : s.attempt ≠ none := by simp [ha]
  obtain ⟨hstate, hpeer⟩ := h.attempt hne
  have hedge := C.lt_clockEdge_one s.curTick
  have hok := occupyLayer_ok (l := { s.layer with waitingForPeer := some p }) (t := s.curTick)
    (u := C.clockEdge s.curTick 1) hstate (h.release_none fun hb => hne hb.2) (by omega) (by omega)
  refine ⟨_, by
    simp only [exec, ha, Layer.failedTiming, hpeer, ne_eq, not_true, if_false]
    rw [if_neg (by rw [hstate]; simp), hok]
    rfl, ?_⟩
  apply books_occupied rfl rfl (by omega) (by omega) (by simp) h.retrying
  apply recorded_refused h hp
  intro q
  simp only [Layer.recorded, hpeer, List.count_append, Option.toList_none, Option.toList_some, List.count_nil,
    List.count_singleton, beq_iff_eq]
  omega

/-- The state after `sendRetry` was called. -/
theorem books_sent (l : Layer Src) (p : Src) (owes : Bool) (ha : s.attempt = none) (hstate : l.state = .retry)
    (hrelease : l.releaseEvent = none) (hpeer : l.waitingForPeer = none) (howes : owes = false) (hpos : 0 < s.curTick)
    (hl : ∀ q, s.layer.recorded.count q = l.recorded.count q + if p = q then 1 else 0) :
    Books { s with layer := l, retrying := true, peerOwes := owes, log := s.log ++ [.retry p] } := by
  constructor
  · exact recorded_retry h hl
  · simp [hrelease, hstate]
  · intro _ hr
    cases hr
  · simp [howes, hpeer]
  · intro hn
    exact absurd ha hn
  · intro _
    exact ⟨ha, rfl, hpeer⟩
  · intro hs
    rw [hstate] at hs
    cases hs
  · intro e he
    rw [hrelease] at he
    cases he
  · intro _
    exact hpos

theorem releaseLayer_spec (hev : s.layer.releaseEvent = some s.curTick) (ha : s.attempt = none)
    (hr : s.retrying = false) :
    ∃ s', s.exec C .releaseLayer = .ok s' ∧ Books s' := by
  have hstate : s.layer.state = .busy := (h.release.mp (by rw [hev]; rfl)).1
  have hpos : 0 < s.curTick := (h.ticks _ hev).2
  by_cases hwait : s.layer.waitingForLayer ≠ [] ∧ s.layer.waitingForPeer = none
  · obtain ⟨p, rest, hcons⟩ := List.exists_cons_of_ne_nil hwait.1
    have howes : s.peerOwes = false := by
      rw [Bool.eq_false_iff, Ne, h.peer, not_not]
      exact hwait.2
    refine ⟨_, by
      simp only [exec, Layer.releaseLayer, hstate, ne_eq, not_true, Option.isSome_none, Bool.false_eq_true, or_self,
        if_false, if_pos hwait]
      simp only [Layer.retryWaiting, hcons]
      rfl, ?_⟩
    refine books_sent h { state := .retry, waitingForLayer := rest, waitingForPeer :=
      s.layer.waitingForPeer, releaseEvent := none }
      p s.peerOwes ha rfl rfl hwait.2 howes hpos fun q => ?_
    simp only [Layer.recorded, hcons, List.cons_append, List.count_cons, beq_iff_eq]
  · refine ⟨_, by
      simp only [exec, Layer.releaseLayer, hstate, ne_eq, not_true, Option.isSome_none, Bool.false_eq_true, or_self,
        if_false, if_neg hwait]
      rfl, ?_⟩
    simp only [sent]
    constructor
    · exact h.recorded
    · simp
    · intro _ _ hw
      exact .inr fun hp => hwait ⟨hw, hp⟩
    · exact h.peer
    · intro hn
      exact absurd ha hn
    · intro hs
      cases hs
    · intro _
      exact ⟨hr, fun _ => hpos⟩
    · intro e he
      cases he
    · exact h.retrying

theorem recvRetry_spec (ho : s.peerOwes = true) : ∃ s', s.exec C .recvRetry = .ok s' ∧ Books s' := by
  have hne := h.peer.mp ho
  obtain ⟨p, hp⟩ := Option.ne_none_iff_exists'.mp hne
  have ha : s.attempt = none := by
    by_contra ha
    exact hne (h.attempt ha).2
  by_cases hidle : s.layer.state = .idle
  · have hrelease := h.release_none fun hb => by rw [hidle] at hb; cases hb.1
    obtain ⟨hr, hpos⟩ := h.idle hidle
    refine ⟨_, by
      simp only [exec, Layer.recvRetry, hp, hidle, if_true, Layer.retryWaiting, ne_eq, not_true, if_false]
      rfl, ?_⟩
    refine books_sent h { s.layer with state := .retry, waitingForPeer := none } p false ha rfl hrelease rfl
      rfl (hpos hne)
      fun q => ?_
    simp only [Layer.recorded, hp, List.count_append, Option.toList_none, Option.toList_some, List.count_nil,
      List.count_singleton, beq_iff_eq]
    omega
  · have hbusy : s.layer.state = .busy := by
      cases hs : s.layer.state with
      | idle => exact absurd hs hidle
      | busy => rfl
      | retry => exact absurd (h.retry hs).2.2 hne
    refine ⟨_, by
      simp only [exec, Layer.recvRetry, hp, hbusy, reduceCtorEq, if_false, ne_eq, not_true]
      rfl, ?_⟩
    simp only [sent]
    constructor
    · intro q
      have hcount := h.recorded q
      simp only [Layer.recorded, hp, List.count_append, Option.toList_some, Option.toList_none, List.count_nil,
        List.count_cons, beq_iff_eq] at hcount ⊢
      omega
    · have hrelease := h.release
      rw [hbusy] at hrelease
      exact hrelease
    · intro _ _ _
      exact .inl rfl
    · simp
    · intro hn
      exact absurd ha hn
    · intro hs
      cases hs
    · intro hs
      cases hs
    · exact h.ticks
    · exact h.retrying

theorem retryReturns_spec (hr : s.retrying = true) (ha : s.attempt = none) :
    ∃ s', s.exec C .retryReturns = .ok s' ∧ Books s' := by
  have hnot : s.layer.state ≠ .idle := by
    intro hidle
    rw [(h.idle hidle).1] at hr
    cases hr
  by_cases hretry : s.layer.state = .retry
  · have hpos := h.retrying hr
    have hedge := C.le_clockEdge s.curTick 0
    have hok := occupyLayer_ok (l := { s.layer with state := .busy }) (t := s.curTick)
      (u := C.clockEdge s.curTick 0) rfl
      (h.release_none fun hb => by rw [hretry] at hb; cases hb.1) hedge (by omega)
    refine ⟨_, by simp only [exec, Layer.retried, if_pos hretry, hok]; rfl, ?_⟩
    rw [show s.attempt = none from ha]
    exact books_occupied rfl rfl hedge (by omega) h.peer (by simp) h.recorded
  · refine ⟨_, by simp only [exec, Layer.retried, if_neg hretry]; rfl, ?_⟩
    constructor
    · exact h.recorded
    · exact h.release
    · intro _ _ _
      refine .inl ?_
      cases hs : s.layer.state with
      | idle => exact absurd hs hnot
      | busy => rfl
      | retry => exact absurd hs hretry
    · exact h.peer
    · exact h.attempt
    · intro hs
      exact absurd hs hretry
    · intro hs
      exact absurd hs hnot
    · exact h.ticks
    · intro hn
      cases hn

theorem advance_spec {t : Nat} (ht : s.curTick < t) (hev : ∀ e ∈ s.layer.releaseEvent, t ≤ e) :
    Books { s with curTick := t } := by
  constructor
  · exact h.recorded
  · exact h.release
  · exact h.waiting
  · exact h.peer
  · exact h.attempt
  · exact h.retry
  · intro hs
    exact ⟨(h.idle hs).1, fun _ => Nat.zero_lt_of_lt ht⟩
  · intro e he
    exact ⟨hev e he, (h.ticks e he).2⟩
  · intro _
    exact Nat.zero_lt_of_lt ht

end

/-- **No assertion fails, and the books stay right.** -/
theorem exec_books (C : Clock) (h : Books s) {op : LayerOp Src} (hop : s.Allowed op) :
    ∃ s', s.exec C op = .ok s' ∧ Books s' := by
  cases op with
  | tryTiming p => exact tryTiming_spec h hop
  | succeeded payloadDelay => exact succeeded_spec h payloadDelay hop
  | failed =>
    obtain ⟨p, hp, hw⟩ := hop
    exact failed_spec h hp hw
  | releaseLayer => exact releaseLayer_spec h hop.1 hop.2.1 hop.2.2
  | recvRetry => exact recvRetry_spec h hop
  | retryReturns => exact retryReturns_spec h hop.1 hop.2
  | advance t => exact ⟨_, rfl, advance_spec h hop.1 hop.2.1⟩

end Steps

theorem books_init (h : (system Src C).init s) : Books s := by
  obtain ⟨hl, ha, hr, ho, hlog⟩ := h
  constructor <;> simp [hl, ha, hr, ho, hlog, Layer.new, Layer.recorded, refusals, retries]

/-- **Arbitration of a layer**: the books are right in every state of every run, and whatever happens next, no assertion
fails. -/
theorem layer_arbitration (h : (system Src C).Reachable s) :
    Books s ∧ ∀ op, s.Allowed op → ∃ s', s.exec C op = .ok s' := by
  have hbooks : Books s := by
    refine System.invariantWhen (I := Books) (fun _ => books_init) ?_ h
    intro s op s' _ hs _ hstep
    simp only [system, Option.ite_none_right_eq_some] at hstep
    obtain ⟨hop, hok⟩ := hstep
    obtain ⟨s₁, h₁, hb⟩ := exec_books C hs hop
    cases (ok_of_toOption hok).symm.trans h₁
    exact hb
  refine ⟨hbooks, fun op hop => ?_⟩
  obtain ⟨s', hs', -⟩ := exec_books C hbooks hop
  exact ⟨s', hs'⟩

/-- Three sources: the first fails at the peer, the others wait for the layer, and a retry is not answered. -/
theorem layer_arbitration_three_sources : ∃ s : LayerRun (Fin 3),
    ((system (Fin 3) (.ofPeriod 2 (by decide))).Reachable s ∧ s.layer.waitingForLayer = [2, 1] ∧ s.layer.state = .busy)
      ∧ Books s := by
  let s₀ : LayerRun (Fin 3) := ⟨.new, 1, none, false, false, []⟩
  have h₀ : (system (Fin 3) (.ofPeriod 2 (by decide))).init s₀ := ⟨rfl, rfl, rfl, rfl, rfl⟩
  obtain ⟨s, hs, hw, hb⟩ := System.reachable_of_replay h₀
    [.tryTiming 0, .tryTiming 1, .failed, .tryTiming 2, .advance 4, .releaseLayer, .recvRetry, .tryTiming 0,
      .succeeded 1, .retryReturns, .advance 7, .releaseLayer, .retryReturns, .tryTiming 1]
    (fun s => s.layer.waitingForLayer = [2, 1] ∧ s.layer.state = .busy) (by decide)
  exact ⟨s, ⟨hs, hw, hb⟩, (layer_arbitration hs).1⟩

end LayerRun

end Salam.Mem
