import Salam.Engine.Lists
import Salam.Lib.Trace

/-!
# The accounts of the dependence mechanism

Every registration `register p k` raises `_ActiveParents` of `k` by one, and the commit of `p` lowers it once for each
of them. `Accounts` states the balance at any time, for every instance ever made: `_ActiveParents` is the number of
registrations whose parent has not committed, and the children of an instance still in a list are exactly the
registrations with it. `allowed` says in which order the events of a run come.

* `accounts_of_reachable`: the accounts balance in every state that `core` reaches.
-/

namespace Salam.Engine

open List (countP_eq_zero count_append count_eq_zero mem_append)

/-! ## Reading the log -/

/-- The commits of `id`. -/
def Event.commits (id : Nat) : Event → Bool
  | .commit k _ => k = id
  | _ => false

/-- `id` has committed. -/
def committed (log : List Event) (id : Nat) : Bool := log.any (Event.commits id)

/-- Registrations of the child `k` with a parent for which `done` is false. -/
def Event.waits (done : Nat → Bool) (k : Nat) : Event → Bool
  | .register p k' => k' = k && !done p
  | _ => false

/-- The registrations of `k`, with multiplicity, whose parent has not committed. -/
def pending (log : List Event) (k : Nat) : Nat := log.countP (Event.waits (committed log) k)

section Log

variable {l : List Event} {id k p : Nat}

@[simp] theorem committed_append (l l' : List Event) (id : Nat) :
    committed (l ++ l') id = (committed l id || committed l' id) := List.any_append

theorem committed_iff : committed l id = true ↔ ∃ v, .commit id v ∈ l := by
  simp only [committed, List.any_eq_true]
  constructor
  · rintro ⟨e, he, h⟩
    cases e <;> simp only [Event.commits, Bool.false_eq_true] at h
    obtain rfl := of_decide_eq_true h
    exact ⟨_, he⟩
  · rintro ⟨v, hv⟩
    exact ⟨_, hv, by simp [Event.commits]⟩

theorem committed_eq_false (h : ∀ v, .commit id v ∉ l) : committed l id = false := by
  rw [Bool.eq_false_iff]
  intro hc
  obtain ⟨v, hv⟩ := committed_iff.mp hc
  exact h v hv

/-- Events that change no account. -/
def Event.neutral : Event → Bool
  | .register .. | .signal .. | .commit .. => false
  | _ => true

theorem committed_neutral {es : List Event} (h : ∀ e ∈ es, e.neutral = true) : committed es id = false :=
  committed_eq_false fun v hv => by simpa [Event.neutral] using h _ hv

theorem countP_append_of_neutral {es : List Event} {f : Event → Bool} (h : ∀ e ∈ es, e.neutral = true)
    (hf : ∀ e, e.neutral = true → f e = false) : (l ++ es).countP f = l.countP f := by
  have h0 : es.countP f = 0 := countP_eq_zero.mpr fun e he => by simp [hf e (h e he)]
  rw [List.countP_append, h0, Nat.add_zero]

theorem pending_neutral {es : List Event} (h : ∀ e ∈ es, e.neutral = true) : pending (l ++ es) k = pending l k := by
  have hd : committed (l ++ es) = committed l := by funext p; simp [committed_neutral h]
  rw [pending, hd, countP_append_of_neutral h fun e he => by cases e <;> simp_all [Event.neutral, Event.waits]]
  rfl

/-- The registrations of a new instance `id`. -/
theorem pending_register {links : List Nat} (h : ∀ p ∈ links, committed l p = false) :
    pending (l ++ links.map fun p => .register p id) k = pending l k + if k = id then links.length else 0 := by
  have hd : committed (l ++ links.map fun p => .register p id) = committed l := by
    funext p
    rw [committed_append, committed_eq_false (l := links.map _) (by simp), Bool.or_false]
  rw [pending, hd, List.countP_append, List.countP_map]
  congr 1
  by_cases hk : k = id
  · subst hk
    rw [if_pos rfl, List.countP_eq_length]
    intro p hp
    simp [Event.waits, h p hp]
  · rw [if_neg hk, countP_eq_zero]
    intro p _
    simp [Event.waits, Ne.symm hk]

/-- The commit of `id` releases the registrations with it. -/
theorem pending_commit (v : Option Word) (ks : List Nat) (h : committed l id = false) :
    pending (l ++ .commit id v :: ks.map fun k => .signal id k) k + l.count (.register id k) = pending l k := by
  have hd : ∀ p, committed (l ++ .commit id v :: ks.map fun k => .signal id k) p =
    (committed l p || decide (id = p)) := by
    intro p
    rw [committed_append]
    congr 1
    simp [committed, Event.commits]
  have ht : (Event.commit id v :: ks.map fun k => .signal id k).countP
      (Event.waits (committed (l ++ .commit id v :: ks.map fun k => .signal id k)) k) = 0 :=
    countP_eq_zero.mpr fun e he => by
      simp only [List.mem_cons, List.mem_map] at he
      rcases he with rfl | ⟨a, -, rfl⟩ <;> simp [Event.waits]
  rw [pending, List.countP_append, ht, Nat.add_zero, pending, funext hd]
  clear ht hd
  have hsplit : ∀ m : List Event, m.countP (Event.waits (fun p => committed l p || decide (id = p)) k) +
      m.count (.register id k) = m.countP (Event.waits (committed l) k) := by
    intro m
    induction m with
    | nil => rfl
    | cons e m ih =>
      rw [List.countP_cons, List.countP_cons, List.count_cons, ← ih]
      cases e with
      | register p k' =>
        by_cases hp : p = id
        · subst hp
          by_cases hk : k' = k
          · simp only [Event.waits, hk, h]
            simp
            omega
          · simp [Event.waits, hk]
        · simp [Event.waits, hp, Ne.symm hp]
          omega
      | _ => simp [Event.waits]
  exact hsplit l

theorem pending_eq_zero (h : pending l k = 0) (hp : .register p k ∈ l) : committed l p = true := by
  have hw := countP_eq_zero.mp h _ hp
  simpa [Event.waits] using hw

theorem count_map_register (links : List Nat) (p k id : Nat) :
    (links.map fun q => Event.register q id).count (.register p k) = if k = id then links.count p else 0 := by
  by_cases hk : k = id
  · subst hk
    rw [if_pos rfl, List.count, List.countP_map]
    exact List.countP_congr fun q _ => by simp
  · rw [if_neg hk, count_eq_zero]
    simp [Ne.symm hk]

theorem count_map_signal (ks : List Nat) (p k id : Nat) :
    (ks.map fun q => Event.signal id q).count (.signal p k) = if p = id then ks.count k else 0 := by
  by_cases hp : p = id
  · subst hp
    rw [if_pos rfl, List.count, List.countP_map]
    exact List.countP_congr fun q _ => by simp
  · rw [if_neg hp, count_eq_zero]
    simp [Ne.symm hp]

end Log

/-! ## The accounts -/

/-- When an event may happen: an instance is launched once, after all its registered parents have committed; its
request is handed over and it commits, once, after its launch; it is registered before its launch, with a parent that
has not committed. -/
def allowed (l : List Event) : Event → Prop
  | .launch id => .launch id ∉ l ∧ ∀ p, .register p id ∈ l → committed l p = true
  | .request id .. => .launch id ∈ l
  | .commit id _ => committed l id = false ∧ .launch id ∈ l
  | .register p k => .launch k ∉ l ∧ committed l p = false
  | _ => True

structure Core.Accounts (c : Core) : Prop where
  committed_gone : ∀ id, committed c.log id = true → id ∉ c.live ∧ id < c.next
  register_lt : ∀ p k, .register p k ∈ c.log → p < k ∧ k < c.next
  active : ∀ k < c.next, (c.heap k).activeParents = (c.node k).baseParents + pending c.log k
  children : ∀ p ∈ c.live, ∀ k, (c.heap p).children.count k = c.log.count (.register p k)
  signalled : ∀ p k, c.log.count (.signal p k) = if committed c.log p then c.log.count (.register p k) else 0
  launch_gone : ∀ id, .launch id ∈ c.log → id ∉ c.reservation ∧ id < c.next
  launched : ∀ id ∈ c.live, id ∉ c.reservation → .launch id ∈ c.log
  ordered : Ordered allowed c.log

namespace Core

variable {c c' : Core} {id : Nat}

section

variable (h : c.Accounts)
include h

/-- Effects that neither register nor commit: they add neutral events and take instances out of the table. -/
theorem Accounts.neutral (es : List Event) (hlog : c'.log = c.log ++ es) (hes : ∀ e ∈ es, e.neutral = true)
    (hnext : c'.next = c.next) (hnode : ∀ k, c'.node k = c.node k)
    (hact : ∀ k, (c'.heap k).activeParents = (c.heap k).activeParents)
    (hch : ∀ k ∈ c'.live, (c'.heap k).children = (c.heap k).children) (hlive : ∀ k ∈ c'.live, k ∈ c.live)
    (hres : ∀ k ∈ c'.reservation, k ∈ c.reservation ∧ .launch k ∉ es) (hlt : ∀ k, .launch k ∈ es → k < c.next)
    (hq : ∀ k ∈ c'.live, k ∉ c'.reservation → k ∉ c.reservation ∨ .launch k ∈ es) (hord : Ordered allowed c'.log) :
    c'.Accounts := by
  have hcom : ∀ id, committed c'.log id = committed c.log id := fun id => by simp [hlog, committed_neutral hes]
  have hcount : ∀ e : Event, e.neutral = false → c'.log.count e = c.log.count e := by
    intro e he
    have h0 : es.count e = 0 := count_eq_zero.mpr fun hm => by simp [hes e hm] at he
    rw [hlog, count_append, h0, Nat.add_zero]
  have hmem : ∀ e : Event, e.neutral = false → e ∈ c'.log → e ∈ c.log := by
    intro e he hm
    rw [hlog, mem_append] at hm
    exact hm.resolve_right fun hm => by simp [hes e hm] at he
  refine ⟨?_, ?_, ?_, ?_, ?_, ?_, ?_, hord⟩
  · intro id hc
    obtain ⟨h₁, h₂⟩ := h.committed_gone id (hcom id ▸ hc)
    exact ⟨fun hl => h₁ (hlive id hl), hnext ▸ h₂⟩
  · intro p k hp
    rw [hnext]
    exact h.register_lt p k (hmem _ rfl hp)
  · intro k hk
    rw [hact, hnode, hlog, pending_neutral hes]
    exact h.active k (hnext ▸ hk)
  · intro p hp k
    rw [hch p hp, hcount _ rfl]
    exact h.children p (hlive p hp) k
  · intro p k
    rw [hcount _ rfl, hcount _ rfl, hcom]
    exact h.signalled p k
  · intro id hm
    rw [hlog, mem_append] at hm
    rcases hm with hm | hm
    · exact ⟨fun hr => (h.launch_gone id hm).1 (hres id hr).1, hnext ▸ (h.launch_gone id hm).2⟩
    · exact ⟨fun hr => (hres id hr).2 hm, hnext ▸ hlt id hm⟩
  · intro id hl hr
    rw [hlog, mem_append]
    rcases hq id hl hr with hr | hm
    · exact .inl (h.launched id (hlive id hl) hr)
    · exact .inr hm

theorem Accounts.allowed_launch (hL : c.Lists) (hr : c.ready id = true) : allowed c.log (.launch id) := by
  have hid := mem_of_ready hr
  refine ⟨fun hm => (h.launch_gone id hm).1 hid, fun p hp => pending_eq_zero (k := id) ?_ hp⟩
  have ha := h.active id (hL.lt_next id (mem_live.mpr (.inl hid)))
  rw [activeParents_of_ready hr] at ha
  have hb : 0 ≤ (c.node id).baseParents := by unfold Node.baseParents; split <;> omega
  omega

/-- Registrations with instances that are still in a list. -/
theorem Accounts.withNew (hL : c.Lists) {n : Node} {links : List Nat} {ops : List Word} {ptr : Word} {bb : Label}
    (hlinks : ∀ p ∈ links, p ∈ c.live) : (c.withNew n links ops ptr bb).Accounts := by
  have hfalse : ∀ p ∈ c.live, committed c.log p = false := by
    intro p hp
    rw [Bool.eq_false_iff]
    exact fun hc => (h.committed_gone p hc).1 hp
  have hnext : ∀ p k, .register p k ∈ c.log → p ≠ c.next ∧ k ≠ c.next := by
    intro p k hp
    have := h.register_lt p k hp
    omega
  have hcom : ∀ id (ps : List Nat), committed (c.log ++ ps.map fun p => .register p c.next) id =
    committed c.log id := by
    intro id ps
    rw [committed_append, committed_eq_false (l := ps.map _) (by simp), Bool.or_false]
  refine ⟨?_, ?_, ?_, ?_, ?_, ?_, ?_, ?_⟩
  · intro id hc
    rw [withNew_log, hcom] at hc
    obtain ⟨h₁, h₂⟩ := h.committed_gone id hc
    rw [mem_live_withNew, withNew_next]
    exact ⟨fun hm => by rcases hm with hm | hm <;> [exact h₁ hm; omega], by omega⟩
  · intro p k hp
    rw [withNew_log, mem_append, List.mem_map] at hp
    rw [withNew_next]
    rcases hp with hp | ⟨q, hq, he⟩
    · have := h.register_lt p k hp
      omega
    · cases he
      have := hL.lt_next _ (hlinks _ hq)
      omega
  · intro k hk
    rw [withNew_log, pending_register fun p hp => hfalse p (hlinks p hp)]
    by_cases hkn : k = c.next
    · subst hkn
      have h0 : pending c.log c.next = 0 := countP_eq_zero.mpr fun e he => by
        cases e with
        | register p k =>
          have := (hnext p k he).2
          simp [Event.waits, this]
        | _ => simp [Event.waits]
      simp [Core.withNew, node, Inst.clone, h0]
    · rw [withNew_node hkn, if_neg hkn, Nat.add_zero, ← h.active k (by rw [withNew_next] at hk; omega)]
      simp [Core.withNew, hkn]
  · intro p hp k
    rw [withNew_log, count_append, count_map_register]
    by_cases hpn : p = c.next
    · subst hpn
      have h0 : c.log.count (.register c.next k) = 0 := count_eq_zero.mpr fun hm => (hnext _ _ hm).1 rfl
      have h1 : links.count c.next = 0 := count_eq_zero.mpr fun hm => Nat.lt_irrefl _ (hL.lt_next _ (hlinks _ hm))
      simp [Core.withNew, Inst.clone, h0, h1]
    · have hpl : p ∈ c.live := (mem_live_withNew.mp hp).resolve_right hpn
      rw [← h.children p hpl k]
      by_cases hk : k = c.next
      · subst hk; simp [Core.withNew, hpn]
      · simp [Core.withNew, hpn, hk, List.count_replicate, Ne.symm hk]
  · intro p k
    have hs : (links.map fun q => Event.register q c.next).count (.signal p k) = 0 := count_eq_zero.mpr (by simp)
    rw [withNew_log, hcom, count_append, count_append, count_map_register, h.signalled p k, hs, Nat.add_zero]
    split
    · rename_i hc
      have h0 : links.count p = 0 := count_eq_zero.mpr fun hm => (h.committed_gone p hc).1 (hlinks p hm)
      simp [h0]
    · rfl
  · intro id hm
    rw [withNew_log, mem_append] at hm
    have hlt := h.launch_gone id (hm.resolve_right (by simp))
    rw [withNew_reservation, withNew_next, mem_append, List.mem_singleton]
    exact ⟨fun hr => by rcases hr with hr | hr <;> [exact hlt.1 hr; omega], by omega⟩
  · intro id hl hr
    rw [withNew_reservation, mem_append, List.mem_singleton, not_or] at hr
    rw [withNew_log, mem_append]
    exact .inl (h.launched id ((mem_live_withNew.mp hl).resolve_right hr.2) hr.1)
  · rw [withNew_log]
    refine h.ordered.append fun l₁ a l₂ he => ?_
    obtain ⟨ps, qs, rfl, rfl, hq⟩ := List.map_eq_append_iff.mp he
    obtain ⟨q, qs, rfl, rfl, -⟩ := List.map_eq_cons_iff.mp hq
    refine ⟨fun hm => ?_, by rw [hcom]; exact hfalse q (hlinks q (by simp))⟩
    rw [mem_append] at hm
    exact Nat.lt_irrefl _ (h.launch_gone _ (hm.resolve_right (by simp))).2

theorem Accounts.retire (hL : c.Lists) (hid : id ∈ c.live) (hr : id ∉ c.reservation) :
    ((c.retire id).drop id).Accounts := by
  have hlog : ((c.retire id).drop id).log =
      c.log ++ .commit id (c.outcome id) :: (c.heap id).children.map fun k => .signal id k := retire_log c id
  have hnext : ((c.retire id).drop id).next = c.next := retire_next c id
  have hres : ∀ k, k ∈ ((c.retire id).drop id).reservation ↔ k ∈ c.reservation ∧ k ≠ id := by
    intro k
    rw [mem_drop_reservation (hL.retire id), retire_reservation]
  have hlive : ∀ k, k ∈ ((c.retire id).drop id).live ↔ k ∈ c.live ∧ k ≠ id := by
    intro k
    rw [mem_live_drop (hL.retire id), retire_live]
  have hfalse : committed c.log id = false := by
    rw [Bool.eq_false_iff]
    exact fun hc => (h.committed_gone id hc).1 hid
  have hcom : ∀ k, committed ((c.retire id).drop id).log k = (committed c.log k || decide (id = k)) := by
    intro k
    have hs : committed ((c.heap id).children.map fun k => .signal id k) k = false := committed_eq_false (by simp)
    rw [hlog, List.append_cons, committed_append, hs, committed_append, Bool.or_false]
    simp [committed, Event.commits]
  have hreg : ∀ p k, ((c.retire id).drop id).log.count (.register p k) = c.log.count (.register p k) := by
    intro p k
    rw [hlog, count_append]
    exact Nat.add_eq_left.mpr (count_eq_zero.mpr (by simp))
  refine ⟨?_, ?_, ?_, ?_, ?_, ?_, ?_, ?_⟩
  · intro k hc
    rw [hcom, Bool.or_eq_true, decide_eq_true_eq] at hc
    rw [hlive, hnext]
    rcases hc with hc | rfl
    · exact ⟨fun hm => (h.committed_gone k hc).1 hm.1, (h.committed_gone k hc).2⟩
    · exact ⟨fun hm => hm.2 rfl, hL.lt_next _ hid⟩
  · intro p k hp
    rw [hlog, mem_append] at hp
    rw [hnext]
    exact h.register_lt p k (hp.resolve_right (by simp))
  · intro k hk
    have hb := pending_commit (k := k) (c.outcome id) (c.heap id).children hfalse
    rw [← h.children id hid k] at hb
    have ha := h.active k (hnext ▸ hk)
    have hact : (((c.retire id).drop id).heap k).activeParents =
        (c.heap k).activeParents - (c.heap id).children.count k := by
      simp [retire_heap]
    rw [hact, node_drop, retire_node, hlog]
    omega
  · intro p hp k
    have hpl := (hlive p).mp hp
    have hch : (((c.retire id).drop id).heap p).children = (c.heap p).children := by
      simp [retire_heap, hpl.2]
    rw [hch, hreg]
    exact h.children p hpl.1 k
  · intro p k
    rw [hcom, hreg, hlog, count_append, List.count_cons, count_map_signal, h.signalled p k]
    by_cases hp : p = id
    · subst hp
      simp [hfalse, h.children p hid k]
    · simp [hp, Ne.symm hp]
  · intro k hm
    rw [hlog, mem_append] at hm
    have hg := h.launch_gone k (hm.resolve_right (by simp))
    rw [hres, hnext]
    exact ⟨fun hm => hg.1 hm.1, hg.2⟩
  · intro k hl hk
    rw [hres, not_and, not_not] at hk
    rw [hlog, mem_append]
    exact .inl (h.launched k ((hlive k).mp hl).1 fun hm => ((hlive k).mp hl).2 (hk hm))
  · rw [hlog]
    refine h.ordered.append fun l₁ a l₂ he => ?_
    cases l₁ with
    | nil =>
      obtain ⟨rfl, -⟩ := List.cons.inj he
      simpa [allowed] using ⟨hfalse, h.launched id hid hr⟩
    | cons b l₁ =>
      have ha : a ∈ (c.heap id).children.map fun k => Event.signal id k := by
        rw [(List.cons.inj he).2]; simp
      obtain ⟨k, -, rfl⟩ := List.mem_map.mp ha
      trivial

/-- A launch moves a ready instance out of the table; `es` is what else it records. -/
theorem Accounts.launch (hL : c.Lists) (es : List Event) (hr : c.ready id = true)
    (hlog : c'.log = c.log ++ .launch id :: es)
    (hes : ∀ e ∈ es, e.neutral = true ∧ ∀ k, e ≠ .launch k) (hord : ∀ l, .launch id ∈ l → ∀ e ∈ es, allowed l e)
    (hnext : c'.next = c.next) (hnode : ∀ k, c'.node k = c.node k)
    (hact : ∀ k, (c'.heap k).activeParents = (c.heap k).activeParents)
      (hch : ∀ k, (c'.heap k).children = (c.heap k).children)
    (hlive : ∀ k ∈ c'.live, k ∈ c.live) (hres : ∀ k, k ∈ c'.reservation ↔ k ∈ c.reservation ∧ k ≠ id) :
      c'.Accounts := by
  have hid := hL.lt_next id (mem_live.mpr (.inl (mem_of_ready hr)))
  have hlaunch : ∀ k, .launch k ∈ Event.launch id :: es → k = id := by
    intro k hm
    rcases List.mem_cons.mp hm with he | he
    · exact Event.launch.inj he
    · exact absurd rfl ((hes _ he).2 k)
  refine h.neutral (.launch id :: es) hlog ?_ hnext hnode hact (fun k _ => hch k) hlive ?_ ?_ ?_ ?_
  · intro e he
    rcases List.mem_cons.mp he with rfl | he
    exacts [rfl, (hes e he).1]
  · intro k hk
    rw [hres] at hk
    exact ⟨hk.1, fun hm => hk.2 (hlaunch k hm)⟩
  · intro k hm
    rw [hlaunch k hm]
    exact hid
  · intro k _ hk
    rw [hres, not_and, not_not] at hk
    by_cases hkr : k ∈ c.reservation
    · exact .inr (by rw [hk hkr]; exact List.mem_cons_self)
    · exact .inl hkr
  · rw [hlog]
    refine h.ordered.append fun l₁ a l₂ he => ?_
    cases l₁ with
    | nil =>
      obtain ⟨rfl, -⟩ := List.cons.inj he
      rw [List.append_nil]
      exact h.allowed_launch hL hr
    | cons b l₁ =>
      obtain ⟨rfl, hes'⟩ := List.cons.inj he
      exact hord _ (by simp) a (by rw [hes']; simp)

/-- An instance is changed outside its accounts. -/
theorem Accounts.modify {f : Inst → Inst} (hn : (f (c.heap id)).node = (c.heap id).node)
    (ha : (f (c.heap id)).activeParents = (c.heap id).activeParents)
      (hc : (f (c.heap id)).children = (c.heap id).children) :
    (c.modify id f).Accounts := by
  refine h.neutral [] (by simp) (by simp) rfl (node_modify hn) ?_ ?_ (fun _ hk => hk)
    (fun k hk => ⟨hk, by simp⟩) (by simp) (fun k _ hk => .inl hk) h.ordered
  · intro k
    by_cases hk : k = id
    · subst hk; simpa using ha
    · simp [modify_heap, hk]
  · intro k _
    by_cases hk : k = id
    · subst hk; simpa using hc
    · simp [modify_heap, hk]

/-- **Every effect keeps the accounts.** -/
theorem Accounts.effect (hL : c.Lists) {a : Act} (he : c.Effect a c') : c'.Accounts := by
  cases he with
  | enter bb =>
    exact h.neutral [.scheduleBB bb] rfl (by simp [Event.neutral]) rfl (fun _ => rfl) (fun _ => rfl)
      (fun _ _ => rfl) (fun _ hk => hk) (fun k hk => ⟨hk, by simp⟩) (by simp) (fun k _ hk => .inl hk)
      (h.ordered.concat trivial)
  | schedule prev n => exact h.withNew hL fun p hp => parentsOf_live hp
  | @launchUnit id v hr hn hv =>
    have hL' := (hL.setFinal id (memcpy (c.node id).returnSize (c.heap id).finalResult v)).emit (.launch id)
    have hq : ((c.setFinal id (memcpy (c.node id).returnSize (c.heap id).finalResult v)).node id).queued = true := by
      simp [Node.queued, hn]
    refine h.launch hL [] hr rfl (by simp) (by simp) rfl (fun k => by simp) (fun k => by simp [setFinal_heap])
      (fun k => by simp [setFinal_heap]) ?_ fun k => mem_park_reservation hL'
    have hid := mem_of_ready hr
    exact fun k hk => (live_park_perm (c := (c.setFinal id _).emit _) hid hq).mem_iff.mp hk
  | @launchMem _ id ha hr hn =>
    have hL' := (hL.emit (.launch id)).emit (.request id (c.heap id).addr (c.heap id).len)
    have hq : (c.node id).queued = true := by rcases hn with hn | hn <;> simp [Node.queued, hn]
    refine h.launch hL [.request id (c.heap id).addr (c.heap id).len] hr (by simp) (by simp [Event.neutral])
      (by simp [allowed]) rfl
      (fun k => rfl) (fun k => rfl) (fun k => rfl) ?_ fun k => mem_park_reservation hL'
    have hid := mem_of_ready hr
    exact fun k hk => (live_park_perm (c := (c.emit _).emit _) hid hq).mem_iff.mp hk
  | @branch id d hr hd =>
    have hL' := (hL.emit (.launch id)).emit (.branch id d)
    exact h.launch hL [.branch id d] hr (by simp) (by simp [Event.neutral]) (by simp [allowed]) rfl
      (fun k => rfl) (fun k => rfl) (fun k => rfl) (fun k hk => ((mem_live_drop hL').mp hk).1)
      fun k => mem_drop_reservation hL'
  | bump hid hc => exact h.modify rfl rfl rfl
  | @retire _ id v ha hid hv =>
    have hl : id ∈ c.live := mem_live.mpr (.inr hid)
    have hr : id ∉ c.reservation := by
      intro hr
      obtain ⟨h₁, h₂, h₃⟩ := hL.disjoint.1 id hr
      rcases hid with h | h | h <;> contradiction
    exact Accounts.retire (c := c.setFinal id v) (h.modify rfl rfl rfl) (hL.setFinal id v) hl hr
  | @lose _ id v ha hid hc =>
    have hmod : (c.modify id fun x =>
        { x with finalResult := v, currCycle := x.currCycle + 1, parents := [], children := [] }).Lists := hL.modify rfl
    have hnode : ∀ k, (c.modify id fun x =>
        { x with finalResult := v, currCycle := x.currCycle + 1, parents := [], children := [] }).node k = c.node k :=
      node_modify rfl
    refine h.neutral [] (by simp) (by simp) rfl hnode ?_ ?_ ?_ ?_ (by simp) ?_ h.ordered
    · intro k
      by_cases hk : k = id
      · subst hk; simp
      · simp [modify_heap, hk]
    · intro k hk
      have hne := ((mem_live_drop hmod).mp hk).2
      simp [modify_heap, hne]
    · exact fun k hk => ((mem_live_drop hmod).mp hk).1
    · exact fun k hk => ⟨((mem_drop_reservation hmod).mp hk).1, by simp⟩
    · intro k hk hr
      rw [mem_drop_reservation hmod, not_and, not_not] at hr
      exact .inl fun hm => ((mem_live_drop hmod).mp hk).2 (hr hm)
  | @finish id hid hn =>
    have hL' := hL.emit .finish
    refine h.neutral [.finish] rfl (by simp [Event.neutral]) rfl (fun _ => rfl) (fun _ => rfl) (fun _ _ => rfl)
      (fun k hk => ((mem_live_drop hL').mp hk).1)
        (fun k hk => ⟨((mem_drop_reservation hL').mp hk).1, by simp⟩) (by simp)
      ?_ (h.ordered.concat trivial)
    intro k hk hr
    rw [mem_drop_reservation hL', not_and, not_not] at hr
    exact .inl fun hm => ((mem_live_drop hL').mp hk).2 (hr hm)

end

end Core

/-- **The accounts balance** in every reachable state. -/
theorem accounts_of_reachable {C : Core → Act → Prop} {c : Core} (h : core.ReachableWhen C c) : c.Accounts := by
  refine System.invariantWhen (I := Core.Accounts) ?_ ?_ h
  · rintro c ⟨init, rfl⟩
    constructor <;> simp [Core.start, Core.live, committed, Ordered.nil]
  · intro c a c' hr hI _ hs
    have hL := lists_of_reachable hr
    exact hI.effect hL (Core.effect_of_step hL hs)

end Salam.Engine
