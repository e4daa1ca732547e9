import Mathlib.Data.List.Nodup
import Mathlib.Data.List.Perm.Basic
import Salam.Prefetch.Queued

/-!
# The translations of the queued prefetcher

The TLB has a pointer to an element of `pfqMissingTranslation`. As long as no such element is a victim of a full queue
and no raise swaps its contents (`undisturbed`), it is still there with the prefetch that the translation was started
for (`Held`), so that the translation is applied to that prefetch and the assertions on the way hold.

* `Held`, `held_step`: the invariant.
* `translation_reaches_prefetch`: the result. `victim_translated`: a full queue.
-/

namespace Salam.Prefetch

open Queued (Err)
open List (map_cons mem_append mem_cons mem_cons_of_mem mem_map mem_map_of_mem mem_reverse nodup_cons)

/-! ## What disturbs a translation -/

/-- A raise swaps the contents of an element that the TLB holds. -/
def heldRaise (queue : List Node) (pfi : PrefetchInfo) (priority : Int) : Bool :=
  match findAddr pfi queue with
  | some (before, it :: _) =>
    it.dp.priority < priority &&
      before.any fun n => n.dp.priority < priority && (n.dp.ongoingTranslation || it.dp.ongoingTranslation)
  | _ => false

/-- The victim of a full queue is an element that the TLB holds. -/
def heldVictim (p : Params) (queue : List Node) : Bool :=
  queue.length = p.queueSize && (evict queue.reverse).any fun v => v.1.dp.ongoingTranslation

/-- A new prefetch needs a translation. -/
def needsTranslation (p : Params) (req : Request) (new : PrefetchInfo) : Bool :=
  match target p req new with
  | .ok (.missing _) => true
  | _ => false

/-- An `insert` disturbs a translation. -/
def insertDisturbs (p : Params) (s : State) (req : Request) (new : PrefetchInfo) (priority : Int) : Bool :=
  if p.queueFilter && (alreadyInQueue s.pfq new priority).1 then false
  else if p.queueFilter && (alreadyInQueue s.pfqMissingTranslation new priority).1 then
    heldRaise s.pfqMissingTranslation new priority
  else needsTranslation p req new && heldVictim p s.pfqMissingTranslation

/-- An `insert` of the loop of `notify` disturbs a translation. -/
def loopDisturbs (p : Params) (env : Env) (req : Request) (pfi : PrefetchInfo) (max_pfs : UInt64) :
    State → UInt64 → List (Addr × Int) → Bool
  | _, _, [] => false
  | s, num_pfs, (addr, priority) :: addresses =>
    let new := { pfi with address := p.blockAddress addr }
    if p.tlb || p.samePage new.address pfi.address then
      insertDisturbs p s req new priority ||
        ((s.insert p env req new priority).toOption.any fun s =>
          num_pfs + 1 ≠ max_pfs && loopDisturbs p env req pfi max_pfs s (num_pfs + 1) addresses)
    else loopDisturbs p env req pfi max_pfs s num_pfs addresses

/-- No translation is disturbed by a step. -/
def undisturbed (p : Params) (s : State) (e : Env × Event) : Bool :=
  match e.2 with
  | .insert req new priority => !insertDisturbs p s req new priority
  | .notify req pfi usefulPrefetches addresses =>
    !loopDisturbs p e.1 req pfi (s.getMaxPermittedPrefetches p usefulPrefetches (UInt64.ofNat addresses.length))
      (s.squash p pfi)
      0 addresses
  | _ => true

variable {p : Params} {env : Env} {s s' : State} {e : Err} {x : Except Err State} {n : Nat} {tr : Translation}
  {req : Request}
  {new : PrefetchInfo} {pfi : PrefetchInfo}

/-! ## The queues -/

section Queues

variable {queue queue' : List Node} {new : Node} {pfi : PrefetchInfo} {priority : Int} {dp : DeferredPacket}

theorem place_perm (new : Node) (queue : List Node) : (place new queue).Perm (new :: queue) := by
  induction queue with
  | nil => exact .refl _
  | cons n rest ih =>
    cases rest with
    | nil =>
      rw [place]
      split
      · exact .refl _
      · exact .swap _ _ _
    | cons m rest =>
      change (if n.dp.priority < new.dp.priority then n :: place new (m :: rest) else n :: new :: m :: rest).Perm _
      split
      · exact (ih.cons n).trans (.swap _ _ _)
      · exact .swap _ _ _

theorem getLast_perm {α : Type*} {l : List α} (h : l ≠ []) : (l.getLast h :: l.dropLast).Perm l := by
  have hsplit := (List.perm_append_singleton (l.getLast h) l.dropLast).symm
  rwa [List.dropLast_append_getLast] at hsplit

theorem evict_perm {v : Node} {rest : List Node} (h : evict queue = some (v, rest)) : (v :: rest).Perm queue := by
  cases queue with
  | nil => cases h
  | cons last tail =>
    cases tail with
    | nil => cases h
    | cons n tail =>
      obtain ⟨rfl, rfl⟩ := Prod.mk.inj (Option.some.inj h)
      have hperm := getLast_perm
        (List.cons_ne_nil last ((n :: tail).takeWhile fun m => m.dp.priority = last.dp.priority))
      have hsplit : ((n :: tail).takeWhile fun m => decide (m.dp.priority = last.dp.priority)) ++
          ((n :: tail).dropWhile fun m => decide (m.dp.priority = last.dp.priority)) = n :: tail :=
        List.takeWhile_append_dropWhile
      have hall := hperm.append_right ((n :: tail).dropWhile fun m => decide (m.dp.priority = last.dp.priority))
      rwa [List.cons_append, List.cons_append, hsplit] at hall

/-- What `addToQueue` does: the new element comes in, and a full queue loses its victim. -/
theorem addToQueue_spec (h : addToQueue p queue new = .ok queue') :
    ∃ kept, queue'.Perm (new :: kept) ∧
      (kept.Perm queue ∨ queue.length = p.queueSize ∧ ∃ v rest, evict queue.reverse = some (v, rest) ∧
      (v :: kept).Perm queue) := by
  rw [addToQueue] at h
  split at h
  · rename_i hfull
    split at h
    · cases h
    · rename_i v rest hevict
      obtain rfl := Except.ok.inj h
      refine ⟨rest, (List.reverse_perm _).trans (place_perm _ _), .inr ⟨hfull, v, rest, hevict, ?_⟩⟩
      exact (evict_perm hevict).trans (List.reverse_perm _)
  · obtain rfl := Except.ok.inj h
    exact ⟨queue.reverse, (List.reverse_perm _).trans (place_perm _ _), .inl (List.reverse_perm _)⟩

theorem addToQueue_error {e : Err} (h : addToQueue p queue new = .error e) : e = .panic := by
  rw [addToQueue] at h
  split at h
  · split at h
    · exact (Except.error.inj h).symm
    · cases h
  · cases h

theorem raise_ids (dp : DeferredPacket) (queue : List Node) : (raise dp queue).2.map (·.id) = queue.map (·.id) := by
  induction queue generalizing dp with
  | nil => rfl
  | cons prev rest ih =>
    rw [raise]
    split
    · rw [map_cons, map_cons, ih]
    · rw [map_cons, map_cons, ih]

theorem raise_perm (dp : DeferredPacket) (queue : List Node) :
    ((raise dp queue).1 :: (raise dp queue).2.map (·.dp)).Perm (dp :: queue.map (·.dp)) := by
  induction queue generalizing dp with
  | nil => exact .refl _
  | cons prev rest ih =>
    rw [raise]
    split
    · exact ((ih dp).cons prev.dp).trans (.swap _ _ _)
    · exact ((List.Perm.swap _ _ _).trans ((ih dp).cons prev.dp)).trans (.swap _ _ _)

/-- An element of no lower priority stays as it is. -/
theorem mem_raise {n : Node} (hn : n ∈ queue) (hle : ¬ n.dp.priority < dp.priority) : n ∈ (raise dp queue).2 := by
  induction queue with
  | nil => cases hn
  | cons prev rest ih =>
    rw [raise]
    obtain rfl | hn := mem_cons.mp hn
    · rw [if_neg hle]
      exact List.mem_cons_self
    · split
      · exact mem_cons_of_mem _ (ih hn)
      · exact mem_cons_of_mem _ (ih hn)

theorem raise_of_le (h : ∀ n ∈ queue, ¬ n.dp.priority < dp.priority) : raise dp queue = (dp, queue) := by
  induction queue with
  | nil => rfl
  | cons prev rest ih =>
    obtain ⟨hprev, hrest⟩ := List.forall_mem_cons.mp h
    rw [raise, if_neg hprev, ih hrest]

theorem findAddr_eq {before after : List Node} (h : findAddr pfi queue = some (before, after)) :
    queue = before.reverse ++ after := by
  rw [findAddr] at h
  split at h
  · cases h
  · rename_i found rest hdrop
    obtain ⟨rfl, rfl⟩ := Prod.mk.inj (Option.some.inj h)
    rw [List.reverse_cons, List.reverse_reverse, List.append_assoc, List.singleton_append, ← hdrop]
    exact List.takeWhile_append_dropWhile.symm

theorem alreadyInQueue_cases (queue : List Node) (pfi : PrefetchInfo) (priority : Int) :
    (alreadyInQueue queue pfi priority).2 = queue ∨
    ∃ before it after, findAddr pfi queue = some (before, it :: after) ∧ it.dp.priority < priority ∧
      (alreadyInQueue queue pfi priority).2 = (raise { it.dp with priority := priority } before).2.reverse ++
        ⟨it.id, (raise { it.dp with priority := priority } before).1⟩ :: after := by
  rw [alreadyInQueue]
  split
  · exact .inl rfl
  · exact .inl rfl
  · rename_i before it after hfind
    split
    · rename_i hlt
      exact .inr ⟨before, it, after, hfind, hlt, rfl⟩
    · exact .inl rfl

theorem alreadyInQueue_ids (queue : List Node) (pfi : PrefetchInfo) (priority : Int) :
    (alreadyInQueue queue pfi priority).2.map (·.id) = queue.map (·.id) := by
  obtain h | ⟨before, it, after, hfind, -, h⟩ := alreadyInQueue_cases queue pfi priority
  · rw [h]
  · rw [h, findAddr_eq hfind, List.map_append, List.map_reverse, raise_ids, List.map_append, List.map_reverse]
    rfl

/-- The contents are those there were, but for the priority of one of them. -/
theorem alreadyInQueue_contents (h : ∀ n ∈ queue, n.dp.translationRequest.isSome = true) :
    ∀ n ∈ (alreadyInQueue queue pfi priority).2, n.dp.translationRequest.isSome = true := by
  obtain he | ⟨before, it, after, hfind, -, he⟩ := alreadyInQueue_cases queue pfi priority
  · rwa [he]
  · rw [findAddr_eq hfind] at h
    have hold : ∀ dp ∈ (raise { it.dp with priority := priority } before).1 ::
        (raise { it.dp with priority := priority } before).2.map (·.dp), dp.translationRequest.isSome = true := by
      intro dp hdp
      obtain rfl | hdp := mem_cons.mp ((raise_perm _ _).mem_iff.mp hdp)
      · exact h it (List.mem_append_right _ List.mem_cons_self)
      · obtain ⟨n, hn, rfl⟩ := mem_map.mp hdp
        exact h n (List.mem_append_left _ (mem_reverse.mpr hn))
    intro n hn
    rw [he] at hn
    obtain hn | hn := mem_append.mp hn
    · exact hold _ (mem_cons_of_mem _ (mem_map_of_mem (mem_reverse.mp hn)))
    · obtain rfl | hn := mem_cons.mp hn
      · exact hold _ List.mem_cons_self
      · exact h n (List.mem_append_right _ (mem_cons_of_mem _ hn))

/-- The TLB holds an element with the prefetch that the translation was started for. -/
def Holds (queue : List Node) (t : Translation) : Prop :=
  ∃ n ∈ queue, n.id = t.node ∧ n.dp.pfInfo = t.started ∧ n.dp.translationRequest = some t.req ∧
    n.dp.ongoingTranslation = true

theorem alreadyInQueue_holds {t : Translation} (h : heldRaise queue pfi priority = false) (ht : Holds queue t) :
    Holds (alreadyInQueue queue pfi priority).2 t := by
  obtain he | ⟨before, it, after, hfind, hlt, he⟩ := alreadyInQueue_cases queue pfi priority
  · rwa [he]
  · have hfree : ∀ n ∈ before, n.dp.priority < priority →
        n.dp.ongoingTranslation = false ∧ it.dp.ongoingTranslation = false := by
      intro n hn hlow
      simp only [heldRaise, hfind, hlt, decide_true, Bool.true_and, List.any_eq_false] at h
      have hnot := h n hn
      simpa [hlow] using hnot
    obtain ⟨n, hn, hid, hpfi, hreq, hongoing⟩ := ht
    rw [findAddr_eq hfind] at hn
    rw [he]
    obtain hn | hn := mem_append.mp hn
    · have hbefore := mem_reverse.mp hn
      have hhigh : ¬ n.dp.priority < priority := by
        intro hlow
        rw [(hfree n hbefore hlow).1] at hongoing
        cases hongoing
      exact ⟨n, List.mem_append_left _ (mem_reverse.mpr (mem_raise hbefore hhigh)), hid, hpfi, hreq, hongoing⟩
    · obtain rfl | hn := mem_cons.mp hn
      · -- Nothing is swapped with an element that the TLB holds.
        have hstays : ∀ m ∈ before, ¬ m.dp.priority < priority := by
          intro m hm hlow
          rw [(hfree m hm hlow).2] at hongoing
          cases hongoing
        rw [raise_of_le hstays]
        exact ⟨_, List.mem_append_right _ List.mem_cons_self, hid, hpfi, hreq, hongoing⟩
      · exact ⟨n, List.mem_append_right _ (mem_cons_of_mem _ hn), hid, hpfi, hreq, hongoing⟩

end Queues

/-! ## The invariant -/

/-- A completion was applied to the prefetch that the translation was started for: the packet has the address that the
TLB found and the security state of that prefetch. There is none if the translation failed or the cache has the
address. -/
structure Completion.Right (p : Params) (c : Completion) : Prop where
  applied : c.applied = c.started
  failed : c.paddr = none → c.created = none
  created : ∀ a, c.paddr = some a → c.created = if c.redundant then none else some (createPkt p c.started a)
  redundant : c.redundant = true → p.cacheSnoop = true

/-- The addresses of the elements that wait for a translation. -/
def State.waiting (s : State) : List Nat := s.pfqMissingTranslation.map (·.id)

structure Held (p : Params) (s : State) : Prop where
  nodup : s.waiting.Nodup
  fresh : ∀ n ∈ s.pfqMissingTranslation, n.id < s.nextNode
  requests : ∀ n ∈ s.pfqMissingTranslation, n.dp.translationRequest.isSome = true
  nodes : (s.tlb.map (·.node)).Nodup
  pending : ∀ t ∈ s.tlb, Holds s.pfqMissingTranslation t
  completions : ∀ c ∈ s.completions, c.Right p

theorem held_start : Held p .start := ⟨.nil, by simp [State.start], by simp [State.start], .nil, by simp [State.start],
  by simp [State.start]⟩

/-- The assertions on the way of a translation, and the call of `finish` for an element that is gone. -/
def Queued.Err.onTheWay : Err → Bool
  | .noTranslationRequest | .notOngoing | .notMissing | .erased | .noPaddr => true
  | _ => false

/-- A step ends with `P`, or with an error that is none of a translation. -/
def Lands (P : State → Prop) (x : Except Err State) : Prop :=
  (∀ s, x = .ok s → P s) ∧ ∀ e, x = .error e → e.onTheWay = false

theorem Lands.ok {P : State → Prop} (h : P s) : Lands P (.ok s) := by
  refine ⟨fun s' hs => ?_, fun e he => ?_⟩
  · obtain rfl := Except.ok.inj hs
    exact h
  · cases he

theorem Lands.error {P : State → Prop} (h : e.onTheWay = false) : Lands P (.error e) := by
  refine ⟨fun s' hs => ?_, fun e' he => ?_⟩
  · cases hs
  · obtain rfl := Except.error.inj he
    exact h

theorem Lands.bind {P Q : State → Prop} {f : State → Except Err State} (hx : Lands P x)
    (hf : ∀ s, P s → Lands Q (f s)) :
    Lands Q (x.bind f) := by
  constructor
  · intro s hs
    obtain ⟨s₁, h₁, h₂⟩ := ok_of_bind hs
    exact (hf s₁ (hx.1 s₁ h₁)).1 s h₂
  · intro e he
    obtain h₁ | ⟨s₁, h₁, h₂⟩ := error_of_bind he
    · exact hx.2 e h₁
    · exact (hf s₁ (hx.1 s₁ h₁)).2 e h₂

theorem Lands.mono {P Q : State → Prop} (hx : Lands P x) (h : ∀ s, P s → Q s) : Lands Q x :=
  ⟨fun s hs => h s (hx.1 s hs), hx.2⟩

/-! ### Completed translations -/

theorem missing_of_mem (h : s.waiting.Nodup) {n : Node} (hn : n ∈ s.pfqMissingTranslation) :
    s.missing n.id = some n := by
  obtain ⟨m, hm⟩ := Option.isSome_iff_exists.mp
    (List.find?_isSome (p := fun m : Node => decide (m.id = n.id)).mpr ⟨n, hn, decide_eq_true rfl⟩)
  have hid : m.id = n.id := by simpa using List.find?_some hm
  rw [State.missing, hm, List.inj_on_of_nodup_map h (List.mem_of_find?_eq_some hm) hn hid]

/-- An element with its flag set. -/
def Node.withOngoing (n : Node) (b : Bool) : Node := { n with dp := { n.dp with ongoingTranslation := b } }

theorem setOngoing_waiting (s : State) (n : Nat) (b : Bool) : (s.setOngoing n b).waiting = s.waiting := by
  rw [State.waiting, State.setOngoing, List.map_map]
  refine List.map_congr_left fun m _ => ?_
  change (if m.id = n then m.withOngoing b else m).id = m.id
  split <;> rfl

theorem mem_setOngoing {b : Bool} {m : Node} (hm : m ∈ (s.setOngoing n b).pfqMissingTranslation) :
    ∃ m' ∈ s.pfqMissingTranslation, m = if m'.id = n then m'.withOngoing b else m' := by
  obtain ⟨m', hm', rfl⟩ := mem_map.mp hm
  exact ⟨m', hm', rfl⟩

theorem setOngoing_mem {m : Node} (b : Bool) (hm : m ∈ s.pfqMissingTranslation) :
    (if m.id = n then m.withOngoing b else m) ∈ (s.setOngoing n b).pfqMissingTranslation := mem_map.mpr ⟨m, hm, rfl⟩

theorem setOngoing_holds {t : Translation} (b : Bool) (hne : t.node ≠ n) (ht : Holds s.pfqMissingTranslation t) :
    Holds (s.setOngoing n b).pfqMissingTranslation t := by
  obtain ⟨m, hm, hid, hrest⟩ := ht
  have hstays := setOngoing_mem (n := n) b hm
  rw [if_neg (hid ▸ hne)] at hstays
  exact ⟨m, hstays, hid, hrest⟩

theorem eraseMissing_holds {t : Translation} (hne : t.node ≠ n) (ht : Holds s.pfqMissingTranslation t) :
    Holds (s.eraseMissing n).pfqMissingTranslation t := by
  obtain ⟨m, hm, hid, hrest⟩ := ht
  exact ⟨m, List.mem_filter.mpr ⟨hm, decide_eq_true (hid ▸ hne)⟩, hid, hrest⟩

/-! ### Completed translations -/

theorem Held.setOngoing (h : Held p s) (hn : n ∉ s.tlb.map (·.node)) (b : Bool) : Held p (s.setOngoing n b) := by
  refine ⟨setOngoing_waiting s n b ▸ h.nodup, fun m hm => ?_, fun m hm => ?_, h.nodes, fun t ht => ?_, h.completions⟩
  · obtain ⟨m', hm', rfl⟩ := mem_setOngoing hm
    have hlt := h.fresh m' hm'
    split
    · exact hlt
    · exact hlt
  · obtain ⟨m', hm', rfl⟩ := mem_setOngoing hm
    have hreq := h.requests m' hm'
    split
    · exact hreq
    · exact hreq
  · exact setOngoing_holds b (fun heq => hn (heq ▸ mem_map_of_mem ht)) (h.pending t ht)

/-- A translation is done with its element. -/
theorem Held.release (h : Held p s) (hn : n ∉ s.tlb.map (·.node)) {c : Completion} (hc : c.Right p) :
    Held p ((s.eraseMissing n).complete c) := by
  refine ⟨(List.filter_sublist.map _).nodup h.nodup, fun m hm => h.fresh m (List.mem_of_mem_filter hm),
    fun m hm => h.requests m (List.mem_of_mem_filter hm), h.nodes, fun t ht => ?_, fun c' hc' => ?_⟩
  · exact eraseMissing_holds (fun heq => hn (heq ▸ mem_map_of_mem ht)) (h.pending t ht)
  · obtain hc' | hc' := mem_append.mp hc'
    · exact h.completions c' hc'
    · exact List.mem_singleton.mp hc' ▸ hc

theorem Held.ready (h : Held p s) (pfq : List Node) : Held p { s with pfq := pfq, nextNode := s.nextNode + 1 } :=
  ⟨h.nodup, fun n hn => Nat.lt_succ_of_lt (h.fresh n hn), h.requests, h.nodes, h.pending, h.completions⟩

/-- The elements stay but for one that goes. -/
def Keeps (n : Nat) (s s' : State) : Prop := ∀ i ∈ s.waiting, i ≠ n → i ∈ s'.waiting

theorem eraseMissing_keeps (s : State) (n : Nat) : Keeps n s (s.eraseMissing n) := by
  intro i hi hne
  obtain ⟨m, hm, rfl⟩ := mem_map.mp hi
  exact mem_map_of_mem (List.mem_filter.mpr ⟨hm, decide_eq_true hne⟩)

section

variable (h : Held p s) (hn : tr.node ∉ s.tlb.map (·.node))
include h hn

theorem translationComplete_lands {it : Node} (hit : s.missing tr.node = some it) (hpfi : it.dp.pfInfo = tr.started)
    (hreq : it.dp.translationRequest = some tr.req) {paddr : Option Addr}
    (hpaddr : ∀ a, paddr = some a → s.paddr tr.req.id = some a) :
    Lands (fun s' => Held p s' ∧ Keeps tr.node s s') (s.translationComplete p env tr paddr) := by
  rw [State.translationComplete, hit]
  cases paddr with
  | none => exact .ok ⟨h.release hn ⟨hpfi, fun _ => rfl, fun _ ha => (by cases ha), fun hr => (by cases hr)⟩,
      eraseMissing_keeps s _⟩
  | some a =>
    have hget : it.dp.translationRequest.bind (fun req => s.paddr req.id) = some a := by
      rw [hreq]
      exact hpaddr a rfl
    simp only [hget, reduceCtorEq, if_false]
    split
    · rename_i hcached
      refine .ok ⟨h.release hn ⟨hpfi, fun ha => (by cases ha), fun _ _ => rfl, fun _ => ?_⟩, eraseMissing_keeps s _⟩
      exact ((Bool.and_eq_true _ _).mp hcached).1
    · refine ⟨fun s' hs' => ?_, fun e he => ?_⟩
      · obtain ⟨pfq, -, rfl⟩ := ok_of_map hs'
        refine ⟨(h.ready pfq).release hn ⟨hpfi, fun ha => (by cases ha), fun a' ha' => ?_, fun hr => (by cases hr)⟩,
          eraseMissing_keeps s _⟩
        obtain rfl := Option.some.inj ha'
        exact congrArg (fun pfi => some (createPkt p pfi a)) hpfi
      · rw [addToQueue_error (error_of_map he)]
        rfl

theorem finish_lands (hholds : Holds s.pfqMissingTranslation tr) {paddr : Option Addr}
    (hpaddr : ∀ a, paddr = some a → s.paddr tr.req.id = some a) :
    Lands (fun s' => Held p s' ∧ Keeps tr.node s s') (s.finish p env tr paddr) := by
  obtain ⟨it, hmem, hid, hpfi, hreq, hongoing⟩ := hholds
  have hit : s.missing tr.node = some it := hid ▸ missing_of_mem h.nodup hmem
  have hset := h.setOngoing hn false
  have hit' : (s.setOngoing tr.node false).missing tr.node = some (it.withOngoing false) := by
    have hstays := setOngoing_mem (n := tr.node) false hmem
    rw [if_pos hid] at hstays
    have hfound := missing_of_mem hset.nodup hstays
    change (s.setOngoing tr.node false).missing it.id = _ at hfound
    rwa [hid] at hfound
  have hkeeps : ∀ {s'}, Keeps tr.node (s.setOngoing tr.node false) s' → Keeps tr.node s s' := by
    intro s' hk i hi
    rw [← setOngoing_waiting s tr.node false] at hi
    exact hk i hi
  rw [State.finish, hit]
  simp only [hongoing, not_true_eq_false, if_false]
  exact (translationComplete_lands hset hn hit' hpfi hreq hpaddr).mono fun s' hs' => ⟨hs'.1, hkeeps hs'.2⟩

theorem answer_lands (hholds : Holds s.pfqMissingTranslation tr) (paddr : Option Addr) :
    Lands (fun s' => Held p s' ∧ Keeps tr.node s s') (s.answer p env tr paddr) := by
  cases paddr with
  | none => exact finish_lands h hn hholds fun _ ha => by cases ha
  | some a =>
    refine finish_lands (s := { s with paddr := Function.update s.paddr tr.req.id (some a) })
      ⟨h.nodup, h.fresh, h.requests, h.nodes, h.pending, h.completions⟩ hn hholds fun a' ha' => ?_
    rw [← ha']
    exact Function.update_self ..

end

/-! ### Started translations -/

theorem startTranslation_lands (h : Held p s) (hn : n ∈ s.waiting) (ans : Answer) :
    Lands (fun s' => Held p s' ∧ Keeps n s s') (s.startTranslation p env n ans) := by
  obtain ⟨it, hmem, rfl⟩ := mem_map.mp hn
  obtain ⟨req, hreq⟩ := Option.isSome_iff_exists.mp (h.requests it hmem)
  rw [State.startTranslation, missing_of_mem h.nodup hmem]
  simp only [hreq]
  split
  · exact .ok ⟨h, fun i hi _ => hi⟩
  · rename_i hidle
    split
    · exact .error rfl
    · have hfree : it.id ∉ s.tlb.map (·.node) := by
        intro hin
        obtain ⟨t, ht, hnode⟩ := mem_map.mp hin
        obtain ⟨m, hm, hid, -, -, hongoing⟩ := h.pending t ht
        rw [List.inj_on_of_nodup_map h.nodup hm hmem (hid.trans hnode)] at hongoing
        exact hidle hongoing
      have hset := h.setOngoing hfree true
      have hholds : Holds (s.setOngoing it.id true).pfqMissingTranslation ⟨it.id, req, it.dp.pfInfo⟩ := by
        have hstays := setOngoing_mem (n := it.id) true hmem
        rw [if_pos rfl] at hstays
        exact ⟨_, hstays, rfl, rfl, hreq, rfl⟩
      have hkeeps : ∀ {s'}, Keeps it.id (s.setOngoing it.id true) s' → Keeps it.id s s' := by
        intro s' hk i hi
        rw [← setOngoing_waiting s it.id true] at hi
        exact hk i hi
      cases ans with
      | delayed =>
        refine .ok ⟨⟨hset.nodup, hset.fresh, hset.requests, ?_, fun t ht => ?_, hset.completions⟩,
          hkeeps fun i hi _ => hi⟩
        · rw [List.map_append]
          refine List.nodup_append.mpr ⟨h.nodes, List.nodup_singleton _, fun a ha b hb => ?_⟩
          rw [List.mem_singleton.mp hb]
          rintro rfl
          exact hfree ha
        · obtain ht | ht := mem_append.mp ht
          · exact hset.pending t ht
          · exact List.mem_singleton.mp ht ▸ hholds
      | fault => exact (answer_lands hset hfree hholds none).mono fun s' hs' => ⟨hs'.1, hkeeps hs'.2⟩
      | paddr a => exact (answer_lands hset hfree hholds (some a)).mono fun s' hs' => ⟨hs'.1, hkeeps hs'.2⟩

theorem startAll_lands : ∀ {ids : List Nat} {s : State} {answers : Nat → Answer}, Held p s → ids.Nodup →
    (∀ n ∈ ids, n ∈ s.waiting) → Lands (Held p) (s.startAll p env ids answers) := by
  intro ids
  induction ids with
  | nil => exact fun h _ _ => .ok h
  | cons n ids ih =>
    intro s answers h hnodup hin
    obtain ⟨hn, hnodup⟩ := nodup_cons.mp hnodup
    obtain ⟨hfirst, hrest⟩ := List.forall_mem_cons.mp hin
    exact (startTranslation_lands h hfirst _).bind fun s' hs' =>
      ih hs'.1 hnodup fun m hm => hs'.2 m (hrest m hm) fun heq => hn (heq ▸ hm)

theorem processMissingTranslations_lands (h : Held p s) (max : Nat) (answers : Nat → Answer) :
    Lands (Held p) (s.processMissingTranslations p env max answers) := by
  have hsub : ((s.pfqMissingTranslation.take max).map (·.id)).Sublist s.waiting := (List.take_sublist _ _).map _
  exact startAll_lands h (hsub.nodup h.nodup) fun n hn => hsub.subset hn

theorem getPacket_lands (h : Held p s) (answers answers' : Nat → Answer) :
    Lands (Held p) (s.getPacket p env answers answers') := by
  have hfill :
    Lands (Held p) (if s.pfq.isEmpty then s.processMissingTranslations p env p.queueSize answers else .ok s) := by
    split
    · exact processMissingTranslations_lands h _ _
    · exact .ok h
  refine hfill.bind fun s' h' => ?_
  split
  · exact .ok h'
  · rename_i front rest _
    split
    · exact .error rfl
    · have hpopped : Held p { s' with pfq := rest, issuedPrefetches := s'.issuedPrefetches + 1 } :=
        ⟨h'.nodup, h'.fresh, h'.requests, h'.nodes, h'.pending, h'.completions⟩
      exact processMissingTranslations_lands hpopped _ _

/-! ### New prefetches -/

theorem target_error (h : target p req new = .error e) : e = .request := by
  rw [target] at h
  split at h
  · exact (Except.error.inj h).symm
  · simp only at h
    split at h
    · split at h
      · split at h
        · exact (Except.error.inj h).symm
        · cases h
      · cases h
    · split at h
      · cases h
      · split at h
        · cases h
        · split at h <;> cases h

theorem createPrefetchRequest_error {id : Nat} {vaddr : Addr} (h : createPrefetchRequest id vaddr pfi req = .error e) :
    e = .request := by
  rw [createPrefetchRequest] at h
  split at h
  · exact (Except.error.inj h).symm
  · split at h
    · exact (Except.error.inj h).symm
    · cases h

/-- A new element comes in, and no victim is one that the TLB holds. -/
theorem Held.added (h : Held p s) {queue : List Node} {dp : DeferredPacket} (hreq : dp.translationRequest.isSome = true)
    (hsafe : heldVictim p s.pfqMissingTranslation = false)
    (hadd : addToQueue p s.pfqMissingTranslation ⟨s.nextNode, dp⟩ = .ok queue) :
    Held p { s with pfqMissingTranslation := queue, nextNode := s.nextNode + 1, nextReq := s.nextReq + 1 } := by
  obtain ⟨kept, hqueue, hkept⟩ := addToQueue_spec hadd
  have hmem : ∀ {n}, n ∈ queue → n = ⟨s.nextNode, dp⟩ ∨ n ∈ kept := fun hn => mem_cons.mp (hqueue.mem_iff.mp hn)
  have hold : ∀ n ∈ kept, n ∈ s.pfqMissingTranslation := by
    intro n hn
    obtain hperm | ⟨-, v, rest, -, hperm⟩ := hkept
    · exact hperm.mem_iff.mp hn
    · exact hperm.mem_iff.mp (mem_cons_of_mem _ hn)
  have hids : (kept.map (·.id)).Nodup := by
    obtain hperm | ⟨-, v, rest, -, hperm⟩ := hkept
    · exact ((hperm.map Node.id).nodup_iff).mpr h.nodup
    · exact (nodup_cons.mp (((hperm.map Node.id).nodup_iff).mpr h.nodup)).2
  have hstays : ∀ n ∈ s.pfqMissingTranslation, n.dp.ongoingTranslation = true → n ∈ kept := by
    intro n hn hongoing
    obtain hperm | ⟨hfull, v, rest, hevict, hperm⟩ := hkept
    · exact hperm.mem_iff.mpr hn
    · obtain rfl | hn := mem_cons.mp (hperm.mem_iff.mpr hn)
      · simp [heldVictim, hfull, hevict, hongoing] at hsafe
      · exact hn
  refine ⟨?_, fun n hn => ?_, fun n hn => ?_, h.nodes, fun t ht => ?_, h.completions⟩
  · refine ((hqueue.map (·.id)).nodup_iff).mpr (nodup_cons.mpr ⟨fun hin => ?_, hids⟩)
    obtain ⟨n, hn, hid⟩ := mem_map.mp hin
    exact absurd (h.fresh n (hold n hn)) (by rw [hid]; exact Nat.lt_irrefl _)
  · obtain rfl | hn := hmem hn
    · exact Nat.lt_succ_self _
    · exact Nat.lt_succ_of_lt (h.fresh n (hold n hn))
  · obtain rfl | hn := hmem hn
    · exact hreq
    · exact h.requests n (hold n hn)
  · obtain ⟨n, hn, hid, hpfi, hreq', hongoing⟩ := h.pending t ht
    exact ⟨n, hqueue.mem_iff.mpr (mem_cons_of_mem _ (hstays n hn hongoing)), hid, hpfi, hreq', hongoing⟩

theorem insertNew_lands (h : Held p s) (priority : Int)
    (hsafe : (needsTranslation p req new && heldVictim p s.pfqMissingTranslation) = false) :
    Lands (Held p) (s.insertNew p env req new priority) := by
  rw [State.insertNew]
  rw [needsTranslation] at hsafe
  cases htarget : target p req new with
  | error e => exact .error (target_error htarget ▸ rfl)
  | ok t =>
    rw [htarget] at hsafe
    cases t with
    | none => exact .ok h
    | ready paddr =>
      change Lands (Held p) (if p.cacheSnoop && env.cached paddr new.secure then _ else _)
      split
      · exact .ok h
      · refine ⟨fun s' hs' => ?_, fun e he => ?_⟩
        · obtain ⟨pfq, -, rfl⟩ := ok_of_map hs'
          exact h.ready pfq
        · rw [addToQueue_error (error_of_map he)]
          rfl
    | missing vaddr =>
      have hkeep : heldVictim p s.pfqMissingTranslation = false := hsafe
      refine ⟨fun s' hs' => ?_, fun e he => ?_⟩
      · obtain ⟨_, ht, hs'⟩ := ok_of_bind hs'
        obtain rfl := Except.ok.inj ht
        obtain ⟨translation_req, -, hs'⟩ := ok_of_bind hs'
        obtain ⟨queue, hadd, rfl⟩ := ok_of_map hs'
        exact h.added rfl hkeep hadd
      · obtain he | ⟨_, ht, he⟩ := error_of_bind he
        · cases he
        obtain rfl := Except.ok.inj ht
        obtain he | ⟨translation_req, -, he⟩ := error_of_bind he
        · rw [createPrefetchRequest_error he]
          rfl
        · rw [addToQueue_error (error_of_map he)]
          rfl

theorem insert_lands (h : Held p s) {priority : Int} (hsafe : insertDisturbs p s req new priority = false) :
    Lands (Held p) (s.insert p env req new priority) := by
  rw [insertDisturbs] at hsafe
  rw [State.insert]
  by_cases hfilter : p.queueFilter = true
  · rw [if_pos hfilter]
    rw [hfilter, Bool.true_and, Bool.true_and] at hsafe
    simp only
    split
    · exact .ok ⟨h.nodup, h.fresh, h.requests, h.nodes, h.pending, h.completions⟩
    · rename_i hready
      rw [if_neg hready] at hsafe
      split
      · rename_i hwaiting
        rw [if_pos hwaiting] at hsafe
        have hids := alreadyInQueue_ids s.pfqMissingTranslation new priority
        refine .ok ⟨(congrArg List.Nodup hids).mpr h.nodup, fun n hn => ?_, alreadyInQueue_contents h.requests, h.nodes,
          fun t ht => alreadyInQueue_holds hsafe (h.pending t ht), h.completions⟩
        have hin : n.id ∈ s.pfqMissingTranslation.map (·.id) := hids ▸ mem_map_of_mem hn
        obtain ⟨m, hm, hid⟩ := mem_map.mp hin
        exact hid ▸ h.fresh m hm
      · rename_i hwaiting
        rw [if_neg hwaiting] at hsafe
        exact insertNew_lands h priority hsafe
  · rw [if_neg hfilter]
    rw [Bool.eq_false_iff.mpr hfilter, Bool.false_and, Bool.false_and, if_neg Bool.false_ne_true,
      if_neg Bool.false_ne_true] at hsafe
    exact insertNew_lands h priority hsafe

theorem insertAll_lands {max_pfs : UInt64} {addresses : List (Addr × Int)} :
    ∀ {s : State} {num_pfs : UInt64}, Held p s → loopDisturbs p env req pfi max_pfs s num_pfs addresses = false →
      Lands (Held p) (State.insertAll p env req pfi max_pfs s num_pfs addresses) := by
  induction addresses with
  | nil => exact fun h _ => .ok h
  | cons a addresses ih =>
    obtain ⟨addr, priority⟩ := a
    intro s num_pfs h hsafe
    rw [loopDisturbs] at hsafe
    rw [State.insertAll]
    split
    · rename_i hcross
      rw [if_pos hcross, Bool.or_eq_false_iff] at hsafe
      have hnext : ∀ {s₁}, s.insert p env req { pfi with address := p.blockAddress addr } priority = .ok s₁ →
          ¬ num_pfs + 1 = max_pfs → loopDisturbs p env req pfi max_pfs s₁ (num_pfs + 1) addresses = false := by
        intro s₁ h₁ hmore
        have hrest := hsafe.2
        rw [h₁] at hrest
        simpa [Except.toOption, hmore] using hrest
      have hfirst : Lands (fun s₁ => Held p s₁ ∧ (¬ num_pfs + 1 = max_pfs →
          loopDisturbs p env req pfi max_pfs s₁ (num_pfs + 1) addresses = false))
          (s.insert p env req { pfi with address := p.blockAddress addr } priority) :=
        ⟨fun s₁ h₁ => ⟨(insert_lands h hsafe.1).1 s₁ h₁, hnext h₁⟩, (insert_lands h hsafe.1).2⟩
      refine hfirst.bind fun s₁ h₁ => ?_
      split
      · exact .ok h₁.1
      · rename_i hmore
        exact ih h₁.1 (h₁.2 hmore)
    · rename_i hcross
      rw [if_neg hcross] at hsafe
      exact ih h hsafe

theorem notify_lands (h : Held p s) {usefulPrefetches : UInt64} {addresses : List (Addr × Int)}
    (hsafe : undisturbed p s (env, .notify req pfi usefulPrefetches addresses) = true) :
    Lands (Held p) (s.notify p env req pfi usefulPrefetches addresses) := by
  have hsquash : Held p (s.squash p pfi) := by
    rw [State.squash]
    split
    · exact ⟨h.nodup, h.fresh, h.requests, h.nodes, h.pending, h.completions⟩
    · exact h
  exact insertAll_lands hsquash ((Bool.not_eq_true' _).mp hsafe)

/-! ## Every run -/

theorem exec_lands (h : Held p s) {e : Event} (hsafe : undisturbed p s (env, e) = true) :
    Lands (Held p) (s.exec p env e) := by
  cases e with
  | insert req new priority => exact insert_lands h ((Bool.not_eq_true' _).mp hsafe)
  | notify req pfi usefulPrefetches addresses => exact notify_lands h hsafe
  | getPacket answers answers' => exact getPacket_lands h answers answers'
  | complete i paddr =>
    rw [State.exec]
    split
    · exact .ok h
    · rename_i tr htr
      have hmem : tr ∈ s.tlb := List.mem_of_getElem? htr
      have hperm : (tr :: s.tlb.eraseIdx i).Perm s.tlb := by
        obtain ⟨hi, rfl⟩ := List.getElem?_eq_some_iff.mp htr
        exact List.getElem_cons_eraseIdx_perm hi
      have hnodes : (tr.node :: (s.tlb.eraseIdx i).map (·.node)).Nodup :=
        ((hperm.map Translation.node).nodup_iff).mpr h.nodes
      obtain ⟨hfree, hnodes⟩ := nodup_cons.mp hnodes
      have hheld : Held p { s with tlb := s.tlb.eraseIdx i } :=
        ⟨h.nodup, h.fresh, h.requests, hnodes, fun t ht => h.pending t (List.mem_of_mem_eraseIdx ht), h.completions⟩
      exact (answer_lands hheld hfree (h.pending tr hmem) paddr).mono fun s' hs' => hs'.1

theorem held_of_reachable (h : (prefetchSystem p).ReachableWhen (fun s e => undisturbed p s e = true) s) : Held p s :=
  System.invariantWhen (fun _ h => h ▸ held_start)
    (fun _ _ s' _ hI hC hs => (exec_lands hI hC).1 s' (ok_of_toOption hs)) h

/-- **A translation reaches the prefetch that it was started for**, in the runs in which no `insert` disturbs a
translation: each completed translation was applied to its prefetch, and neither an assertion on its way fails nor is
`finish` called for an element that is gone. -/
theorem translation_reaches_prefetch (h : (prefetchSystem p).ReachableWhen (fun s e => undisturbed p s e = true) s) :
    (∀ c ∈ s.completions, c.Right p) ∧
      ∀ env e, undisturbed p s (env, e) = true → ∀ err, s.exec p env e = .error err → err.onTheWay = false :=
  ⟨(held_of_reachable h).completions, fun _ _ hsafe => (exec_lands (held_of_reachable h) hsafe).2⟩

/-- A prefetcher with queues of two elements that is trained with virtual addresses. -/
def twoElements : Params where
  queueSize := 2
  queueSquash := true
  queueFilter := true
  cacheSnoop := false
  tagPrefetch := true
  throttleControlPct := 0
  latency := 1
  blkSize := 64
  pageBytes := 4096
  useVirtualAddresses := true
  tlb := true

/-- The prefetch of a secure page, on an access to the first page. -/
def pageCrossing (address : Addr) : Event := .insert ⟨some 0, some 0x10000, 0, 0, some 0⟩ ⟨address, 0x400, true, true⟩ 0

/-- The environment in which the cache has nothing. -/
def emptyCache : Env := ⟨0, fun _ _ => false⟩

/-- A translation that is delayed over another `insert`. -/
theorem translation_reaches_delayed : ∃ s,
    (prefetchSystem twoElements).ReachableWhen (fun s e => undisturbed twoElements s e = true) s ∧
    s.completions = [⟨⟨0x1000, 0x400, true, true⟩, some 0x5000, ⟨0x1000, 0x400, true, true⟩, false,
      some ⟨0x5000, 64, true, some 0x400⟩⟩] ∧
      ((∀ c ∈ s.completions, c.Right twoElements) ∧
        ∀ env e, undisturbed twoElements s (env, e) = true → ∀ err, s.exec twoElements env e = .error err →
        err.onTheWay = false) := by
  obtain ⟨s, hs, hp⟩ := System.reachableWhen_of_replay (S := prefetchSystem twoElements)
    (C := undisturbed twoElements) rfl
    [(emptyCache, pageCrossing 0x1000), (emptyCache, .getPacket (fun _ => .delayed) fun _ => .delayed),
      (emptyCache, pageCrossing 0x2000), (emptyCache, .complete 0 (some 0x5000))]
    (fun s => s.completions = [⟨⟨0x1000, 0x400, true, true⟩, some 0x5000, ⟨0x1000, 0x400, true, true⟩, false,
      some ⟨0x5000, 64, true, some 0x400⟩⟩]) (by decide)
  exact ⟨s, hs, hp, translation_reaches_prefetch hs⟩

/-- A step fails with an error. -/
def failsWith (x : Except Err State) (e : Err) : Bool :=
  match x with
  | .error e' => e' = e
  | .ok _ => false

theorem eq_error_of_failsWith (h : failsWith x e = true) : x = .error e := by
  cases x with
  | error e' => exact congrArg _ (of_decide_eq_true h)
  | ok s => cases h

/-- The oldest of three prefetches has its translation on its way when the third one makes it the victim. -/
theorem victim_translated : ¬ ∀ (p : Params) (s : State), (prefetchSystem p).Reachable s →
    (∀ c ∈ s.completions, c.Right p) ∧ ∀ env e err, s.exec p env e = .error err → err.onTheWay = false := by
  intro h
  obtain ⟨s, hs, hp⟩ := System.reachable_of_replay (S := prefetchSystem twoElements) rfl
    [(emptyCache, pageCrossing 0x1000), (emptyCache, .getPacket (fun _ => .delayed) fun _ => .delayed),
      (emptyCache, pageCrossing 0x2000), (emptyCache, pageCrossing 0x3000)]
    (fun s => failsWith (s.exec twoElements emptyCache (.complete 0 (some 0x5000))) .erased = true) (by decide)
  have hgone := (h _ s hs).2 _ _ _ (eq_error_of_failsWith hp)
  cases hgone

end Salam.Prefetch
