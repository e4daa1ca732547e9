import Salam.Events.Queue
import Salam.Lib.Bins

/-!
# What the links stand for

`Chain l o bs` says that the links from `o` on stand for the bins `bs`. It reads `nextBin` on the tops alone. `insert`,
`remove` and `pop` are the operations of `Lib/Bins.lean` on the bins.

* `insert_chain`, `remove_chain`, `pop_chain`.
-/

namespace Salam.Events

open Function (update_of_ne update_self update)
open List (cons_append length_cons mem_append mem_cons mem_cons_of_mem mem_cons_self nodup_append)

open Bins

/-- The order of the bins. -/
def key (ev : Ptr → Event) (e : Ptr) : ℕ ×ₗ ℤ := toLex ((ev e).when, (ev e).priority)

section Key

variable {ev : Ptr → Event} {a b : Ptr}

theorem lt_iff : (ev a).lt (ev b) = true ↔ key ev a < key ev b := by
  simp [Event.lt, key, Prod.Lex.toLex_lt_toLex]

theorem le_iff : (ev a).le (ev b) = true ↔ key ev a ≤ key ev b := by
  simp [Event.le, key, Prod.Lex.toLex_le_toLex]

theorem eq_iff : (ev a).eq (ev b) = true ↔ key ev a = key ev b := by
  simp [Event.eq, key]

end Key

/-- From `o` on `nextInBin` leads through `r`. -/
inductive Stack (l : Links) : Option Ptr → List Ptr → Prop
  | nil : Stack l none []
  | cons {p : Ptr} {r : List Ptr} (h : Stack l (l.nextInBin p) r) : Stack l (some p) (p :: r)

/-- From `o` on `nextBin` leads through the tops of `bs`. -/
inductive Chain (l : Links) : Option Ptr → List (Ptr × List Ptr) → Prop
  | nil : Chain l none []
  | cons {p : Ptr} {r : List Ptr} {bs : List (Ptr × List Ptr)} (hs : Stack l (l.nextInBin p) r)
      (hb : Chain l (l.nextBin p) bs) : Chain l (some p) ((p, r) :: bs)

section Frame

variable {l l' : Links} {o : Option Ptr} {r : List Ptr} {bs : List (Ptr × List Ptr)}

theorem Stack.congr (h : Stack l o r) (hl : ∀ x ∈ r, l'.nextInBin x = l.nextInBin x) : Stack l' o r := by
  induction h with
  | nil => exact .nil
  | @cons p r h ih =>
    refine .cons ?_
    rw [hl p mem_cons_self]
    exact ih fun x hx => hl x (mem_cons_of_mem _ hx)

theorem Chain.congr (h : Chain l o bs) (hin : ∀ x ∈ all bs, l'.nextInBin x = l.nextInBin x)
    (hbin : ∀ b ∈ bs, l'.nextBin b.1 = l.nextBin b.1) : Chain l' o bs := by
  induction h with
  | nil => exact .nil
  | @cons p r bs hs hb ih =>
    refine .cons ?_ ?_
    · rw [hin p (by simp)]
      exact hs.congr fun x hx => hin x (by simp [hx])
    · rw [hbin (p, r) mem_cons_self]
      exact ih (fun x hx => hin x (by simp [hx])) fun b hb => hbin b (mem_cons_of_mem _ hb)

theorem top_mem_all {b : Ptr × List Ptr} (hb : b ∈ bs) : b.1 ∈ all bs := mem_all.mpr ⟨b, hb, .inl rfl⟩

theorem Chain.frame (h : Chain l o bs) (hin : ∀ x ∈ all bs, l'.nextInBin x = l.nextInBin x)
    (hbin : ∀ x ∈ all bs, l'.nextBin x = l.nextBin x) : Chain l' o bs :=
  h.congr hin fun b hb => hbin b.1 (top_mem_all hb)

theorem Stack.unique {r' : List Ptr} (h : Stack l o r) (h' : Stack l o r') : r = r' := by
  induction h generalizing r' with
  | nil =>
    cases h'
    rfl
  | cons h ih =>
    cases h' with
    | cons h' => rw [ih h']

theorem Chain.unique {bs' : List (Ptr × List Ptr)} (h : Chain l o bs) (h' : Chain l o bs') : bs = bs' := by
  induction h generalizing bs' with
  | nil =>
    cases h'
    rfl
  | cons hs hb ih =>
    cases h' with
    | cons hs' hb' => rw [hs.unique hs', ih hb']

/-- `prev->nextBin = o`. -/
def Links.setNextBin (l : Links) (prev : Ptr) (o : Option Ptr) : Links :=
  { l with nextBin := Function.update l.nextBin prev o }

theorem Chain.setNextBin (h : Chain l o bs) {p : Ptr} {o' : Option Ptr} (hp : p ∉ all bs) :
    Chain (l.setNextBin p o') o bs := by
  refine h.frame (fun x hx => rfl) fun x hx => ?_
  have hxp : x ≠ p := fun h => hp (h ▸ hx)
  exact update_of_ne hxp _ _

end Frame

/-! ## `insert` -/

section Insert

variable {ev : Ptr → Event} {l : Links} {e prev : Ptr} {curr : Option Ptr} {bs : List (Ptr × List Ptr)}

theorem insertBefore_of_ne {x : Ptr} (hx : x ≠ e) : (insertBefore ev l e curr).nextBin x = l.nextBin x ∧
    (insertBefore ev l e curr).nextInBin x = l.nextInBin x := by
  cases curr with
  | none => simp [insertBefore, hx]
  | some c =>
    by_cases hlt : (ev e).lt (ev c) = true <;> simp [insertBefore, hlt, hx]

/-- Before the first bin whose key is not smaller, `insertBefore` makes the right bin. -/
theorem insertBefore_chain (h : Chain l curr bs) (he : e ∉ all bs) (hle : ∀ c ∈ curr, key ev e ≤ key ev c) :
    Chain (insertBefore ev l e curr) (some e) (insert (key ev) e bs) := by
  have hne : ∀ x ∈ all bs, x ≠ e := fun x hx hxe => he (hxe ▸ hx)
  cases h with
  | nil =>
    have hb : (insertBefore ev l e none).nextBin e = none := by simp [insertBefore]
    have hs : (insertBefore ev l e none).nextInBin e = none := by simp [insertBefore]
    exact .cons (by rw [hs]; exact .nil) (by rw [hb]; exact .nil)
  | @cons t r bs hs hb =>
    have hchain : Chain (insertBefore ev l e (some t)) (some t) ((t, r) :: bs) :=
      (Chain.cons hs hb).frame (fun x hx => (insertBefore_of_ne (hne x hx)).2)
        fun x hx => (insertBefore_of_ne (hne x hx)).1
    by_cases hlt : key ev e < key ev t
    · have hb : (insertBefore ev l e (some t)).nextBin e = some t := by simp [insertBefore, lt_iff.mpr hlt]
      have hs : (insertBefore ev l e (some t)).nextInBin e = none := by simp [insertBefore, lt_iff.mpr hlt]
      rw [Bins.insert, if_pos hlt]
      exact .cons (by rw [hs]; exact .nil) (by rw [hb]; exact hchain)
    · have heq : key ev e = key ev t := le_antisymm (hle t rfl) (not_lt.mp hlt)
      have hte : t ≠ e := hne t (by simp)
      have hb : (insertBefore ev l e (some t)).nextBin e = (insertBefore ev l e (some t)).nextBin t := by
        simp [insertBefore, lt_iff, hlt, hte]
      have hs : (insertBefore ev l e (some t)).nextInBin e = some t := by simp [insertBefore, lt_iff, hlt]
      rw [Bins.insert, if_neg hlt, if_pos heq]
      cases hchain with
      | cons hst hbt => exact .cons (by rw [hs]; exact .cons hst) (by rw [hb]; exact hbt)

/-- The links after the end of `insert`, when the loop ends with `prev` and `curr`. -/
def linkIn (ev : Ptr → Event) (l : Links) (e prev : Ptr) (curr : Option Ptr) : Links :=
  (insertBefore ev l e curr).setNextBin prev (some e)

theorem linkIn_nextInBin {p x : Ptr} {c : Option Ptr} (hx : x ≠ e) :
    (linkIn ev l e p c).nextInBin x = l.nextInBin x := (insertBefore_of_ne hx).2

theorem linkIn_nextBin {p x : Ptr} {c : Option Ptr} (hx : x ≠ e) (hp : x ≠ p) :
    (linkIn ev l e p c).nextBin x = l.nextBin x := by
  have h : (linkIn ev l e p c).nextBin x = (insertBefore ev l e c).nextBin x := update_of_ne hp _ _
  rw [h, (insertBefore_of_ne hx).1]

theorem linkIn_chain (h : Chain l curr bs) (he : e ∉ all bs) (hp : prev ∉ all bs) (hpe : prev ≠ e)
    (hle : ∀ c ∈ curr, key ev e ≤ key ev c) :
    Chain (linkIn ev l e prev curr) ((linkIn ev l e prev curr).nextBin prev) (insert (key ev) e bs) := by
  have hhead : (linkIn ev l e prev curr).nextBin prev = some e := by simp [linkIn, Links.setNextBin]
  rw [hhead]
  refine (insertBefore_chain h he hle).setNextBin fun hm => ?_
  rcases mem_all_insert.mp hm with rfl | hm
  · exact hpe rfl
  · exact hp hm

variable (ev) in
/-- From `prev` on the loop finds the place of the event. -/
theorem findBin_insert {n : Nat} (h : Chain l curr bs) (hn : bs.length ≤ n) (hnd : (all bs).Nodup) (he : e ∉ all bs)
    (hprev : l.nextBin prev = curr) (hp : prev ∉ all bs) (hpe : prev ≠ e) :
    ∃ p c, findBin ev l e n prev curr = .ok (p, c) ∧ (p = prev ∨ p ∈ all bs) ∧
      Chain (linkIn ev l e p c) ((linkIn ev l e p c).nextBin prev) (insert (key ev) e bs) := by
  induction h generalizing prev n with
  | nil => exact ⟨prev, none, by unfold findBin; rfl, .inl rfl, linkIn_chain .nil he hp hpe (by simp)⟩
  | @cons t r bs hs hb ih =>
    obtain ⟨n, rfl⟩ : ∃ m, n = m + 1 := ⟨n - 1, by simp at hn; omega⟩
    by_cases hlt : key ev t < key ev e
    · -- the loop goes on, and nothing is written before `t`
      rw [all_cons, nodup_append] at hnd
      simp only [all_cons, cons_append, mem_cons, mem_append, not_or] at he hp
      have ht : t ∉ all bs := fun hm => hnd.2.2 t mem_cons_self t hm rfl
      obtain ⟨p, c, hfind, hpc, hchain⟩ := ih (n := n) (by simpa using hn) hnd.2.1 he.2.2 rfl ht (Ne.symm he.1)
      have hprevp : prev ≠ p := by
        rintro rfl
        exact hpc.elim hp.1 hp.2.2
      refine ⟨p, c, by simp [findBin, lt_iff.mpr hlt, hfind], .inr ?_, ?_⟩
      · rw [all_cons, cons_append, mem_cons, mem_append]
        exact hpc.imp id .inr
      · rw [linkIn_nextBin hpe hprevp, hprev, Bins.insert, if_neg hlt.not_gt, if_neg hlt.ne']
        refine .cons ?_ hchain
        rw [linkIn_nextInBin (Ne.symm he.1)]
        exact hs.congr fun x hx => linkIn_nextInBin fun hxe => he.2.1 (hxe ▸ hx)
    · refine ⟨prev, some t, by simp [findBin, lt_iff, hlt], .inl rfl, linkIn_chain (.cons hs hb) he hp hpe ?_⟩
      simpa using not_lt.mp hlt

variable (ev) in
/-- **`insert` puts the event in its place.** -/
theorem Queue.insert_chain {q : Queue} {n : Nat} (h : Chain q.links q.head bs) (hn : bs.length ≤ n)
    (hnd : (all bs).Nodup) (he : e ∉ all bs) :
    ∃ q', q.insert ev n e = .ok q' ∧ Chain q'.links q'.head (Bins.insert (key ev) e bs) := by
  unfold Queue.insert
  cases hh : q.head with
  | none =>
    rw [hh] at h
    exact ⟨_, rfl, insertBefore_chain h he (by simp)⟩
  | some t =>
    rw [hh] at h
    by_cases hle : key ev e ≤ key ev t
    · refine ⟨_, by simp [le_iff.mpr hle]; rfl, insertBefore_chain h he (by simpa using hle)⟩
    · cases h with
      | @cons _ r bs hs hb =>
        rw [all_cons, nodup_append] at hnd
        simp only [all_cons, cons_append, mem_cons, mem_append, not_or] at he
        have ht : t ∉ all bs := fun hm => hnd.2.2 t mem_cons_self t hm rfl
        simp only [length_cons] at hn
        obtain ⟨p, c, hfind, hpc, hchain⟩ :=
          findBin_insert ev (n := n) hb (by omega) hnd.2.1 he.2.2 rfl ht (Ne.symm he.1)
        have hlt : key ev t < key ev e := not_le.mp hle
        refine ⟨⟨some t, linkIn ev q.links e p c⟩, by simp [le_iff, hle, hfind, Except.map]; rfl, ?_⟩
        rw [Bins.insert, if_neg hlt.not_gt, if_neg hlt.ne']
        refine .cons ?_ hchain
        rw [linkIn_nextInBin (Ne.symm he.1)]
        exact hs.congr fun x hx => linkIn_nextInBin fun hxe => he.2.1 (hxe ▸ hx)

end Insert

/-! ## `remove` -/

section Remove

variable {ev : Ptr → Event} {l : Links} {e t prev : Ptr} {curr : Option Ptr} {r : List Ptr}
  {bs : List (Ptr × List Ptr)} {n : Nat}

/-- From `t` on the loop takes the event out of the stack. -/
theorem removeLoop_stack {next : Option Ptr} (h : Stack l next r) (hn : r.length ≤ n) (he : e ∈ r)
    (hnd : (t :: r).Nodup) (hnext : l.nextInBin t = next) :
    ∃ l', removeLoop l e n t next = .ok l' ∧ l'.nextBin = l.nextBin ∧ Stack l' (l'.nextInBin t) (r.erase e) ∧
      ∀ x ∉ t :: r, l'.nextInBin x = l.nextInBin x := by
  induction h generalizing t n with
  | nil => cases he
  | @cons a r h ih =>
    obtain ⟨n, rfl⟩ : ∃ m, n = m + 1 := ⟨n - 1, by simp at hn; omega⟩
    rw [List.nodup_cons] at hnd
    by_cases hea : e = a
    · subst hea
      refine ⟨{ l with nextInBin := update l.nextInBin t (l.nextInBin e) }, by simp [removeLoop], rfl, ?_,
        fun x hx => ?_⟩
      · show Stack _ (update l.nextInBin t (l.nextInBin e) t) _
        rw [List.erase_cons_head, update_self]
        refine h.congr fun x hx => update_of_ne ?_ _ _
        rintro rfl
        exact hnd.1 (mem_cons_of_mem _ hx)
      · have hxt : x ≠ t := fun h => hx (h ▸ mem_cons_self)
        exact update_of_ne hxt _ _
    · have her : e ∈ r := (mem_cons.mp he).resolve_left hea
      obtain ⟨l', hloop, hbin, hstack, hout⟩ := ih (n := n) (by simpa using hn) her hnd.2 rfl
      refine ⟨l', by simp [removeLoop, hea, hloop], hbin, ?_, fun x hx => hout x fun hm => hx ?_⟩
      · rw [hout t hnd.1, hnext, List.erase_cons_tail (by simpa using Ne.symm hea)]
        exact .cons hstack
      · exact mem_cons_of_mem _ hm

/-- `removeItem` takes the event out of its bin. -/
theorem removeItem_chain (hs : Stack l (l.nextInBin t) r) (hb : Chain l (l.nextBin t) bs) (hn : r.length ≤ n)
    (he : e ∈ t :: r) (hnd : (all ((t, r) :: bs)).Nodup) :
    ∃ l' o, removeItem l n e t = .ok (l', o) ∧
      Chain l' o (if e = t then pop r bs else (t, r.erase e) :: bs) ∧
      ∀ x ∉ t :: r, l'.nextBin x = l.nextBin x ∧ l'.nextInBin x = l.nextInBin x := by
  rw [all_cons, nodup_append] at hnd
  have hd : ∀ x ∈ all bs, x ∉ t :: r := fun x hx hm => hnd.2.2 x hm x hx rfl
  by_cases het : e = t
  · subst het
    simp only [if_true]
    cases r with
    | nil =>
      have hnext : l.nextInBin e = none := by
        generalize l.nextInBin e = o at hs
        cases hs
        rfl
      exact ⟨l, l.nextBin e, by simp [removeItem, hnext], hb, fun x hx => ⟨rfl, rfl⟩⟩
    | cons a r =>
      have hnext : l.nextInBin e = some a := by
        generalize l.nextInBin e = o at hs
        cases hs
        rfl
      rw [hnext] at hs
      cases hs with
      | cons hs =>
        have ha : a ∉ all bs := fun hm => hd a hm (by simp)
        refine ⟨l.setNextBin a (l.nextBin e), some a, by simp [removeItem, hnext]; rfl,
          .cons (hs.congr fun x hx => rfl) ?_, fun x hx => ⟨?_, rfl⟩⟩
        · have htop : (l.setNextBin a (l.nextBin e)).nextBin a = l.nextBin e := update_self _ _ _
          rw [htop]
          exact hb.setNextBin ha
        · exact update_of_ne (fun hxa => hx (by simp [hxa])) _ _
  · simp only [het, if_false]
    have her : e ∈ r := (mem_cons.mp he).resolve_left het
    obtain ⟨l', hloop, hbin, hstack, hout⟩ := removeLoop_stack hs hn her hnd.1 rfl
    refine ⟨l', some t, by simp [removeItem, het, hloop, Except.map], .cons hstack ?_,
      fun x hx => ⟨by rw [hbin], hout x hx⟩⟩
    rw [hbin]
    exact hb.frame (fun x hx => hout x (hd x hx)) fun x hx => by rw [hbin]

theorem length_le_length_all (bs : List (Ptr × List Ptr)) : bs.length ≤ (all bs).length := by
  induction bs with
  | nil => exact Nat.le_refl 0
  | cons b bs ih =>
    rw [all_cons, List.length_append, length_cons, length_cons]
    omega

variable (ev) in
/-- From `prev` on the loop finds the bin of the event, and the event is taken out. -/
theorem findBin_remove {m : Nat} (h : Chain l curr bs) (ho : Ordered (key ev) bs) (hm : bs.length ≤ m)
    (hn : (all bs).length ≤ n) (hnd : (all bs).Nodup) (he : e ∈ all bs) (hprev : l.nextBin prev = curr)
    (hp : prev ∉ all bs) :
    ∃ p c l' o, findBin ev l e m prev curr = .ok (p, some c) ∧ key ev c = key ev e ∧
      removeItem l n e c = .ok (l', o) ∧ (p = prev ∨ p ∈ all bs) ∧
      Chain (l'.setNextBin p o) ((l'.setNextBin p o).nextBin prev) (remove (key ev) e bs) ∧
      ∀ x ∉ all bs, l'.nextBin x = l.nextBin x ∧ l'.nextInBin x = l.nextInBin x := by
  induction h generalizing prev m with
  | nil => cases he
  | @cons t r bs hs hb ih =>
    obtain ⟨-, hr, hbs⟩ := ordered_cons.mp ho
    have hd := hnd
    rw [all_cons, nodup_append] at hd
    by_cases heq : key ev t = key ev e
    · -- the bin of the event: it is in no other
      have hmem : e ∈ t :: r := by
        rw [all_cons, mem_append] at he
        exact he.resolve_right fun hm => (heq ▸ ho.lt_of_mem hm).false
      have hlen : r.length ≤ n := by
        rw [all_cons, List.length_append, length_cons] at hn
        omega
      obtain ⟨l', o, hitem, hchain, hout⟩ := removeItem_chain hs hb hlen hmem hnd
      have hfind : findBin ev l e m prev (some t) = .ok (prev, some t) := by
        cases m <;> simp [findBin, lt_iff, heq]
      have hsub : ∀ x ∈ all (remove (key ev) e ((t, r) :: bs)), x ∈ all ((t, r) :: bs) := fun x hx =>
        List.mem_of_mem_erase (all_remove (a := e) ho hnd ▸ hx)
      refine ⟨prev, t, l', o, hfind, heq, hitem, .inl rfl, ?_, fun x hx => hout x fun hm => hx ?_⟩
      · have htop : (l'.setNextBin prev o).nextBin prev = o := update_self _ _ _
        rw [htop]
        refine Chain.setNextBin ?_ fun hm => hp (hsub _ hm)
        rw [Bins.remove, if_pos heq]
        exact hchain
      · rw [all_cons]
        exact List.mem_append_left _ hm
    · -- the loop goes on, and nothing is written before `t`
      have hmem : e ∈ all bs := by
        rw [all_cons, cons_append, mem_cons, mem_append] at he
        rcases he with rfl | he | he
        · exact absurd rfl heq
        · exact absurd (hr e he).symm heq
        · exact he
      have ht : t ∉ all bs := fun hm => hd.2.2 t mem_cons_self t hm rfl
      have hlen : (all bs).length ≤ n := by
        rw [all_cons, List.length_append] at hn
        omega
      obtain ⟨m, rfl⟩ : ∃ k, m = k + 1 := ⟨m - 1, by simp at hm; omega⟩
      obtain ⟨p, c, l', o, hfind, hc, hitem, hpc, hchain, hout⟩ :=
        ih hbs (by simpa using hm) hlen hd.2.1 hmem rfl ht
      have hlt : key ev t < key ev e := ho.lt_of_mem hmem
      simp only [all_cons, cons_append, mem_cons, mem_append, not_or] at hp
      have hprevp : prev ≠ p := by
        rintro rfl
        exact hpc.elim hp.1 hp.2.2
      refine ⟨p, c, l', o, by simp [findBin, lt_iff.mpr hlt, hfind], hc, hitem, .inr ?_, ?_,
        fun x hx => hout x fun hm => hx ?_⟩
      · rw [all_cons, cons_append, mem_cons, mem_append]
        exact hpc.imp id .inr
      · have hhead : (l'.setNextBin p o).nextBin prev = some t := by
          rw [← hprev, ← (hout prev hp.2.2).1]
          exact update_of_ne hprevp _ _
        have hin : ∀ x ∉ all bs, (l'.setNextBin p o).nextInBin x = l.nextInBin x := fun x hx => (hout x hx).2
        rw [hhead, Bins.remove, if_neg heq]
        refine .cons ?_ hchain
        rw [hin t ht]
        exact hs.congr fun x hx => hin x fun hm => hd.2.2 x (mem_cons_of_mem _ hx) x hm rfl
      · rw [all_cons]
        exact List.mem_append_right _ hm

/-- **`remove` takes the event out, and does not panic.** -/
theorem Queue.remove_chain {q : Queue} (h : Chain q.links q.head bs) (ho : Ordered (key ev) bs)
    (hn : (all bs).length ≤ n) (hnd : (all bs).Nodup) (he : e ∈ all bs) :
    ∃ q', q.remove ev n e = .ok q' ∧ Chain q'.links q'.head (Bins.remove (key ev) e bs) := by
  unfold Queue.remove
  cases hh : q.head with
  | none =>
    rw [hh] at h
    cases h
    cases he
  | some t =>
    rw [hh] at h
    cases h with
    | @cons _ r bs hs hb =>
      obtain ⟨-, hr, hbs⟩ := ordered_cons.mp ho
      have hd := hnd
      rw [all_cons, nodup_append] at hd
      rw [all_cons, List.length_append, length_cons] at hn
      rw [all_cons, mem_append] at he
      by_cases heq : key ev t = key ev e
      · have hmem : e ∈ t :: r := he.resolve_right fun hm => (heq ▸ ho.lt_of_mem hm).false
        obtain ⟨l', o, hitem, hchain, -⟩ := removeItem_chain (n := n) hs hb (by omega) hmem hnd
        refine ⟨⟨o, l'⟩, by simp [eq_iff.mpr heq, hitem, Except.map], ?_⟩
        rw [Bins.remove, if_pos heq]
        exact hchain
      · have hmem : e ∈ all bs := by
          refine he.resolve_left fun hm => ?_
          rcases mem_cons.mp hm with rfl | hm
          · exact heq rfl
          · exact heq (hr e hm).symm
        have ht : t ∉ all bs := fun hm => hd.2.2 t mem_cons_self t hm rfl
        have hlen := length_le_length_all bs
        obtain ⟨p, c, l', o, hfind, hc, hitem, hpc, hchain, hout⟩ :=
          findBin_remove ev (m := n) (n := n) hb hbs (by omega) (by omega) hd.2.1 hmem rfl ht
        refine ⟨⟨some t, l'.setNextBin p o⟩, ?_, ?_⟩
        · simp only [eq_iff, heq, if_false, hfind, hc, if_true, hitem, Except.map]
          rfl
        · have hin : ∀ x ∉ all bs, (l'.setNextBin p o).nextInBin x = q.links.nextInBin x := fun x hx => (hout x hx).2
          rw [Bins.remove, if_neg heq]
          refine .cons ?_ hchain
          rw [hin t ht]
          exact hs.congr fun x hx => hin x fun hm => hd.2.2 x (mem_cons_of_mem _ hx) x hm rfl

/-- `serviceOne` pops the top of the first bin. -/
theorem Queue.pop_chain {q : Queue} (h : Chain q.links (some t) ((t, r) :: bs)) (hnd : (all ((t, r) :: bs)).Nodup) :
    Chain (q.pop t).links (q.pop t).head (Bins.pop r bs) := by
  cases h with
  | cons hs hb =>
    unfold Queue.pop
    generalize hnext : q.links.nextInBin t = o at hs
    cases hs with
    | nil => exact hb
    | @cons a r hs =>
      have ha : a ∉ all bs := fun hm => by
        rw [all_cons, nodup_append] at hnd
        exact hnd.2.2 a (by simp) a hm rfl
      refine .cons (hs.congr fun x hx => rfl) ?_
      have htop : (q.links.setNextBin a (q.links.nextBin t)).nextBin a = q.links.nextBin t := update_self _ _ _
      show Chain (q.links.setNextBin a (q.links.nextBin t)) ((q.links.setNextBin a (q.links.nextBin t)).nextBin a) bs
      rw [htop]
      exact hb.setNextBin ha

end Remove

end Salam.Events
