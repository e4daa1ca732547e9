import Mathlib.Logic.Relation
import Salam.Ir.Tokens
import Salam.Lib.Brackets

/-!
# Groups in brackets

The end of a group is found by two positions, of an opening and of a closing bracket, that move on together as long as
the opening one is the first. For the first opening bracket behind the one at the start of the group, the search starts
behind it; when there is none, both positions start in front of the closing bracket, and the closing one is moved once.

* `Racing.closes`: with another opening bracket, the race ends at the bracket that closes the group.
* `bracket_pushed`: exactly when the group that is pushed is the shortest balanced prefix.
-/

namespace Salam.Ir

open CString Brackets

/-! ## The loop over the line -/

/-- The inner loop, from `left` and `right` on, ends with `right` at the last position. -/
inductive GroupLoop (o c : Char) (s : Text) : Nat → Nat → Nat → Prop
  | stop {left right : Nat} : ¬left < right → GroupLoop o c s left right right
  | last {left right : Nat} : left < right → find s o (left + 1) = none →
      GroupLoop o c s left right ((find s c (right + 1)).getD right)
  | next {left right left' r : Nat} : left < right → find s o (left + 1) = some left' →
      GroupLoop o c s left' ((find s c (right + 1)).getD right) r → GroupLoop o c s left right r

/-- The loop comes to this rest of the line, with these parameters. -/
def Scans (s : Text) (acc : List Text) (rest : Text) (acc' : List Text) : Prop :=
  Relation.ReflTransGen (fun x y => scanStep x.1 x.2 = some y) (s, acc) (rest, acc')

/-- The text that the loop goes over: the line without its return register and its opcode, or without the text up to its
first blank. -/
def scanned (line : Text) : Option Text :=
  match search assignment line with
  | some (k + 1) =>
    let rest := line.drop (k + 1 + 3)
    (find rest ' ' 0).map rest.drop
  | _ => some (if line.all (· = ' ') then line else line.drop ((find line ' ' 0).elim 0 (· + 1)))

theorem scanStep_suffix {s rest : Text} {acc acc' : List Text} (h : scanStep s acc = some (rest, acc')) :
    rest <:+ s := by
  have hcons : ∀ (c : Char) (s : Text) (k : Nat), s.drop k <:+ c :: s := fun c s k =>
    (List.drop_suffix k s).trans (List.suffix_cons c s)
  revert h
  fun_cases scanStep s acc <;> intro h <;> cases h <;>
    first
      | exact List.suffix_cons _ _
      | exact List.drop_suffix _ _
      | exact List.suffix_rfl
      | exact List.nil_suffix
      | exact hcons _ _ _

theorem Scans.suffix {s rest : Text} {acc acc' : List Text} (h : Scans s acc rest acc') : rest <:+ s := by
  suffices hall : ∀ x y : Text × List Text, Relation.ReflTransGen (fun x y => scanStep x.1 x.2 = some y) x y →
    y.1 <:+ x.1 from
    hall _ _ h
  intro x y hxy
  induction hxy with
  | refl => exact List.suffix_rfl
  | tail _ hstep ih => exact (scanStep_suffix hstep).trans ih

theorem scanned_suffix {line text : Text} (h : scanned line = some text) : text <:+ line := by
  unfold scanned at h
  split at h
  · obtain ⟨k, -, rfl⟩ := Option.map_eq_some_iff.mp h
    exact (List.drop_suffix _ _).trans (List.drop_suffix _ _)
  · cases h
    split
    · exact List.suffix_rfl
    · exact List.drop_suffix _ _

theorem Scans.head {s rest s' : Text} {acc acc' acc'' : List Text} (h : scanStep s acc = some (s', acc'))
    (h' : Scans s' acc' rest acc'') : Scans s acc rest acc'' :=
  Relation.ReflTransGen.head h h'

variable {s : Text}

theorem scanStep_eq_none {acc : List Text} : scanStep s acc = none ↔ s = [] := by
  fun_cases scanStep s acc <;> simp

/-- `parameters` are what the loop has found at the end of the line. -/
theorem parameters_scans {fuel : Nat} {acc ps : List Text} (h : parameters fuel s acc = some ps) :
    Scans s acc [] ps := by
  induction fuel generalizing s acc with
  | zero => cases h
  | succ fuel ih =>
    rw [parameters] at h
    split at h
    · rename_i hstep
      exact Scans.head hstep (ih h)
    · rename_i hnone
      cases h
      rw [scanStep_eq_none.mp hnone]
      exact .refl

theorem scans_blank (h : ∀ c ∈ s, c = ' ') (acc : List Text) : Scans s acc [] acc := by
  induction s with
  | nil => exact Relation.ReflTransGen.refl
  | cons c s ih =>
    have hblank := h c (by simp)
    exact Scans.head (by rw [scanStep, if_pos hblank]) (ih fun d hd => h d (List.mem_cons_of_mem _ hd))

/-- **The parameters of a line are found in the text that the loop goes over.** -/
theorem parseLine_scans {line : Text} {l : Line} (h : parseLine line = some l) :
    ∃ text, scanned line = some text ∧ Scans text [] [] l.parameters := by
  have hplain : (∀ k, search assignment line ≠ some (k + 1)) →
      scanned line = some (if line.all (· = ' ') then line else line.drop ((find line ' ' 0).elim 0 (· + 1))) := by
    intro hno
    unfold scanned
    split
    · rename_i k hk
      exact absurd hk (hno k)
    · rfl
  unfold parseLine at h
  split at h
  · rename_i k hk
    obtain ⟨blank, hblank, h⟩ := Option.bind_eq_some_iff.mp h
    obtain ⟨ps, hps, h⟩ := Option.bind_eq_some_iff.mp h
    cases h
    refine ⟨_, ?_, parameters_scans hps⟩
    unfold scanned
    simp only [hk, hblank, Option.map_some]
  · rename_i hno
    rw [hplain hno]
    cases hfirst : line.findIdx? (· != ' ') with
    | none =>
      rw [hfirst] at h
      cases h
      have hall : ∀ c ∈ line, c = ' ' := by
        intro c hc
        simpa using List.findIdx?_eq_none_iff.mp hfirst c hc
      refine ⟨line, ?_, scans_blank hall []⟩
      rw [if_pos (by simpa using hall)]
    | some i =>
      rw [hfirst] at h
      obtain ⟨ps, hps, h⟩ := Option.bind_eq_some_iff.mp h
      cases h
      have hsome : ¬(line.all (· = ' ')) = true := by
        intro hall
        obtain ⟨hlt, hat, -⟩ := List.findIdx?_eq_some_iff_getElem.mp hfirst
        have hblank := List.all_eq_true.mp hall _ (List.getElem_mem hlt)
        simp at hat hblank
        exact hat hblank
      exact ⟨_, by rw [if_neg hsome], parameters_scans hps⟩

/-! ## The race of the two positions -/

theorem find_some {c : Char} {n m : Nat} (h : find s c n = some m) :
    n ≤ m ∧ s[m]? = some c ∧ (s.take m).count c = (s.take n).count c := by
  obtain ⟨k, hk, rfl⟩ := Option.map_eq_some_iff.mp h
  obtain ⟨hlt, hat, hbefore⟩ := List.findIdx?_eq_some_iff_getElem.mp hk
  refine ⟨Nat.le_add_right _ _, ?_, ?_⟩
  · rw [← List.getElem?_drop, List.getElem?_eq_getElem hlt]
    exact congrArg some (eq_of_beq hat)
  · rw [List.take_add, List.count_append, Nat.add_eq_left, List.count_eq_zero]
    intro hmem
    obtain ⟨j, hj, hget⟩ := List.mem_take_iff_getElem.mp hmem
    have hno := hbefore j (by omega)
    rw [hget] at hno
    exact hno (beq_self_eq_true c)

theorem find_none {c : Char} {n : Nat} (h : find s c n = none) : s.count c = (s.take n).count c := by
  have hnone := Option.map_eq_none_iff.mp h
  have hrest : (s.drop n).count c = 0 := by
    rw [List.count_eq_zero]
    intro hmem
    exact absurd (List.findIdx?_eq_none_iff.mp hnone c hmem) (by simp)
  calc s.count c = (s.take n ++ s.drop n).count c := by rw [List.take_append_drop]
    _ = (s.take n).count c := by rw [List.count_append, hrest, Nat.add_zero]

theorem lt_of_getElem? {n : Nat} {c : Char} (h : s[n]? = some c) : n < s.length :=
  (List.getElem?_eq_some_iff.mp h).1

theorem groupLoop_groupEnd (o c : Char) (s : Text) {fuel left : Nat} (hpos : 0 < fuel) (hfuel : s.length ≤ left + fuel)
    (right : Nat) : GroupLoop o c s left right (groupEnd o c s fuel left right) := by
  induction fuel generalizing left right with
  | zero => omega
  | succ fuel ih =>
    rw [groupEnd]
    by_cases hlt : left < right
    · rw [if_pos hlt]
      cases hnext : find s o (left + 1) with
      | none => exact .last hlt hnext
      | some left' =>
        obtain ⟨hle, hat, -⟩ := find_some hnext
        have hin := lt_of_getElem? hat
        exact .next hlt hnext (ih (by omega) (by omega) _)
    · rw [if_neg hlt]
      exact .stop hlt

/-- The `k`-th closing bracket, `right`, and the opening bracket behind the `k`-th one, `left`. Until `right`, more
brackets have been opened than closed. -/
structure Racing (o c : Char) (s : Text) (k left right : Nat) : Prop where
  left_at : s[left]? = some o
  right_at : s[right]? = some c
  pos : 0 < right
  opened : (s.take left).count o = k
  closed : (s.take right).count c + 1 = k
  open_before : ∀ n, 0 < n → n ≤ right → (s.take n).count c < (s.take n).count o

section Race

variable {o c : Char} {s : Text} {k left right : Nat}

section

variable (h : Racing o c s k left right)
include h

theorem Racing.closed_succ : (s.take (right + 1)).count c = k := by
  rw [count_take_succ h.right_at, if_pos rfl]
  exact h.closed

theorem Racing.next_right (hopen : k < s.count o) (hle : s.count o ≤ s.count c) :
    ∃ right', find s c (right + 1) = some right' ∧ right + 1 ≤ right' ∧ s[right']? = some c ∧
    (s.take right').count c = k := by
  cases hfind : find s c (right + 1) with
  | none =>
    have hall := find_none hfind
    rw [h.closed_succ] at hall
    omega
  | some right' =>
    obtain ⟨hge, hat, hcount⟩ := find_some hfind
    exact ⟨right', rfl, hge, hat, by rw [hcount, h.closed_succ]⟩

/-- As long as the opening bracket is the first, there is a bracket to close until the next closing one. -/
theorem Racing.open_until (hlt : left < right) {right' : Nat} (hcount : (s.take right').count c = k) :
    ∀ n, 0 < n → n ≤ right' → (s.take n).count c < (s.take n).count o := by
  intro n hn hle
  rcases Nat.lt_or_ge right n with hlt' | hge
  · have hc := count_take_le hle s c
    have ho : (s.take (left + 1)).count o = k + 1 := by rw [count_take_succ h.left_at, if_pos rfl, h.opened]
    have hmore := count_take_le (show left + 1 ≤ n from by omega) s o
    omega
  · exact h.open_before n hn hge

/-- **The race ends at the bracket that closes the group.** -/
theorem Racing.closes (hoc : o ≠ c) (hle : s.count o ≤ s.count c) {fuel : Nat} (hfuel : s.length - left < fuel) :
    Closes o c s (groupEnd o c s fuel left right) := by
  induction fuel generalizing k left right with
  | zero => omega
  | succ fuel ih =>
    rw [groupEnd]
    have hleft : (s.take (left + 1)).count o = k + 1 := by rw [count_take_succ h.left_at, if_pos rfl, h.opened]
    have hopen : k < s.count o := by
      have hsub := (List.take_sublist (left + 1) s).count_le o
      omega
    by_cases hlt : left < right
    · obtain ⟨right', hright', hge, hat, hcount⟩ := h.next_right hopen hle
      have hbefore := h.open_until hlt hcount
      rw [if_pos hlt, hright']
      cases hnext : find s o (left + 1) with
      | none =>
        have hall := find_none hnext
        show Closes o c s right'
        refine ⟨lt_of_getElem? hat, hbefore, ?_⟩
        have hc : (s.take (right' + 1)).count c = k + 1 := by rw [count_take_succ hat, if_pos rfl, hcount]
        have ho := count_take_le (show left + 1 ≤ right' + 1 from by omega) s o
        have hsub := (List.take_sublist (right' + 1) s).count_le o
        omega
      | some left' =>
        obtain ⟨hge', hat', hcount'⟩ := find_some hnext
        have hnew : Racing o c s (k + 1) left' right' :=
          ⟨hat', hat, by omega, by rw [hcount', hleft], by rw [hcount], hbefore⟩
        have hin := lt_of_getElem? hat'
        exact ih hnew (by omega)
    · rw [if_neg hlt]
      have hne : left ≠ right := by
        intro he
        have hat := h.left_at
        rw [he] at hat
        exact hoc (Option.some.inj (hat.symm.trans h.right_at))
      refine ⟨lt_of_getElem? h.right_at, h.open_before, ?_⟩
      have hc := h.closed_succ
      have hprev := h.closed
      have hbefore := h.open_before right h.pos (Nat.le_refl _)
      have hgrow := count_take_le (Nat.le_succ right) s o
      have hlast := count_take_le (show right + 1 ≤ left from by omega) s o
      have hopened := h.opened
      rw [Nat.succ_eq_add_one] at hgrow
      omega

end

end Race

variable {o c : Char}

theorem find_closing {t : Text} (hoc : o ≠ c) (hle : (o :: t).count o ≤ (o :: t).count c) :
    ∃ right, find (o :: t) c 0 = some right ∧ 0 < right ∧ (o :: t)[right]? = some c ∧
    ((o :: t).take right).count c = 0 := by
  cases hfind : find (o :: t) c 0 with
  | none =>
    have hall := find_none hfind
    rw [List.take_zero, List.count_nil] at hall
    rw [hall, List.count_cons_self] at hle
    omega
  | some right =>
    obtain ⟨-, hat, hcount⟩ := find_some hfind
    refine ⟨right, rfl, Nat.pos_of_ne_zero ?_, hat, hcount⟩
    rintro rfl
    exact hoc (Option.some.inj hat)

variable {right : Nat}

/-- Until the first closing bracket, the one at the start is open. -/
theorem open_first {t : Text} (hcount : ((o :: t).take right).count c = 0) :
    ∀ n, 0 < n → n ≤ right → ((o :: t).take n).count c < ((o :: t).take n).count o := by
  intro n hn hle
  have hc := count_take_le hle (o :: t) c
  have ho := count_take_le (show 1 ≤ n from hn) (o :: t) o
  have hone : ((o :: t).take 1).count o = 1 := by simp
  omega

/-- With another opening bracket, the right group is found. -/
theorem closes_of_mem {t : Text} (hoc : o ≠ c) (hle : (o :: t).count o ≤ (o :: t).count c) (hmem : o ∈ t)
    (hright : find (o :: t) c 0 = some right) :
    Closes o c (o :: t) (groupEnd o c (o :: t) (t.length + 1) (firstLeft o t) right) := by
  obtain ⟨right', hright', hpos, hat, hcount⟩ := find_closing hoc hle
  cases hright.symm.trans hright'
  cases hfind : find t o 0 with
  | none =>
    have hall := find_none hfind
    rw [List.take_zero, List.count_nil, List.count_eq_zero] at hall
    exact absurd hmem hall
  | some k =>
    obtain ⟨-, hatk, hcountk⟩ := find_some hfind
    have hleft : firstLeft o t = k + 1 := by rw [firstLeft, hfind, Option.elim_some, Nat.add_comm]
    have hrace : Racing o c (o :: t) 1 (k + 1) right :=
      { left_at := hatk
        right_at := hat
        pos := hpos
        opened := by rw [List.take_succ_cons, List.count_cons_self, hcountk]; rfl
        closed := by rw [hcount]
        open_before := open_first hcount }
    rw [hleft]
    have hfuel : (o :: t).length - (k + 1) < t.length + 1 := by
      rw [List.length_cons]
      omega
    exact hrace.closes hoc hle hfuel

/-- Without one, the closing position is moved once. -/
theorem groupEnd_of_not_mem {t : Text} (hmem : o ∉ t) (hpos : 0 < right) :
    groupEnd o c (o :: t) (t.length + 1) (firstLeft o t) right = (find (o :: t) c (right + 1)).getD right := by
  have hleft : firstLeft o t = 0 := by rw [firstLeft, find_eq_none hmem, Option.elim_none]
  have hnext : find (o :: t) o (0 + 1) = none := by
    rw [find_eq, List.drop_succ_cons, List.drop_zero, find_eq_none hmem, Option.map_none]
  rw [hleft, groupEnd, if_pos hpos, hnext]

theorem closes_first {t : Text} (hmem : o ∉ t) {first : Nat} (hat : (o :: t)[first]? = some c)
    (hcount : ((o :: t).take first).count c = 0) : Closes o c (o :: t) first := by
  refine ⟨lt_of_getElem? hat, open_first hcount, ?_⟩
  have hall : ((o :: t).take (first + 1)).count o = 1 := by
    rw [List.take_succ_cons, List.count_cons_self, List.count_eq_zero_of_not_mem fun h => hmem (List.mem_of_mem_take h)]
  rw [count_take_succ hat, if_pos rfl, hcount, hall]

theorem closing_ne (h : closing o = some c) : o ≠ c ∧ o ≠ ' ' := by
  unfold closing at h
  split at h <;> cases h <;> exact ⟨by decide, by decide⟩

/-! ## The groups of a line -/

/-- The group that the rest of the line starts with is its shortest balanced prefix, the inner loop ends behind it, and
it is pushed and passed over. -/
def PushesGroup (o c : Char) (rest : Text) (acc : List Text) : Prop :=
  ∃ p first right, Shortest o c rest p ∧ p.length = right + 1 ∧ find rest c 0 = some first ∧
    GroupLoop o c rest (firstLeft o rest.tail) first right ∧ scanStep rest acc = some (rest.drop p.length, acc ++ [p])

/-- **In a balanced line, the group is pushed as it should be exactly when another bracket of its kind is opened behind
its first character, or only one is closed.** -/
theorem bracket_pushed {line text : Text} (hbalanced : ∀ o c, closing o = some c → Balanced o c line)
    (htext : scanned line = some text) {rest : Text} {acc : List Text} (hscan : Scans text [] rest acc)
      {o c : Char} {t : Text}
    (hrest : rest = o :: t) (hclose : closing o = some c) : PushesGroup o c rest acc ↔ o ∈ t ∨ t.count c = 1 := by
  obtain ⟨hoc, hblank⟩ := closing_ne hclose
  have hle := (hbalanced o c hclose).suffix (hscan.suffix.trans (scanned_suffix htext))
  subst hrest
  obtain ⟨first, hfirst, hpos, hat, hcount⟩ := find_closing hoc hle
  have hloop := groupLoop_groupEnd o c (o :: t) (Nat.succ_pos t.length)
    (show (o :: t).length ≤ firstLeft o t + (t.length + 1) by
    rw [List.length_cons]; exact Nat.le_add_left _ _) first
  have hstep : scanStep (o :: t) acc =
      some ((o :: t).drop (groupEnd o c (o :: t) (t.length + 1) (firstLeft o t) first + 1),
        acc ++ [(o :: t).take (groupEnd o c (o :: t) (t.length + 1) (firstLeft o t) first + 1)]) := by
    rw [scanStep, if_neg hblank]
    simp only [hclose, hfirst]
  -- the group is pushed when the race ends where it should
  have hpush : Closes o c (o :: t) (groupEnd o c (o :: t) (t.length + 1) (firstLeft o t) first) →
    PushesGroup o c (o :: t) acc := by
    intro hcloses
    have hlen := List.length_take_of_le hcloses.lt
    exact ⟨_, first, _, hcloses.shortest, hlen, hfirst, hloop, by rw [hstep, hlen]⟩
  by_cases hmem : o ∈ t
  · exact iff_of_true (hpush (closes_of_mem hoc hle hmem hfirst)) (.inl hmem)
  · have hend := groupEnd_of_not_mem (c := c) hmem hpos
    have hgroup := closes_first hmem hat hcount
    have hcons : (o :: t).count c = t.count c := List.count_cons_of_ne hoc
    have hone : ((o :: t).take (first + 1)).count c = 1 := by rw [count_take_succ hat, if_pos rfl, hcount]
    cases hnext : find (o :: t) c (first + 1) with
    | none =>
      rw [hnext, Option.getD_none] at hend
      have hall := find_none hnext
      rw [hone, hcons] at hall
      exact iff_of_true (hpush (by rw [hend]; exact hgroup)) (.inr hall)
    | some second =>
      rw [hnext, Option.getD_some] at hend
      obtain ⟨hge, hat', hcount'⟩ := find_some hnext
      refine iff_of_false ?_ ?_
      · rintro ⟨p, _, _, hshort, -, -, -, hpushed⟩
        have hp : p = (o :: t).take (second + 1) := by
          have hacc := congrArg Prod.snd (Option.some.inj (hstep.symm.trans hpushed))
          rw [hend] at hacc
          exact (List.cons.inj (List.append_cancel_left hacc)).1.symm
        have hlen := congrArg List.length (hshort.unique hgroup.shortest)
        rw [hp, List.length_take_of_le hgroup.lt, List.length_take_of_le (lt_of_getElem? hat')] at hlen
        omega
      · have htwo : ((o :: t).take (second + 1)).count c = 2 := by rw [count_take_succ hat', if_pos rfl, hcount', hone]
        have hsub := (List.take_sublist (second + 1) (o :: t)).count_le c
        rintro (h | h)
        · exact hmem h
        · omega

/-- The words of `call void @f(i32 (i32)* %g)` in front of the group. -/
def callWords : List Text := ["call".toList, "void".toList, "@f(i32".toList]

/-- A line with two array types. -/
def arrayLine : Text := "  %q = getelementptr [4 x i32], [4 x i32]* %a, i64 0".toList

/-- A call with a parameter of a function type. -/
def callLine : Text := "  call void @f(i32 (i32)* %g)".toList

theorem balanced_line {line : Text} (h : ∀ p ∈ [('(', ')'), ('[', ']'), ('\x7b', '\x7d'), ('<', '>')],
    (∀ n ≤ line.length, (line.take n).count p.2 ≤ (line.take n).count p.1) ∧ line.count p.2 = line.count p.1) :
    ∀ o c, closing o = some c → Balanced o c line := by
  intro o c hclose
  have hkind : (o, c) ∈ [('(', ')'), ('[', ']'), ('\x7b', '\x7d'), ('<', '>')] := by
    unfold closing at hclose
    split at hclose <;> cases hclose <;> simp
  obtain ⟨hle, hall⟩ := h _ hkind
  exact balanced_of_take hle hall

/-- The first group of `[4 x i32], [4 x i32]* %a, i64 0` is `[4 x i32]`. -/
theorem bracket_pushed_array : PushesGroup '[' ']' "[4 x i32], [4 x i32]* %a, i64 0".toList [] := by
  have hbalanced : ∀ o c, closing o = some c → Balanced o c arrayLine := balanced_line (by decide)
  have htext : scanned arrayLine = some " [4 x i32], [4 x i32]* %a, i64 0".toList := by rfl
  have hscan : Scans " [4 x i32], [4 x i32]* %a, i64 0".toList [] "[4 x i32], [4 x i32]* %a, i64 0".toList [] :=
    Scans.head (by rfl) Relation.ReflTransGen.refl
  exact (bracket_pushed hbalanced htext hscan rfl rfl).mpr (.inl (by decide))

/-- The group of `@f(i32 (i32)* %g)` takes the rest of the line: its own closing bracket is not the last, and the
bracket in `@f(i32` is in a word. -/
theorem bracket_in_word : ¬ ∀ line text :
    Text, (∀ o c, closing o = some c → Balanced o c line) → scanned line = some text →
    ∀ rest acc o c t, Scans text [] rest acc → rest = o :: t → closing o = some c → PushesGroup o c rest acc := by
  intro h
  have hbalanced : ∀ o c, closing o = some c → Balanced o c callLine := balanced_line (by decide)
  have htext : scanned callLine = some " call void @f(i32 (i32)* %g)".toList := by rfl
  have hscan : Scans " call void @f(i32 (i32)* %g)".toList [] "(i32)* %g)".toList callWords :=
    Scans.head (by rfl) (Scans.head (by rfl) (Scans.head (by rfl) (Scans.head (by rfl) Relation.ReflTransGen.refl)))
  obtain ⟨p, _, _, hshort, -, -, -, hstep⟩ := h _ _ hbalanced htext _ _ '(' ')' _ hscan rfl rfl
  have hpushed : scanStep "(i32)* %g)".toList callWords = some ([], callWords ++ ["(i32)* %g)".toList]) := by rfl
  have hp :=
    (List.cons.inj (List.append_cancel_left (congrArg Prod.snd (Option.some.inj (hstep.symm.trans hpushed))))).1
  have hshorter := hshort.2.2.1.2
  rw [hp] at hshorter
  exact absurd hshorter (by decide)

end Salam.Ir
