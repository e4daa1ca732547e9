import Salam.Lib.CString

/-!
# The parameters of a line

How `BasicBlock::parse` takes an instruction line apart: the return register, the opcode, and the parameters, which are
separated by blanks and commas and may be groups in brackets.

* `parameters_of_written`: the parameters of a line are the words it is written with.
* `parseLine_assign`, `parseLine_plain`: the parts of a line with a return register, and of one without.
-/

namespace Salam.Ir

open CString

/-- The bracket that closes a group. -/
def closing : Char → Option Char
  | '(' => some ')'
  | '[' => some ']'
  | '{' => some '}'
  | '<' => some '>'
  | _ => none

/-- The loop that looks for the end of a group: as long as the next opening bracket stands before the closing one, both
move on. A search that finds nothing leaves its position, and one for an opening bracket ends the loop. -/
def groupEnd (o c : Char) (s : Text) : Nat → Nat → Nat → Nat
  | 0, _, right => right
  | fuel + 1, left, right =>
    if left < right then
      let right' := (find s c (right + 1)).getD right
      match find s o (left + 1) with
      | some left' => groupEnd o c s fuel left' right'
      | none => right'
    else right

/-- `*` after a group belongs to it. -/
def star (parameters : List Text) : List Text := parameters.modifyLast (· ++ ['*'])

/-- The position of the second opening bracket; without one, the position of the first. -/
def firstLeft (o : Char) (s : Text) : Nat := (find s o 0).elim 0 (1 + ·)

/-- One turn of the loop over the characters of the line: the rest of the line, and the parameters found so far. At a
bracket that nothing closes, the position does not move. -/
def scanStep : Text → List Text → Option (Text × List Text)
  | [], _ => none
  | c :: s, acc =>
    if c = ' ' then some (s, acc)
    else
      match closing c with
      | some close =>
        match find (c :: s) close 0 with
        | some right =>
          let right := groupEnd c close (c :: s) (s.length + 1) (firstLeft c s) right
          some ((c :: s).drop (right + 1), acc ++ [(c :: s).take (right + 1)])
        | none => some (c :: s, acc ++ [[]])
      | none =>
        if c = '=' ∨ c = ',' then some (s, acc)
        else if c = '*' then some (s, star acc)
        else
          match find s ' ' 0, find s ',' 0 with
          | none, none => some ([], acc ++ [c :: s])
          | some k, none => some (s.drop (k + 1), acc ++ [c :: s.take k])
          | none, some k => some (s.drop (k + 1), acc ++ [c :: s.take k])
          | some k, some m =>
            let k := if m < k then m else k
            some (s.drop (k + 1), acc ++ [c :: s.take k])

/-- The loop over the characters of the line; `acc` are the parameters found so far. `none` stands for a loop that does
not end, at a bracket that nothing closes. -/
def parameters : Nat → Text → List Text → Option (List Text)
  | 0, _, _ => none
  | fuel + 1, s, acc =>
    match scanStep s acc with
    | some (s, acc) => parameters fuel s acc
    | none => some acc

/-- The parts of a line. -/
structure Line where
  ret : Option Text
  opCode : Text
  parameters : List Text
  deriving DecidableEq

/-- `" = "`. -/
def assignment : Text := [' ', '=', ' ']

/-- The first part of `BasicBlock::parse`; `none` stands for an exception or a loop that does not end. -/
def parseLine (line : Text) : Option Line :=
  match search assignment line with
  | some (k + 1) => do
    let start := (find line '%' 0).elim 0 (· + 1)
    let ret := if 3 ≤ k + 1 then substr line start (k + 1 - 3) else line.drop start
    let rest := line.drop (k + 1 + 3)
    let blank ← find rest ' ' 0
    let ps ← parameters (rest.length + 1) (rest.drop blank) []
    return ⟨some ret, rest.take blank, ps⟩
  | _ =>
    match line.findIdx? (· != ' ') with
    | some i => do
      let opCode := match find line ' ' i with
        | some k => if 2 ≤ k then substr line i (k - 2) else line.drop i
        | none => line.drop i
      let ps ← parameters (line.length + 1) (line.drop ((find line ' ' 0).elim 0 (· + 1))) []
      return ⟨none, opCode, ps⟩
    | none => some ⟨none, [], []⟩

/-! ## Words -/

/-- A word that the loop reads as one parameter: it starts with a character that the loop does not treat by itself, and
has no blank and no comma. -/
def IsWord : Text → Prop
  | [] => False
  | c :: s => closing c = none ∧ c ∉ [' ', '=', ',', '*'] ∧ ' ' ∉ s ∧ ',' ∉ s

/-- A group in brackets at the end of the line, without brackets of its kind inside. -/
def IsGroup (o c : Char) (g : Text) : Prop :=
  closing o = some c ∧ o ≠ ' ' ∧ ∃ s, g = o :: (s ++ [c]) ∧ o ∉ s ∧ c ∉ s ∧ o ≠ c

/-- A line is written with these words: they are separated by blanks and commas, and a group may end the line. -/
inductive Written : List Text → Text → Prop
  | nil : Written [] []
  | skip {ws : List Text} {s : Text} {d : Char} : d = ' ' ∨ d = ',' → Written ws s → Written ws (d :: s)
  | last {w : Text} : IsWord w → Written [w] w
  | group {g : Text} {o c : Char} : IsGroup o c g → Written [g] g
  | word {w s : Text} {ws : List Text} {d : Char} :
      IsWord w → d = ' ' ∨ d = ',' → Written ws s → Written (w :: ws) (w ++ d :: s)

theorem parameters_step {s r : Text} {acc acc' : List Text} (h : scanStep s acc = some (r, acc')) (fuel : Nat) :
    parameters (fuel + 1) s acc = parameters fuel r acc' := by
  rw [parameters, h]

theorem parameters_skip {d : Char} (hd : d = ' ' ∨ d = ',') (s : Text) (fuel : Nat) (acc : List Text) :
    parameters (fuel + 1) (d :: s) acc = parameters fuel s acc := by
  rcases hd with rfl | rfl
  · exact parameters_step (by rw [scanStep, if_pos rfl]) fuel
  · exact parameters_step rfl fuel

/-- One word and what separates it from the rest. -/
theorem parameters_word {w s : Text} {d : Char} (hw : IsWord w) (hd : d = ' ' ∨ d = ',') (fuel : Nat)
    (acc : List Text) :
    parameters (fuel + 1) (w ++ d :: s) acc = parameters fuel s (acc ++ [w]) := by
  refine parameters_step ?_ fuel
  cases w with
  | nil => exact hw.elim
  | cons c w =>
    obtain ⟨hclose, hc, hblank, hcomma⟩ := hw
    simp only [List.mem_cons, List.not_mem_nil, or_false, not_or] at hc
    obtain ⟨hc1, hc2, hc3, hc4⟩ := hc
    have hdrop : (w ++ d :: s).drop (w.length + 1) = s := by
      rw [← List.drop_drop, List.drop_left]
      rfl
    have htake : (w ++ d :: s).take w.length = w := List.take_left
    have hother : ∀ e : Char, e ∉ w → e ≠ d → find (w ++ d :: s) e 0 = (find s e 0).map ((w ++ [d]).length + ·) := by
      intro e he hne
      have hsplit : w ++ d :: s = (w ++ [d]) ++ s := by simp
      rw [hsplit, find_append_right (by simp [he, hne])]
    rw [List.cons_append, scanStep, if_neg hc1]
    simp only [hclose, hc2, hc3, or_self, if_false, hc4]
    rcases hd with rfl | rfl
    · rw [find_append hblank, hother ',' hcomma (by decide)]
      cases find s ',' 0 with
      | none => simp only [Option.map_none, hdrop, htake]
      | some m =>
        have hlt : ¬(w ++ [' ']).length + m < w.length := by
          simp
          omega
        simp only [Option.map_some, if_neg hlt, hdrop, htake]
    · rw [find_append hcomma, hother ' ' hblank (by decide)]
      cases find s ' ' 0 with
      | none => simp only [Option.map_none, hdrop, htake]
      | some m =>
        have hlt : w.length < (w ++ [',']).length + m := by
          simp
          omega
        simp only [Option.map_some, if_pos hlt, hdrop, htake]

theorem parameters_last {w : Text} (hw : IsWord w) (fuel : Nat) (acc : List Text) :
    parameters (fuel + 2) w acc = some (acc ++ [w]) := by
  refine parameters_step (r := []) ?_ (fuel + 1)
  cases w with
  | nil => exact hw.elim
  | cons c w =>
    obtain ⟨hclose, hc, hblank, hcomma⟩ := hw
    simp only [List.mem_cons, List.not_mem_nil, or_false, not_or] at hc
    obtain ⟨hc1, hc2, hc3, hc4⟩ := hc
    rw [scanStep, if_neg hc1]
    simp only [hclose, hc2, hc3, or_self, if_false, hc4, find_eq_none hblank, find_eq_none hcomma]

theorem parameters_group {g : Text} {o c : Char} (hg : IsGroup o c g) (fuel : Nat) (acc : List Text) :
    parameters (fuel + 2) g acc = some (acc ++ [g]) := by
  obtain ⟨hclose, ho, s, rfl, hos, hcs, hoc⟩ := hg
  have hright : find (o :: (s ++ [c])) c 0 = some (s.length + 1) := by
    have h := find_append (s := o :: s) (t := []) (c := c) (by simp [hcs, Ne.symm hoc])
    simpa using h
  have hleft : find (s ++ [c]) o 0 = none := find_eq_none (by simp [hos, hoc])
  have hend : groupEnd o c (o :: (s ++ [c])) ((s ++ [c]).length + 1) 0 (s.length + 1) = s.length + 1 := by
    have hnext : find (o :: (s ++ [c])) c (s.length + 1 + 1) = none := by
      rw [find_eq, List.drop_of_length_le (by simp)]
      rfl
    have hopen : find (o :: (s ++ [c])) o (0 + 1) = none := by
      rw [find_eq]
      simpa using hleft
    simp only [groupEnd, Nat.succ_pos, if_true, hnext, hopen, Option.getD_none]
  have htake : (o :: (s ++ [c])).take (s.length + 1 + 1) = o :: (s ++ [c]) := List.take_of_length_le (by simp)
  have hdrop : (o :: (s ++ [c])).drop (s.length + 1 + 1) = [] := List.drop_of_length_le (by simp)
  refine parameters_step (r := []) ?_ (fuel + 1)
  rw [scanStep, if_neg ho]
  simp only [hclose, hright, firstLeft, hleft, Option.elim_none, hend, htake, hdrop]

/-- A group that another one follows: its end is the first closing bracket, as the next opening one stands behind it. -/
theorem parameters_group_cons {g s : Text} {o c : Char} (hg : IsGroup o c g) (hs : o ∈ s) (fuel : Nat)
    (acc : List Text) :
    parameters (fuel + 1) (g ++ s) acc = parameters fuel s (acc ++ [g]) := by
  obtain ⟨hclose, ho, t, rfl, hot, hct, hoc⟩ := hg
  obtain ⟨s₁, s₂, rfl, hs₁⟩ := List.eq_append_cons_of_mem hs
  have hright : find (o :: (t ++ [c]) ++ (s₁ ++ o :: s₂)) c 0 = some (t.length + 1) := by
    have h := find_append (s := o :: t) (t := s₁ ++ o :: s₂) (c := c) (by simp [hct, Ne.symm hoc])
    simpa using h
  have hleft : find (t ++ [c] ++ (s₁ ++ o :: s₂)) o 0 = some (t.length + (s₁.length + 1)) := by
    have h := find_append (s := t ++ [c] ++ s₁) (t := s₂) (c := o) (by simp [hot, hoc, hs₁])
    simpa using h
  have hbehind : ¬1 + (t.length + (s₁.length + 1)) < t.length + 1 := by omega
  have hlen : t.length + 1 + 1 = (o :: (t ++ [c])).length := by simp
  rw [List.cons_append] at hright ⊢
  refine parameters_step ?_ fuel
  rw [scanStep, if_neg ho]
  simp only [hclose, hright, firstLeft, hleft, Option.elim_some, groupEnd, if_neg hbehind]
  rw [← List.cons_append, hlen, List.take_left, List.drop_left]

variable {ws : List Text}

/-- **The parameters of a line are the words it is written with.** -/
theorem parameters_of_written {s : Text} (h : Written ws s) {fuel : Nat} (hfuel : s.length < fuel) (acc : List Text) :
    parameters fuel s acc = some (acc ++ ws) := by
  induction h generalizing fuel acc with
  | nil =>
    cases fuel with
    | zero => omega
    | succ fuel =>
      rw [List.append_nil]
      rfl
  | @skip ws s d hd _ ih =>
    cases fuel with
    | zero => omega
    | succ fuel =>
      have hless : s.length < fuel := by simpa using hfuel
      rw [parameters_skip hd, ih hless acc]
  | @last w hw =>
    have hpos : 0 < w.length := List.length_pos_iff.mpr fun hnil => (hnil ▸ hw : IsWord [])
    obtain ⟨fuel, rfl⟩ : ∃ k, fuel = k + 2 := ⟨fuel - 2, by omega⟩
    exact parameters_last hw fuel acc
  | @group g o c hg =>
    cases fuel with
    | zero => omega
    | succ fuel =>
      cases fuel with
      | zero =>
        obtain ⟨-, -, s, rfl, -⟩ := hg
        simp at hfuel
      | succ fuel => exact parameters_group hg fuel acc
  | @word w s ws d hw hd _ ih =>
    cases fuel with
    | zero => omega
    | succ fuel =>
      have hlen : s.length < fuel := by
        simp at hfuel
        omega
      rw [parameters_word hw hd, ih hlen, List.append_assoc]
      rfl

/-! ## Lines -/

/-- A line with a return register, by the parameters that the loop finds. -/
theorem parseLine_assign_of {ret opCode s : Text} (hret : ' ' ∉ ret) (hop : ' ' ∉ opCode)
    (hps : parameters ((opCode ++ ' ' :: s).length + 1) (' ' :: s) [] = some ws) :
    parseLine (' ' :: ' ' :: '%' :: (ret ++ (' ' :: '=' :: ' ' :: (opCode ++ ' ' :: s)))) =
    some ⟨some ret, opCode, ws⟩ := by
  have hsearch : search assignment (' ' :: ' ' :: '%' :: (ret ++ (' ' :: '=' :: ' ' :: (opCode ++ ' ' :: s)))) =
      some (ret.length + 2 + 1) := by
    have hself : search assignment (' ' :: '=' :: ' ' :: (opCode ++ ' ' :: s)) = some 0 := search_self assignment _
    have hrest : search assignment (ret ++ (' ' :: '=' :: ' ' :: (opCode ++ ' ' :: s))) = some ret.length := by
      rw [assignment, search_append hret, ← assignment, hself]
      rfl
    rw [search_cons (by simp [assignment, List.isPrefixOf]), search_cons (by simp [assignment, List.isPrefixOf]),
      search_cons (by simp [assignment, List.isPrefixOf]), hrest]
    rfl
  have hpercent : find (' ' :: ' ' :: '%' :: (ret ++ (' ' :: '=' :: ' ' :: (opCode ++ ' ' :: s)))) '%' 0 = some 2 :=
    find_append (s := [' ', ' ']) (by decide)
  have hname : substr (' ' :: ' ' :: '%' :: (ret ++ (' ' :: '=' :: ' ' :: (opCode ++ ' ' :: s)))) (2 + 1)
      (ret.length + 2 + 1 - 3) = ret := by
    simp [substr]
  have hrest : (' ' :: ' ' :: '%' :: (ret ++ (' ' :: '=' :: ' ' :: (opCode ++ ' ' :: s)))).drop
    (ret.length + 2 + 1 + 3) =
      opCode ++ ' ' :: s := by
    have hcount : ret.length + 2 + 1 + 3 = (' ' :: ' ' :: '%' :: (ret ++ [' ', '=', ' '])).length := by simp
    have hsplit : ' ' :: ' ' :: '%' :: (ret ++ (' ' :: '=' :: ' ' :: (opCode ++ ' ' :: s))) =
        (' ' :: ' ' :: '%' :: (ret ++ [' ', '=', ' '])) ++ (opCode ++ ' ' :: s) := by simp
    rw [hcount, hsplit, List.drop_left]
  have hblank : find (opCode ++ ' ' :: s) ' ' 0 = some opCode.length := find_append hop
  have hge : 3 ≤ ret.length + 2 + 1 := by omega
  unfold parseLine
  rw [hsearch]
  simp only [hpercent, Option.elim_some, hge, if_true, hname, hrest, hblank, List.drop_left, List.take_left, hps,
    Option.bind_eq_bind, Option.bind_some, Option.pure_def]

theorem parseLine_assign {ret opCode s : Text} (hret : ' ' ∉ ret) (hop : ' ' ∉ opCode) (hws : Written ws s) :
    parseLine (' ' :: ' ' :: '%' :: (ret ++ (' ' :: '=' :: ' ' :: (opCode ++ ' ' :: s)))) =
    some ⟨some ret, opCode, ws⟩ := by
  have hless : (' ' :: s).length < (opCode ++ ' ' :: s).length + 1 := by
    rw [List.length_append]
    exact Nat.lt_succ_of_le (Nat.le_add_left _ _)
  exact parseLine_assign_of hret hop (by simpa using parameters_of_written (.skip (.inl rfl) hws) hless [])

/-- A line without a return register: the opcode is also the first parameter. -/
theorem parseLine_plain {opCode s : Text} (hop : IsWord opCode)
    (hassign : search assignment (' ' :: ' ' :: (opCode ++ ' ' :: s)) = none) (hws : Written ws s) :
    parseLine (' ' :: ' ' :: (opCode ++ ' ' :: s)) = some ⟨none, opCode, opCode :: ws⟩ := by
  have hhead : (' ' :: ' ' :: (opCode ++ ' ' :: s)).findIdx? (· != ' ') = some 2 := by
    cases opCode with
    | nil => exact hop.elim
    | cons c w =>
      have hc : c ≠ ' ' := fun h => hop.2.1 (by simp [h])
      simp [List.findIdx?_cons, hc]
  have hblank : ' ' ∉ opCode := by
    cases opCode with
    | nil => exact hop.elim
    | cons c w =>
      obtain ⟨-, hc, hsp, -⟩ := hop
      simp only [List.mem_cons, List.not_mem_nil, or_false, not_or] at hc
      simp [hsp, Ne.symm hc.1]
  have hend : find (' ' :: ' ' :: (opCode ++ ' ' :: s)) ' ' 2 = some (2 + opCode.length) :=
    find_drop (u := [' ', ' ']) hblank
  have hname : substr (' ' :: ' ' :: (opCode ++ ' ' :: s)) 2 (2 + opCode.length - 2) = opCode := by
    simp [substr]
  have hfirst : find (' ' :: ' ' :: (opCode ++ ' ' :: s)) ' ' 0 = some 0 := find_append (s := []) (by simp)
  have hps : parameters ((' ' :: ' ' :: (opCode ++ ' ' :: s)).length + 1) (' ' :: (opCode ++ ' ' :: s)) [] =
      some (opCode :: ws) := by
    have h := parameters_of_written (.skip (.inl rfl) (.word hop (.inl rfl) hws))
      (show (' ' :: (opCode ++ ' ' :: s)).length < (' ' :: ' ' :: (opCode ++ ' ' :: s)).length + 1 by simp) []
    simpa using h
  have hge : 2 ≤ 2 + opCode.length := by omega
  unfold parseLine
  rw [hassign]
  simp only [hhead, hend, hge, if_true, hname, hfirst, Option.elim_some, List.drop_succ_cons, List.drop_zero,
    Nat.zero_add, hps, Option.bind_eq_bind, Option.bind_some, Option.pure_def]

end Salam.Ir
