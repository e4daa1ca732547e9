import Salam.Ir.Compare

/-!
# Switches

`switch` from the lines of the file to the destination. `constructBBList` joins the lines up to the closing bracket, the
parser finds the cases by searching for `i`, blanks, commas and `%`, and a case value is kept as an `int`.

* `caseLoop_cases`: which value is read for a case. A search for the type of a case starts in the label before.
* `switch_dispatched`: exactly when the destination is the one of LLVM.
-/

namespace Salam.Ir

open CString TwosComplement

/-! ## Joining the lines -/

/-- The loop that joins lines up to the one with `" ]"`; `none` stands for a file that ends before. -/
def joinSwitch : List Text → Text → Text → Option (Text × List Text)
  | [], line, concatLine => if (search [' ', ']'] line).isSome then some (concatLine ++ [' ', ']'], []) else none
  | next :: rest, line, concatLine =>
    if (search [' ', ']'] line).isSome then some (concatLine ++ [' ', ']'], next :: rest)
    else joinSwitch rest next (concatLine ++ line)

/-- The line that `constructBBList` hands to `parse` for the instruction that starts with this line, and the lines that
are left. -/
def instructionLine (line : Text) (rest : List Text) : Option (Text × List Text) :=
  if (search "switch".toList line).isSome then joinSwitch rest line [] else some (line, rest)

/-! ## The instruction -/

/-- An `LLVMSwitch` object. `_CaseValues` are `int`. -/
structure LLVMSwitch where
  returnType : Text
  condition : Text
  branches : List Text
  caseValues : List (BitVec 32)
  deriving DecidableEq

/-- The characters from a position up to the next `c`. -/
def upTo (s : Text) (pos : Nat) (c : Char) : Text :=
  match find s c pos with
  | some k => substr s pos (k - pos)
  | none => s.drop pos

/-- The loop over the cases, of which `n` remain; `location` is where the label before starts. -/
def caseLoop (g : Text) : Nat → Nat → List (BitVec 32 × Text)
  | 0, _ => []
  | n + 1, location =>
    let valuePos := ((find g 'i' location).bind fun k => find g ' ' k).elim 0 (· + 1)
    let labelPos := (find g '%' valuePos).elim 0 (· + 1)
    (BitVec.ofInt 32 (strtol (upTo g valuePos ',')), upTo g labelPos ' ') :: caseLoop g n labelPos

namespace LLVMSwitch

/-- `BasicBlock::parse` for `switch`. -/
def parse (l : Line) : Except Err LLVMSwitch := do
  let returnType ← parameter l.parameters 1
  let default ← parameter l.parameters 4
  let condition ← parameter l.parameters 2
  let g ← parameter l.parameters 5
  let cases := caseLoop g (g.count '%') 0
  return ⟨returnType, condition.drop 1, default.drop 1 :: cases.map (·.2), 0 :: cases.map (·.1)⟩

/-- `_Branches.at(k)`. -/
def branchAt (i : LLVMSwitch) (k : Nat) : Except Err Text :=
  match i.branches[k]? with
  | some b => .ok b
  | none => .error .outOfRange

/-- The loop over the case values from the `k`-th on, of which `n` remain. -/
def compare (i : LLVMSwitch) (mainValue : Word) : Nat → Nat → Except Err Text
  | 0, _ => i.branchAt 0
  | n + 1, k =>
    match i.caseValues[k]? with
    | some v => if mainValue = v.signExtend 64 then i.branchAt k else compare i mainValue n (k + 1)
    | none => .error .outOfRange

/-- `LLVMSwitch::compute()`: the `_Dest`. -/
def compute (i : LLVMSwitch) (ops : List Word) : Except Err Text := do
  let mainValue ← opAt ops 0
  i.compare mainValue (i.branches.length - 1) 1

/-- The condition is fetched from its register, and `compute()` runs. -/
def exec (i : LLVMSwitch) (regs : Regs) : Except Err Text := i.compute [(regs i.condition).value]

end LLVMSwitch

/-! ## Switches of LLVM -/

/-- A case. -/
structure Case where
  value : Literal
  label : Text

namespace Case

/-- The label is written in one piece: no blank, and nothing that ends or counts as a part of the list. -/
def Plain (c : Case) : Prop := ' ' ∉ c.label ∧ '%' ∉ c.label ∧ '[' ∉ c.label ∧ ']' ∉ c.label

/-- `    ty value, label %label` -/
def line (ty : IntTy) (c : Case) : Text :=
  ' ' :: ' ' :: ' ' :: ' ' :: (ty.text ++ ' ' ::
  (c.value.text ++ ',' :: ' ' :: ("label".toList ++ ' ' :: '%' :: c.label)))

end Case

/-- `  switch ty %cond, label %default [`, and what follows in a joined line. -/
def switchHead (ty : IntTy) (cond default : Text) (rest : Text) : Text :=
  ' ' :: ' ' :: ("switch".toList ++ ' ' :: (ty.text ++ ' ' :: ('%' :: cond ++ ',' :: ' ' :: ("label".toList ++ ' ' ::
    ('%' :: default ++ ' ' :: '[' :: rest)))))

/-- The text of the cases in a joined line. -/
def casesText (ty : IntTy) (cases : List Case) : Text := cases.flatMap (Case.line ty)

/-- The lines behind the first one. -/
def switchLines (ty : IntTy) (cases : List Case) (after : List Text) : List Text :=
  cases.map (Case.line ty) ++ [' ', ' ', ']'] :: after

/-- The label of the first case with this value, and the default label when no case has it. -/
def target {N : Nat} (default : Text) (x : BitVec N) (cases : List (BitVec N × Text)) : Text :=
  ((cases.find? (·.1 = x)).map (·.2)).getD default

/-- The value that is read for a case: 0 behind a label with an `i`, and otherwise 32 bits of the number. -/
def readValue (previous : Text) (c : Case) : BitVec 32 :=
    if 'i' ∈ previous then 0 else BitVec.ofInt 32 (strtol c.value.text)

/-- The cases as they are read. -/
def readCases : Text → List Case → List (BitVec 32 × Text)
  | _, [] => []
  | previous, c :: cs => (readValue previous c, c.label) :: readCases c.label cs

/-! ## Searching the lines -/

theorem absent_word {pat w s : Text} {p : Char} (hw : p ∉ w) (h : search (p :: pat) s = none) :
    search (p :: pat) (w ++ s) = none := by
  rw [search_append hw, h]
  rfl

theorem absent_blank {pat s : Text} {d c : Char} (hc : c ≠ d) (h : search (' ' :: d :: pat) (c :: s) = none) :
    search (' ' :: d :: pat) (' ' :: c :: s) = none := by
  have hne : (d == c) = false := beq_false_of_ne fun he => hc he.symm
  rw [search_cons (by simp [List.isPrefixOf, hne]), h]
  rfl

theorem blank_not_mem_type (ty : IntTy) : ' ' ∉ ty.text := by cases ty <;> decide

theorem type_head (ty : IntTy) : ∃ t, ty.text = 'i' :: t := by cases ty <;> exact ⟨_, rfl⟩

/-- A text that starts behind a blank is in no case line. -/
theorem absent_case {ty : IntTy} {c : Case} (hlabel : ' ' ∉ c.label) {d : Char} (hd : d = '=' ∨ d = ']') {pat s : Text}
    (h : search (' ' :: d :: pat) s = none) : search (' ' :: d :: pat) (c.line ty ++ s) = none := by
  have hne : ∀ e : Char, e ≠ '=' → e ≠ ']' → e ≠ d := fun e h₁ h₂ he => by
    rcases hd with rfl | rfl
    · exact h₁ he
    · exact h₂ he
  have hlab : search (' ' :: d :: pat) (' ' :: ('%' :: (c.label ++ s))) = none :=
    absent_blank (hne _ (by decide) (by decide)) (absent_word (w := '%' :: c.label) (by simp [hlabel]) h)
  have hlit : search (' ' :: d :: pat) (' ' :: (c.value.text ++ (',' :: (' ' :: ("label".toList ++ (' ' :: ('%' ::
      (c.label ++ s)))))))) = none := by
    have hrest : search (' ' :: d :: pat) (c.value.text ++ (',' :: (' ' :: ("label".toList ++ (' ' :: ('%' ::
        (c.label ++ s))))))) = none :=
      absent_word (not_mem_literal _ (by decide) (by decide)) (absent_word (w := [',']) (by decide)
        (absent_blank (hne _ (by decide) (by decide)) (absent_word (w := "label".toList) (by decide) hlab)))
    obtain ⟨e, t, ht, he⟩ := literal_ne_nil c.value
    rw [ht] at hrest ⊢
    refine absent_blank (hne _ ?_ ?_) hrest <;> rintro rfl <;> rcases he with he | he <;> simp at he
  have hty : search (' ' :: d :: pat) (' ' :: (ty.text ++ (' ' :: (c.value.text ++ (',' :: (' ' :: ("label".toList ++
      (' ' :: ('%' :: (c.label ++ s)))))))))) = none := by
    obtain ⟨t, ht⟩ := type_head ty
    have hrest := absent_word (blank_not_mem_type ty) hlit
    rw [ht] at hrest ⊢
    exact absent_blank (hne _ (by decide) (by decide)) hrest
  have hblanks := absent_blank (hne ' ' (by decide) (by decide)) (absent_blank (hne ' ' (by decide) (by decide))
    (absent_blank (hne ' ' (by decide) (by decide)) hty))
  simpa [Case.line] using hblanks

theorem absent_cases {ty : IntTy} {cases : List Case} (hlabels : ∀ c ∈ cases, ' ' ∉ c.label) {d : Char}
    (hd : d = '=' ∨ d = ']') {pat s : Text} (h : search (' ' :: d :: pat) s = none) :
    search (' ' :: d :: pat) (casesText ty cases ++ s) = none := by
  induction cases with
  | nil => exact h
  | cons c cs ih =>
    have htail := ih fun c' hc' => hlabels c' (List.mem_cons_of_mem _ hc')
    rw [casesText, List.flatMap_cons, List.append_assoc]
    exact absent_case (hlabels c (by simp)) hd htail

theorem absent_head {ty : IntTy} {cond default : Text} (hcond : ' ' ∉ cond) (hdefault : ' ' ∉ default) {d : Char}
    (hd : d = '=' ∨ d = ']') {pat s : Text} (h : search (' ' :: d :: pat) s = none) :
    search (' ' :: d :: pat) (switchHead ty cond default s) = none := by
  have hne : ∀ e : Char, e ≠ '=' → e ≠ ']' → e ≠ d := fun e h₁ h₂ he => by
    rcases hd with rfl | rfl
    · exact h₁ he
    · exact h₂ he
  have hopen : search (' ' :: d :: pat) (' ' :: '[' :: s) = none :=
    absent_blank (hne _ (by decide) (by decide)) (absent_word (w := ['[']) (by decide) h)
  have hdef : search (' ' :: d :: pat) (' ' :: ('%' :: default ++ ' ' :: '[' :: s)) = none :=
    absent_blank (hne _ (by decide) (by decide)) (absent_word (w := '%' :: default) (by simp [hdefault]) hopen)
  have hlabel : search (' ' :: d :: pat) (' ' :: ("label".toList ++ ' ' :: ('%' :: default ++ ' ' :: '[' :: s))) =
    none :=
    absent_blank (hne _ (by decide) (by decide)) (absent_word (w := "label".toList) (by decide) hdef)
  have hreg : search (' ' :: d :: pat) (' ' :: ('%' :: cond ++ ',' :: ' ' :: ("label".toList ++ ' ' ::
      ('%' :: default ++ ' ' :: '[' :: s)))) = none :=
    absent_blank (hne _ (by decide) (by decide)) (absent_word (w := '%' :: cond) (by simp [hcond])
      (absent_word (w := [',']) (by decide) hlabel))
  have hty : search (' ' :: d :: pat) (' ' :: (ty.text ++ ' ' :: ('%' :: cond ++ ',' :: ' ' :: ("label".toList ++ ' ' ::
      ('%' :: default ++ ' ' :: '[' :: s))))) = none := by
    obtain ⟨t, ht⟩ := type_head ty
    have hrest := absent_word (blank_not_mem_type ty) hreg
    rw [ht] at hrest ⊢
    exact absent_blank (hne _ (by decide) (by decide)) hrest
  exact absent_blank (hne ' ' (by decide) (by decide)) (absent_blank (hne _ (by decide) (by decide))
    (absent_word (w := "switch".toList) (by decide) hty))

theorem joinSwitch_lines {ty : IntTy} {cases : List Case} (hlabels : ∀ c ∈ cases, ' ' ∉ c.label) (after : List Text)
    {line : Text} (hline : search [' ', ']'] line = none) (u : Text) :
    joinSwitch (switchLines ty cases after) line u = some (u ++ line ++ casesText ty cases ++ [' ', ']'], after) := by
  induction cases generalizing line u with
  | nil =>
    have hlast : (search [' ', ']'] [' ', ' ', ']']).isSome = true := by decide
    simp only [switchLines, List.map_nil, List.nil_append, joinSwitch, hline, Option.isSome_none, Bool.false_eq_true,
      if_false]
    cases after with
    | nil => simp [joinSwitch, hlast, casesText]
    | cons next rest => simp [joinSwitch, hlast, casesText]
  | cons c cs ih =>
    have hcase : search [' ', ']'] (c.line ty) = none := by
      have h : search [' ', ']'] (c.line ty ++ []) = none :=
        absent_case (hlabels c (by simp)) (.inr rfl) (show search [' ', ']'] [] = none by decide)
      rwa [List.append_nil] at h
    have htail := ih (fun c' hc' => hlabels c' (List.mem_cons_of_mem _ hc')) hcase (u ++ line)
    have hstep : joinSwitch (switchLines ty (c :: cs) after) line u =
        joinSwitch (switchLines ty cs after) (c.line ty) (u ++ line) := by
      show joinSwitch (c.line ty :: switchLines ty cs after) line u = _
      rw [joinSwitch, hline]
      rfl
    rw [hstep, htail]
    simp [casesText]

/-! ## Reading the cases -/

theorem not_mem_type (ty : IntTy) {c : Char} (hc : c.isDigit = false) (hi : c ≠ 'i') : c ∉ ty.text := by
  intro h
  cases ty <;> simp only [IntTy.text] at h <;> simp [hi] at h <;> rcases h with rfl | rfl <;> simp at hc

theorem find_at {g u s t : Text} {c : Char} {pos : Nat} (hg : g = u ++ (s ++ c :: t)) (hpos : pos = u.length)
    (h : c ∉ s) : find g c pos = some (pos + s.length) := by
  subst hg hpos
  exact find_drop h

theorem upTo_at {g u s t : Text} {c : Char} {pos : Nat} (hg : g = u ++ (s ++ c :: t)) (hpos : pos = u.length)
    (h : c ∉ s) : upTo g pos c = s := by
  rw [upTo, find_at hg hpos h]
  subst hg hpos
  simp [substr]

/-- Behind a label with an `i` the value that is read is 0: the text of the type stands where the number is expected. -/
theorem strtol_type (ty : IntTy) (s : Text) : strtol (' ' :: ' ' :: ' ' :: (ty.text ++ s)) = 0 := by
  obtain ⟨t, ht⟩ := type_head ty
  have hdrop : (' ' :: ' ' :: ' ' :: (ty.text ++ s)).dropWhile isSpace = 'i' :: (t ++ s) := by
    rw [ht]
    rfl
  have hscan : scan (' ' :: ' ' :: ' ' :: (ty.text ++ s)) = (false, []) := by
    rw [scan, hdrop]
    rfl
  rw [strtol, hscan]
  decide

/-- Where the value of the next case is looked for, from the label before. -/
theorem valuePos_eq {g u p t : Text} {ty : IntTy}
    (hg : g = u ++ (p ++ (' ' :: ' ' :: ' ' :: ' ' :: (ty.text ++ ' ' :: t))))
    (hp : ' ' ∉ p) :
    ((find g 'i' u.length).bind fun k => find g ' ' k).elim 0 (· + 1) =
      if 'i' ∈ p then u.length + p.length + 1 else u.length + p.length + 4 + ty.text.length + 1 := by
  by_cases hi : 'i' ∈ p
  · obtain ⟨p₁, p₂, rfl, hp₁⟩ := List.eq_append_cons_of_mem hi
    have hfirst : find g 'i' u.length = some (u.length + p₁.length) :=
      find_at (hg.trans (by rw [List.append_assoc, List.cons_append])) rfl hp₁
    have hblank : find g ' ' (u.length + p₁.length) = some (u.length + p₁.length + ('i' :: p₂).length) := by
      simp only [List.mem_append, not_or] at hp
      exact find_at (u := u ++ p₁) (t := ' ' :: ' ' :: ' ' :: (ty.text ++ ' ' :: t)) (hg.trans (by simp)) (by simp) hp.2
    rw [if_pos hi, hfirst, Option.bind_some, hblank, Option.elim_some, List.length_append]
    omega
  · obtain ⟨t', ht'⟩ := type_head ty
    have hfirst : find g 'i' u.length = some (u.length + (p ++ [' ', ' ', ' ', ' ']).length) :=
      find_at (t := t' ++ ' ' :: t) (hg.trans (by simp [ht'])) rfl (by simp [hi])
    have hblank : find g ' ' (u.length + (p ++ [' ', ' ', ' ', ' ']).length) =
        some (u.length + (p ++ [' ', ' ', ' ', ' ']).length + ty.text.length) :=
      find_at (u := u ++ (p ++ [' ', ' ', ' ', ' '])) (t := t) (hg.trans (by simp)) (by simp) (blank_not_mem_type ty)
    rw [if_neg hi, hfirst, Option.bind_some, hblank, Option.elim_some, List.length_append]
    rfl

/-- **The cases as the loop reads them**, from the label `p` on. -/
theorem caseLoop_cases {ty : IntTy} {g : Text} (cases : List Case) (hplain : ∀ c ∈ cases, c.Plain) (u p : Text)
    (hp : ' ' ∉ p) (hpercent : '%' ∉ p) (hg : g = u ++ (p ++ (casesText ty cases ++ [' ', ']']))) :
    caseLoop g cases.length u.length = readCases p cases := by
  induction cases generalizing u p with
  | nil => rfl
  | cons c cs ih =>
    obtain ⟨hblank, hlabel, -, -⟩ := hplain c (by simp)
    obtain ⟨t, ht⟩ : ∃ t, casesText ty cs ++ [' ', ']'] = ' ' :: t := by
      cases cs with
      | nil => exact ⟨_, rfl⟩
      | cons c' cs => exact ⟨_, rfl⟩
    have hcase : g = u ++ (p ++ (' ' :: ' ' :: ' ' :: ' ' :: (ty.text ++ ' ' :: (c.value.text ++ ',' :: ' ' ::
        ("label".toList ++ ' ' :: '%' :: (c.label ++ ' ' :: t)))))) := by
      rw [hg, casesText, List.flatMap_cons, List.append_assoc, ← casesText, ht]
      simp [Case.line]
    have hpos := valuePos_eq hcase hp
    -- where the label starts, from either position of the value
    have hnext :
        find g '%' (if 'i' ∈ p then u.length + p.length + 1 else u.length + p.length + 4 + ty.text.length + 1) =
        some (u.length + p.length + 4 + ty.text.length + 1 + c.value.text.length + 8) := by
      by_cases hi : 'i' ∈ p
      · have h := find_at (u := u ++ (p ++ [' '])) (s := ' ' :: ' ' :: ' ' :: (ty.text ++ ' ' :: (c.value.text ++
          ',' :: ' ' :: ("label".toList ++ [' '])))) (t := c.label ++ ' ' :: t) (c := '%') (hcase.trans (by simp)) rfl
          (by simp [not_mem_literal, not_mem_type])
        have hlen : (u ++ (p ++ [' '])).length = u.length + p.length + 1 := by
          simp
          omega
        rw [if_pos hi, ← hlen, h]
        simp
        omega
      · have h := find_at (u := u ++ (p ++ (' ' :: ' ' :: ' ' :: ' ' :: (ty.text ++ [' '])))) (s := c.value.text ++
          ',' :: ' ' :: ("label".toList ++ [' '])) (t := c.label ++ ' ' :: t) (c := '%') (hcase.trans (by simp)) rfl
          (by simp [not_mem_literal])
        have hlen : (u ++ (p ++ (' ' :: ' ' :: ' ' :: ' ' :: (ty.text ++ [' '])))).length =
            u.length + p.length + 4 + ty.text.length + 1 := by
          simp
          omega
        rw [if_neg hi, ← hlen, h]
        simp
        omega
    have hvalue : BitVec.ofInt 32 (strtol (upTo g
        (if 'i' ∈ p then u.length + p.length + 1 else u.length + p.length + 4 + ty.text.length + 1) ',')) =
          readValue p c := by
      by_cases hi : 'i' ∈ p
      · have h := upTo_at (u := u ++ (p ++ [' '])) (s := ' ' :: ' ' :: ' ' :: (ty.text ++ ' ' :: c.value.text))
          (t := ' ' :: ("label".toList ++ ' ' :: '%' :: (c.label ++ ' ' :: t))) (c := ',') (hcase.trans (by simp)) rfl
          (by simp [not_mem_literal, not_mem_type])
        have hlen : (u ++ (p ++ [' '])).length = u.length + p.length + 1 := by
          simp
          omega
        rw [if_pos hi, ← hlen, h, strtol_type, readValue, if_pos hi]
        decide
      · have h := upTo_at (u := u ++ (p ++ (' ' :: ' ' :: ' ' :: ' ' :: (ty.text ++ [' '])))) (s := c.value.text)
          (t := ' ' :: ("label".toList ++ ' ' :: '%' :: (c.label ++ ' ' :: t))) (c := ',') (hcase.trans (by simp)) rfl
          (by simp [not_mem_literal])
        have hlen : (u ++ (p ++ (' ' :: ' ' :: ' ' :: ' ' :: (ty.text ++ [' '])))).length =
            u.length + p.length + 4 + ty.text.length + 1 := by
          simp
          omega
        rw [if_neg hi, ← hlen, h, readValue, if_neg hi]
    have htext : upTo g (u.length + p.length + 4 + ty.text.length + 1 + c.value.text.length + 8 + 1) ' ' = c.label :=
      upTo_at (u := u ++ (p ++ (' ' :: ' ' :: ' ' :: ' ' :: (ty.text ++ ' ' :: (c.value.text ++ ',' :: ' ' ::
        ("label".toList ++ [' ', '%'])))))) (t := t) (hcase.trans (by simp)) (by simp; omega) hblank
    have hrest := ih (fun c' hc' => hplain c' (List.mem_cons_of_mem _ hc'))
      (u ++ (p ++ (' ' :: ' ' :: ' ' :: ' ' :: (ty.text ++ ' ' :: (c.value.text ++ ',' :: ' ' ::
        ("label".toList ++ [' ', '%'])))))) c.label hblank hlabel (by rw [ht, hcase]; simp)
    have hlen : (u ++ (p ++ (' ' :: ' ' :: ' ' :: ' ' :: (ty.text ++ ' ' :: (c.value.text ++ ',' :: ' ' ::
        ("label".toList ++ [' ', '%'])))))).length =
          u.length + p.length + 4 + ty.text.length + 1 + c.value.text.length + 8 + 1 := by
      simp
      omega
    rw [hlen] at hrest
    simp only [List.length_cons, caseLoop, readCases, hpos, hnext, Option.elim_some, hvalue, htext, hrest]

/-- The text of the cases in brackets, the sixth parameter. -/
def groupText (ty : IntTy) (cases : List Case) : Text := '[' :: (casesText ty cases ++ [' ', ']'])

theorem count_casesText (ty : IntTy) {cases : List Case} (hplain : ∀ c ∈ cases, c.Plain) :
    (casesText ty cases).count '%' = cases.length := by
  induction cases with
  | nil => rfl
  | cons c cs ih =>
    have hlabel := (hplain c (by simp)).2.1
    have htail := ih fun c' hc' => hplain c' (List.mem_cons_of_mem _ hc')
    have hty : ty.text.count '%' = 0 := List.count_eq_zero.mpr (not_mem_type ty (by decide) (by decide))
    have hlit : c.value.text.count '%' = 0 := List.count_eq_zero.mpr (not_mem_literal _ (by decide) (by decide))
    have hlab : c.label.count '%' = 0 := List.count_eq_zero.mpr hlabel
    rw [casesText, List.flatMap_cons, List.count_append, ← casesText, htail]
    simp [Case.line, hty, hlit, hlab]
    omega

theorem bracket_not_mem_cases (ty : IntTy) {cases : List Case} (hplain : ∀ c ∈ cases, c.Plain) :
    '[' ∉ casesText ty cases ∧ ']' ∉ casesText ty cases := by
  have hnot : ∀ e : Char, e.isDigit = false → e ∉ ['i', '-', ' ', ',', 'l', 'a', 'b', 'e', '%'] →
      (∀ c ∈ cases, e ∉ c.label) → e ∉ casesText ty cases := by
    intro e hdigit he hlabels hm
    simp only [List.mem_cons, List.not_mem_nil, or_false, not_or] at he
    obtain ⟨hi, hminus, hblank, hcomma, hl, ha, hb, hee, hpercent⟩ := he
    rw [casesText, List.mem_flatMap] at hm
    obtain ⟨c, hc, hm⟩ := hm
    simp [Case.line, not_mem_literal _ hdigit hminus, not_mem_type ty hdigit hi, hlabels c hc, hblank,
      hcomma, hl, ha, hb, hee, hpercent] at hm
  exact ⟨hnot '[' (by decide) (by decide) fun c hc => (hplain c hc).2.2.1,
    hnot ']' (by decide) (by decide) fun c hc => (hplain c hc).2.2.2⟩

/-- The instruction of a joined line. -/
def LLVMSwitch.ofCases (ty : IntTy) (cond default : Text) (cases : List Case) : LLVMSwitch where
  returnType := ty.text
  condition := cond
  branches := default :: (readCases ['['] cases).map (·.2)
  caseValues := 0 :: (readCases ['['] cases).map (·.1)

theorem parse_switch (ty : IntTy) {cond default : Text} {cases : List Case} (hcond : IsName cond)
    (hdefault : IsName default)
    (hplain : ∀ c ∈ cases, c.Plain) :
    ∃ l, parseLine (switchHead ty cond default (casesText ty cases ++ [' ', ']'])) = some l ∧
    l.opCode = "switch".toList ∧
      LLVMSwitch.parse l = .ok (.ofCases ty cond default cases) := by
  have hbrackets := bracket_not_mem_cases ty hplain
  have hgroup : IsGroup '[' ']' (groupText ty cases) :=
    ⟨rfl, by decide, casesText ty cases ++
    [' '], by simp [groupText], by simp [hbrackets], by simp [hbrackets], by decide⟩
  have hwritten : Written [ty.text, '%' :: cond, "label".toList, '%' :: default, groupText ty cases]
      (ty.text ++ ' ' :: ('%' :: cond ++ ',' :: ' ' :: ("label".toList ++ ' ' :: ('%' :: default ++ ' ' ::
        groupText ty cases)))) :=
    .word (isWord_type ty) (.inl rfl) (.word ⟨rfl, by decide, hcond.1, hcond.2⟩ (.inr rfl) (.skip (.inl rfl)
      (.word ⟨rfl, by decide, by decide, by decide⟩ (.inl rfl)
        (.word ⟨rfl, by decide, hdefault.1, hdefault.2⟩ (.inl rfl)
        (.group hgroup)))))
  have hassign : search assignment (switchHead ty cond default (casesText ty cases ++ [' ', ']'])) = none :=
    absent_head hcond.1 hdefault.1 (.inl rfl)
      (absent_cases (fun c hc => (hplain c hc).1) (.inl rfl) (show search assignment [' ', ']'] = none by decide))
  have hop : IsWord "switch".toList := ⟨rfl, by decide, by decide, by decide⟩
  refine ⟨_, parseLine_plain hop hassign hwritten, rfl, ?_⟩
  have hcount : (groupText ty cases).count '%' = cases.length := by
    rw [groupText, List.count_cons, List.count_append, count_casesText ty hplain]
    rfl
  have hloop : caseLoop (groupText ty cases) cases.length 0 = readCases ['['] cases :=
    caseLoop_cases cases hplain [] ['['] (by decide) (by decide) rfl
  simp only [LLVMSwitch.parse, parameter, bind, Except.bind, pure, Except.pure, List.getElem?_cons_succ,
    List.getElem?_cons_zero, hcount, hloop]
  rfl

/-! ## Dispatch -/

theorem target_cons {N : Nat} (default : Text) (x v : BitVec N) (b : Text) (cases : List (BitVec N × Text)) :
    target default x ((v, b) :: cases) = if v = x then b else target default x cases := by
  by_cases h : v = x <;> simp [target, h]

/-- The loop of `compute()` takes the first case with the value of the condition. -/
theorem compare_target {i : LLVMSwitch} {default : Text} (hdefault : i.branches[0]? = some default) (main : Word)
    (cases : List (BitVec 32 × Text)) (k : Nat)
    (hcases : ∀ m v b, cases[m]? = some (v, b) → i.caseValues[k + m]? = some v ∧ i.branches[k + m]? = some b) :
    i.compare main cases.length k = .ok (target default main (cases.map fun c => (c.1.signExtend 64, c.2))) := by
  induction cases generalizing k with
  | nil => simp [LLVMSwitch.compare, LLVMSwitch.branchAt, hdefault, target]
  | cons c cs ih =>
    obtain ⟨v, b⟩ := c
    obtain ⟨hv, hb⟩ := hcases 0 v b rfl
    rw [Nat.add_zero] at hv hb
    have htail := ih (k + 1) fun m v' b' hm => by
      rw [Nat.add_assoc, Nat.add_comm 1 m]
      exact hcases (m + 1) v' b' hm
    rw [List.length_cons, LLVMSwitch.compare, hv, List.map_cons, target_cons]
    by_cases heq : main = v.signExtend 64
    · simp only [heq, if_true, LLVMSwitch.branchAt, hb]
    · simp only [heq, Ne.symm heq, if_false, htail]

/-- The values of the cases as numbers of the type. -/
def valuesOf (N : Nat) (cases : List Case) : List (BitVec N × Text) :=
  cases.map fun c => (BitVec.ofInt N c.value.value, c.label)

/-- The cases that are compared with the zero-extended condition. -/
def comparedCases (cases : List Case) : List (Word × Text) :=
    (readCases ['['] cases).map fun c => (c.1.signExtend 64, c.2)

/-- **The destination is the one of LLVM exactly when the values as they are read lead there.** -/
theorem switch_dispatched (ty : IntTy) {cond default : Text} {cases : List Case} (hcond : IsName cond)
    (hdefault : IsName default) (hplain : ∀ c ∈ cases, c.Plain) (after : List Text) :
    ∃ line l i, instructionLine (switchHead ty cond default []) (switchLines ty cases after) = some (line, after) ∧
      parseLine line = some l ∧ l.opCode = "switch".toList ∧ LLVMSwitch.parse l = .ok i ∧
      ∀ regs : Regs, (Operand.reg cond).Held ty.bits regs →
        (i.exec regs = .ok (target default ((Operand.reg cond).read ty.bits regs) (valuesOf ty.bits cases)) ↔
          target default (((Operand.reg cond).read ty.bits regs).setWidth 64) (comparedCases cases) =
            target default ((Operand.reg cond).read ty.bits regs) (valuesOf ty.bits cases)) := by
  obtain ⟨l, hline, hop, hparse⟩ := parse_switch ty hcond hdefault hplain
  refine ⟨_, l, _, ?_, hline, hop, hparse, fun regs hheld => ?_⟩
  · have hswitch : (search "switch".toList (switchHead ty cond default [])).isSome = true := by
      have hhead := search_self "switch".toList (' ' :: (ty.text ++ ' ' :: ('%' :: cond ++ ',' :: ' ' ::
        ("label".toList ++ ' ' :: ('%' :: default ++ [' ', '['])))))
      rw [switchHead]
      have hskip : ∀ s, search "switch".toList (' ' :: s) = (search "switch".toList s).map (· + 1) := fun s =>
        search_cons_of_ne s (by decide)
      rfl
    have hopen : search [' ', ']'] (switchHead ty cond default []) = none :=
      absent_head hcond.1 hdefault.1 (.inr rfl) (show search [' ', ']'] [] = none by decide)
    rw [instructionLine, if_pos hswitch, joinSwitch_lines (fun c hc => (hplain c hc).1) after hopen]
    simp [switchHead]
  · have hvalue := value_eq_read hheld
    have hmain : (LLVMSwitch.ofCases ty cond default cases).exec regs =
        .ok (target default (((Operand.reg cond).read ty.bits regs).setWidth 64) (comparedCases cases)) := by
      have hcompare : (LLVMSwitch.ofCases ty cond default cases).compare (regs cond).value
        (readCases ['['] cases).length 1 =
          .ok (target default (regs cond).value (comparedCases cases)) := by
        refine compare_target rfl _ _ 1 fun m v b hm => ?_
        rw [Nat.add_comm 1 m]
        simp [LLVMSwitch.ofCases, hm]
      have hexec : (LLVMSwitch.ofCases ty cond default cases).exec regs =
          (LLVMSwitch.ofCases ty cond default cases).compare (regs cond).value (readCases ['['] cases).length 1 := by
        simp [LLVMSwitch.exec, LLVMSwitch.compute, LLVMSwitch.ofCases, opAt, bind, Except.bind]
      rw [hexec, hcompare, hvalue]
    rw [hmain, Except.ok.injEq]

/-- The registers hold 2. -/
def twoRegs : Regs := fun _ => ⟨2, 4⟩

theorem isDigit_two : ∀ c ∈ ['2'], c.isDigit = true := fun c hc => by
  rw [List.mem_singleton.mp hc]
  rfl

theorem two_ne_nil : ['2'] ≠ [] := List.cons_ne_nil _ _

/-- Two cases, with these labels. -/
def twoCases (first second : Text) : List Case :=
  [⟨⟨false, ['1'], isDigit_one, one_ne_nil⟩, first⟩, ⟨⟨false, ['2'], isDigit_two, two_ne_nil⟩, second⟩]

theorem twoCases_plain {first second : Text} (h₁ : ∀ c ∈ [' ', '%', '[', ']'], c ∉ first)
    (h₂ : ∀ c ∈ [' ', '%', '[', ']'], c ∉ second) : ∀ c ∈ twoCases first second, c.Plain := by
  intro c hc
  simp only [twoCases, List.mem_cons, List.not_mem_nil, or_false] at hc
  rcases hc with rfl | rfl
  · exact ⟨h₁ _ (by simp), h₁ _ (by simp), h₁ _ (by simp), h₁ _ (by simp)⟩
  · exact ⟨h₂ _ (by simp), h₂ _ (by simp), h₂ _ (by simp), h₂ _ (by simp)⟩

/-- `switch i32 %x, label %d [ i32 1, label %a   i32 2, label %b ]` goes to `b` for 2. -/
theorem switch_dispatched_plain : ∃ line l i,
    instructionLine (switchHead .i32 ['x'] ['d'] []) (switchLines .i32 (twoCases ['a'] ['b']) []) = some (line, []) ∧
      parseLine line = some l ∧ l.opCode = "switch".toList ∧ LLVMSwitch.parse l = .ok i ∧
      i.exec twoRegs = .ok ['b'] := by
  obtain ⟨line, l, i, hjoin, hline, hop, hparse, hexec⟩ :=
    switch_dispatched .i32 (show IsName ['x'] from ⟨by decide, by decide⟩)
    (show IsName ['d'] from ⟨by decide, by decide⟩) (twoCases_plain (show ∀ c ∈ [' ', '%', '[', ']'], c ∉ ['a'] by simp)
      (show ∀ c ∈ [' ', '%', '[', ']'], c ∉ ['b'] by simp)) []
  have hdest := (hexec twoRegs (show _ < _ by decide)).mpr (by decide)
  exact ⟨line, l, i, hjoin, hline, hop, hparse, hdest.trans (by decide)⟩

/-- With the label `if` in place of `a`, 2 goes to the default label. -/
theorem label_with_i : ¬ ∀ (ty : IntTy) (cond default : Text) (cases : List Case), IsName cond → IsName default →
    (∀ c ∈ cases, c.Plain) → ∀ after : List Text,
    ∃ line l i, instructionLine (switchHead ty cond default []) (switchLines ty cases after) = some (line, after) ∧
      parseLine line = some l ∧ l.opCode = "switch".toList ∧ LLVMSwitch.parse l = .ok i ∧
      ∀ regs : Regs, (Operand.reg cond).Held ty.bits regs →
        i.exec regs = .ok (target default ((Operand.reg cond).read ty.bits regs) (valuesOf ty.bits cases)) := by
  intro h
  have hplain := twoCases_plain (show ∀ c ∈ [' ', '%', '[', ']'], c ∉ ['i', 'f'] by simp)
    (show ∀ c ∈ [' ', '%', '[', ']'], c ∉ ['b'] by simp)
  obtain ⟨line, l, i, hjoin, hline, -, hparse, hexec⟩ :=
    h .i32 ['x'] ['d'] _ ⟨by decide, by decide⟩ ⟨by decide, by decide⟩
    hplain []
  obtain ⟨line', l', i', hjoin', hline', -, hparse', hexec'⟩ := switch_dispatched .i32
    (show IsName ['x'] from ⟨by decide, by decide⟩) (show IsName ['d'] from ⟨by decide, by decide⟩) hplain []
  cases hjoin.symm.trans hjoin'
  cases hline.symm.trans hline'
  cases hparse.symm.trans hparse'
  have hheld : (Operand.reg ['x']).Held IntTy.i32.bits twoRegs := show _ < _ by decide
  exact absurd ((hexec' twoRegs hheld).mp (hexec twoRegs hheld)) (by decide)

end Salam.Ir
