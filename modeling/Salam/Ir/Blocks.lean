import Salam.Ir.Switch

/-!
# Basic blocks

How `constructBBList` cuts the text of a function into basic blocks. The lines of a block are told apart by what they
contain anywhere: a line with `; preds` starts a block, and one with `switch` is joined with the lines behind it.

* `readBody_instr`, `readBody_label`: exactly when an instruction is handed to `parse`, and a label is read.
* `blocks_constructed`: exactly when the blocks are those of the function.
-/

namespace Salam.Ir

open CString
open List (append_assoc append_nil cons_append length_append mem_cons_of_mem mem_cons_self take_left)

/-! ## The loop -/

/-- A `BasicBlock`: its name, and the lines that `parse` is called with. -/
structure Block where
  name : Text
  lines : List Text
  deriving DecidableEq

/-- `"; <label>:"`. -/
def labelSigil : Text := [';', ' ', '<', 'l', 'a', 'b', 'e', 'l', '>', ':']

/-- `"; preds"`. -/
def predsSigil : Text := [';', ' ', 'p', 'r', 'e', 'd', 's']

/-- `"switch"`. -/
def switchSigil : Text := ['s', 'w', 'i', 't', 'c', 'h']

/-- `" ]"`. -/
def closeSigil : Text := [' ', ']']

/-- `line.find(sigil) != npos`. -/
def contains (sigil line : Text) : Bool := (search sigil line).isSome

/-- The name in a line with `; <label>:`, without the colon that newer versions of LLVM print behind it. -/
def numberedName (line : Text) : Text :=
  match find line ' ' 10 with
  | some labelEnd =>
    let versionCheck := substr line 10 (labelEnd - 10)
    if versionCheck.getLast? = some ':' then substr line 10 (labelEnd - 11) else versionCheck
  | none => line.drop 10

/-- The name in a line with `; preds`: up to the character in front of the first blank. -/
def labelName (line : Text) : Text :=
  match find line ' ' 0 with
  | some (labelEnd + 1) => line.take labelEnd
  | _ => line

/-- What `parse` is called with for the current block, and the blocks behind it. -/
abbrev Body := List Text × List Block

/-- `parse` is called for the current block. -/
def Body.parse (line : Text) (b : Body) : Body := (line :: b.1, b.2)

/-- A block is made, and is the current one from then on. -/
def Body.newBlock (name : Text) (b : Body) : Body := ([], ⟨name, b.1⟩ :: b.2)

/-- The loop inside the function: what the lines are read as. While the lines of a switch are joined, the first argument
holds `concatLine`; `none` stands for a loop that does not end, since the lines have run out. -/
def readBody : Option Text → List Text → Option Body
  | none, [] => some ([], [])
  | some _, [] => none
  | some concatLine, line :: rest =>
    if contains closeSigil line then (readBody none rest).map (.parse (concatLine ++ closeSigil))
    else readBody (some (concatLine ++ line)) rest
  | none, line :: rest =>
    if labelSigil.isPrefixOf line then (readBody none rest).map (.newBlock (numberedName line))
    else if contains predsSigil line then (readBody none rest).map (.newBlock (labelName line))
    else if line.head? = some '}' then some ([], [])
    else if line.all (· == ' ') then readBody none rest
    else if contains switchSigil line then
      if contains closeSigil line then (readBody none rest).map (.parse closeSigil)
      else readBody (some line) rest
    else (readBody none rest).map (.parse line)

/-- The first block: its name is looked for in the line behind the header. -/
def readFunction (lines : List Text) : Option (List Block) :=
  match lines with
  | line :: rest =>
    if ':' ∈ line then (readBody none rest).map fun b => ⟨line.takeWhile (· != ':'), b.1⟩ :: b.2
    else (readBody none lines).map fun b => ⟨['0'], b.1⟩ :: b.2
  | [] => some [⟨['0'], []⟩]

/-- The loop outside the function. -/
def constructBBList : List Text → Option (List Block)
  | [] => some []
  | line :: rest =>
    if ("%struct".toList).isPrefixOf line then constructBBList rest
    else if ("define".toList).isPrefixOf line then readFunction rest
    else constructBBList rest

/-- The opcodes for which `parse` makes a node. -/
def nodeOpCodes : List Text := ["ret".toList, "br".toList, "switch".toList, "add".toList, "fadd".toList, "sub".toList,
  "fsub".toList, "mul".toList, "fmul".toList, "udiv".toList, "sdiv".toList, "fdiv".toList, "urem".toList, "srem".toList,
  "frem".toList, "shl".toList, "lshr".toList, "ashr".toList, "and".toList, "or".toList, "xor".toList, "load".toList,
  "store".toList, "getelementptr".toList, "trunc".toList, "zext".toList, "sext".toList, "fptoui".toList,
  "fptosi".toList,
  "uitofp".toList, "sitofp".toList, "fptrunc".toList, "fpext".toList, "ptrtoint".toList, "inttoptr".toList,
  "bitcast".toList, "addrspacecast".toList, "icmp".toList, "fcmp".toList, "phi".toList, "select".toList]

/-- `parse` makes a node for the line. -/
def makesNode (line : Text) : Bool := (parseLine line).any fun l => nodeOpCodes.contains l.opCode

/-- `findEntryBB`: the place of the first block with a node; `none` stands for the panic. -/
def findEntryBB (bbList : List Block) : Option Nat := bbList.findIdx? fun b => b.lines.any makesNode

/-! ## Functions as LLVM prints them -/

/-- An instruction: on a line, or on a line and further ones, or a `switch`, whose cases have a line each. -/
inductive Instr
  | plain (head : Text) (more : List Text)
  | switch (head : Text) (cases : List Text) (last : Text)

namespace Instr

/-- The lines. -/
def lines : Instr → List Text
  | plain head more => head :: more
  | switch head cases last => head :: (cases ++ [last])

/-- The first line. -/
def head : Instr → Text
  | plain head _ => head
  | switch head _ _ => head

/-- The instruction on one line. -/
def text : Instr → Text
  | plain head more => (head :: more).flatten
  | switch head cases _ => (head :: cases).flatten ++ closeSigil

/-- The first line starts with two blanks, the lines of a switch that are joined are not empty, the last one has the
closing bracket, and other further lines have an indentation of more than two characters. -/
def Legal : Instr → Prop
  | plain head more => (∃ c s, head = ' ' :: ' ' :: c :: s ∧ c ≠ ' ') ∧ ∀ l ∈ more, 2 < l.length
  | switch head cases last => (∃ c s, head = ' ' :: ' ' :: c :: s ∧ c ≠ ' ') ∧ switchSigil <:+: head ∧
      (∀ l ∈ cases, l ≠ []) ∧
    closeSigil <:+: last

/-- The instruction is on one line, without `; preds` and `switch`, or it is a switch without `; preds` in its first
line and without ` ]` in front of its last one. -/
def Readable : Instr → Prop
  | plain head more => more = [] ∧ ¬ predsSigil <:+: head ∧ ¬ switchSigil <:+: head
  | switch head cases _ => ¬ predsSigil <:+: head ∧ ∀ l ∈ head :: cases, ¬ closeSigil <:+: l

end Instr

/-- A name as LLVM prints it: in quotes, unless it has only these characters. -/
def LabelText (t : Text) : Prop :=
  (t ≠ [] ∧ ∀ c ∈ t, c.isAlphanum ∨ c ∈ ['-', '.', '_', '$']) ∨ ∃ s, t = '"' :: (s ++ ['"'])

/-- The line that starts a block: a number in a comment, in older versions without the colon, or a name. -/
inductive LabelLine
  | comment (n : Nat) (colon : Bool)
  | name (t : Text)

namespace LabelLine

/-- The name of the block. -/
def label : LabelLine → Text
  | comment n _ => Nat.toDigits 10 n
  | name t => t

def front : LabelLine → Text
  | comment n colon => labelSigil ++ (Nat.toDigits 10 n ++ if colon then [':'] else [])
  | name t => t ++ [':']

/-- The line: the label, blanks, and the list of the predecessors. -/
def line (h : LabelLine) (blanks : Nat) (preds : Text) : Text :=
  h.front ++ (List.replicate (blanks + 1) ' ' ++ (predsSigil ++ preds))

def Legal : LabelLine → Prop
  | comment .. => True
  | name t => LabelText t

/-- A name has no blank. -/
def Readable : LabelLine → Prop
  | comment .. => True
  | name t => ' ' ∉ t

end LabelLine

/-- A block behind the entry block. -/
structure LabelledBlock where
  label : LabelLine
  blanks : Nat
  preds : Text
  instrs : List Instr

/-- The lines of a block; an empty line stands in front of it. -/
def LabelledBlock.text (b : LabelledBlock) : List Text :=
    [] :: b.label.line b.blanks b.preds :: b.instrs.flatMap Instr.lines

/-- A file with one function. The entry block has a name, or else a number, which is not printed. -/
structure IrFile where
  before : List Text
  header : Text
  entryName : Option Text
  entryNumber : Nat
  entry : List Instr
  blocks : List LabelledBlock
  after : List Text

namespace IrFile

/-- The lines of the file. -/
def lines (f : IrFile) : List Text :=
  f.before ++ f.header :: ((f.entryName.map (· ++ [':'])).toList ++ (f.entry.flatMap Instr.lines ++
    (f.blocks.flatMap LabelledBlock.text ++ ['}'] :: f.after)))

/-- The label of the entry block. -/
def entryLabel (f : IrFile) : Text := f.entryName.getD (Nat.toDigits 10 f.entryNumber)

/-- The blocks of the function, each with its instructions. -/
def bbList (f : IrFile) : List Block :=
  ⟨f.entryLabel, f.entry.map Instr.text⟩ :: f.blocks.map fun b => ⟨b.label.label, b.instrs.map Instr.text⟩

structure Legal (f : IrFile) : Prop where
  before : ∀ l ∈ f.before, ¬ "define".toList <+: l
  header : "define".toList <+: f.header
  entryName : ∀ t, f.entryName = some t → LabelText t
  entry : f.entry ≠ [] ∧ ∀ i ∈ f.entry, i.Legal
  blocks : ∀ b ∈ f.blocks, b.label.Legal ∧ ∀ i ∈ b.instrs, i.Legal

/-- The name of the entry block has no colon, or else its number is 0 and its first line has no colon; the other labels
have no blank; the instructions can be read; and `parse` makes a node for one of the entry block. -/
structure Readable (f : IrFile) : Prop where
  entryName : ∀ t, f.entryName = some t → ':' ∉ t
  entryNumber : f.entryName = none → f.entryNumber = 0 ∧ ∀ i, f.entry.head? = some i → ':' ∉ i.head
  labels : ∀ b ∈ f.blocks, b.label.Readable
  instrs : ∀ i ∈ f.entry ++ f.blocks.flatMap LabelledBlock.instrs, i.Readable
  node : ∃ i ∈ f.entry, makesNode i.text = true

end IrFile

/-! ## Searches -/

theorem contains_iff (sigil line : Text) : contains sigil line = true ↔ sigil <:+: line := search_isSome_iff sigil line

/-- A line that starts with a blank is no label, and not the end of the function. -/
theorem readBody_indented {c : Char} {s : Text} (hc : c ≠ ' ') (rest : List Text) :
    readBody none ((' ' :: ' ' :: c :: s) :: rest) =
      if contains predsSigil (' ' :: ' ' :: c :: s) then
        (readBody none rest).map (.newBlock (labelName (' ' :: ' ' :: c :: s)))
      else if contains switchSigil (' ' :: ' ' :: c :: s) then
        if contains closeSigil (' ' :: ' ' :: c :: s) then (readBody none rest).map (.parse closeSigil)
        else readBody (some (' ' :: ' ' :: c :: s)) rest
          else (readBody none rest).map (.parse (' ' :: ' ' :: c :: s)) := by
  have hlabel : labelSigil.isPrefixOf (' ' :: ' ' :: c :: s) = false := rfl
  have hblank : (' ' :: ' ' :: c :: s).all (· == ' ') = false := by simp [hc]
  rw [readBody, hlabel, hblank]
  rfl

variable {b : Body}

/-- The lines that are joined: those up to the first one with ` ]`. -/
theorem readBody_join {u : Text} {lines : List Text} (h : readBody (some u) lines = some b) : ∃ k l b',
    lines[k]? = some l ∧ closeSigil <:+: l ∧ (∀ l' ∈ lines.take k, ¬ closeSigil <:+: l') ∧
      readBody none (lines.drop (k + 1)) = some b' ∧ b = b'.parse (u ++ (lines.take k).flatten ++ closeSigil) := by
  induction lines generalizing u with
  | nil => cases h
  | cons line rest ih =>
    rw [readBody] at h
    split at h
    · rename_i hclose
      obtain ⟨b', hb', rfl⟩ := Option.map_eq_some_iff.mp h
      refine ⟨0, line, b', rfl, (contains_iff _ _).mp hclose, by simp, hb', by simp⟩
    · rename_i hclose
      obtain ⟨k, l, b', hl, hcl, hnone, hb', rfl⟩ := ih h
      refine ⟨k + 1, l, b', hl, hcl, ?_, hb', by simp⟩
      intro l' hl'
      rw [List.take_succ_cons, List.mem_cons] at hl'
      rcases hl' with rfl | hl'
      · exact fun hin => hclose ((contains_iff _ _).mpr hin)
      · exact hnone l' hl'

/-- The lines of a switch are joined up to its last one. -/
theorem readBody_cases {cases : List Text} (hcases : ∀ l ∈ cases, ¬ closeSigil <:+: l) {last : Text}
    (hlast : closeSigil <:+: last) (u : Text) (rest : List Text) : readBody (some u) (cases ++ last :: rest) =
      (readBody none rest).map (.parse (u ++ cases.flatten ++ closeSigil)) := by
  induction cases generalizing u with
  | nil =>
    rw [List.nil_append, readBody, if_pos ((contains_iff _ _).mpr hlast), List.flatten_nil, append_nil]
  | cons l ls ih =>
    have hl : ¬ contains closeSigil l = true := fun h => hcases l (mem_cons_self ..) ((contains_iff _ _).mp h)
    rw [cons_append, readBody, if_neg hl, ih fun l' hl' => hcases l' (mem_cons_of_mem _ hl'), List.flatten_cons,
      append_assoc u]

/-! ## Lengths -/

section Lengths

variable {ls rest : List Text} {l : Text} {k : Nat}

theorem length_take_lt (h : ls[k]? = some l) : (ls.take k).flatten.length + l.length ≤ ls.flatten.length := by
  have hsplit : ls.flatten = (ls.take (k + 1)).flatten ++ (ls.drop (k + 1)).flatten := by
    rw [← List.flatten_append, List.take_append_drop]
  rw [hsplit, List.take_add_one, h, length_append, List.flatten_append, length_append]
  simp

theorem length_le_take (rest : List Text) (hk : ls.length ≤ k) :
    ls.flatten.length ≤ ((ls ++ rest).take k).flatten.length := by
  rw [List.take_append, List.take_of_length_le hk, List.flatten_append, length_append]
  exact Nat.le_add_right _ _

/-- Joined lines with a bracket behind them are not the lines of an instruction without one. -/
theorem joined_ne (rest : List Text) (hls : ∀ l ∈ ls, 2 < l.length) (h : (ls ++ rest)[k]? = some l) :
    ls.flatten ≠ ((ls ++ rest).take k).flatten ++ closeSigil := by
  intro heq
  have hlen := congrArg List.length heq
  rw [length_append, show closeSigil.length = 2 from rfl] at hlen
  by_cases hk : k < ls.length
  · rw [List.getElem?_append_left hk] at h
    have hle := length_take_lt h
    have hl := hls l (List.mem_of_getElem? h)
    rw [List.take_append_of_le_length (Nat.le_of_lt hk)] at hlen
    omega
  · have hle := length_le_take rest (Nat.le_of_not_lt hk)
    omega

/-- Lines that are not empty are joined as a whole only if all of them are. -/
theorem joined_eq (hls : ∀ l ∈ ls, l ≠ []) (hl : l ≠ []) (h : ls.flatten = ((ls ++ l :: rest).take k).flatten) :
    k = ls.length := by
  have hlen := congrArg List.length h
  rcases Nat.lt_trichotomy k ls.length with hk | hk | hk
  · have hle := length_take_lt (List.getElem?_eq_getElem hk)
    have hpos := List.length_pos_iff.mpr (hls _ (List.getElem_mem hk))
    rw [List.take_append_of_le_length (Nat.le_of_lt hk)] at hlen
    omega
  · exact hk
  · obtain ⟨d, rfl⟩ := Nat.exists_eq_add_of_lt hk
    have hpos := List.length_pos_iff.mpr hl
    rw [List.take_append, List.take_of_length_le (Nat.le_of_lt hk), List.flatten_append, length_append,
      show ls.length + d + 1 - ls.length = d + 1 by omega, List.take_succ_cons, List.flatten_cons,
      length_append] at hlen
    omega

end Lengths

/-! ## Instructions and labels -/

variable {t t' : Text}

theorem Body.parse_inj {b b' : Body} : b.parse t = b'.parse t' ↔ t = t' ∧ b = b' := by
  obtain ⟨is, bs⟩ := b
  obtain ⟨is', bs'⟩ := b'
  simp [Body.parse, and_assoc]

theorem Body.newBlock_inj {b b' : Body} : b.newBlock t = b'.newBlock t' ↔ t = t' ∧ b = b' := by
  obtain ⟨is, bs⟩ := b
  obtain ⟨is', bs'⟩ := b'
  simp [Body.newBlock, and_assoc]

variable {r : Option Body}

theorem map_parse_iff : r.map (.parse t) = some (b.parse t') ↔ t = t' ∧ r = some b := by
  cases r with
  | none => simp
  | some b' => simp [Body.parse_inj]

theorem map_newBlock_iff : r.map (.newBlock t) = some (b.newBlock t') ↔ t = t' ∧ r = some b := by
  cases r with
  | none => simp
  | some b' => simp [Body.newBlock_inj]

theorem map_newBlock_ne : r.map (.newBlock t) ≠ some (b.parse t') := by
  cases r with
  | none => simp
  | some b' => simp [Body.newBlock, Body.parse]

/-- **An instruction is handed to `parse`, on one line, exactly if it can be read.** -/
theorem readBody_instr {i : Instr} (hi : i.Legal) (rest : List Text) (b : Body) :
    readBody none (i.lines ++ rest) = some (b.parse i.text) ↔ i.Readable ∧ readBody none rest = some b := by
  cases i with
  | plain head more =>
    obtain ⟨⟨c, s, rfl, hc⟩, hmore⟩ := hi
    rw [Instr.lines, cons_append, readBody_indented hc]
    generalize hhead : ' ' :: ' ' :: c :: s = head at *
    have hlen : 2 < head.length := by simp [← hhead]
    split
    · rename_i hpreds
      refine iff_of_false map_newBlock_ne fun h => h.1.2.1 ((contains_iff _ _).mp hpreds)
    · rename_i hpreds
      split
      · rename_i hswitch
        refine iff_of_false (fun h => ?_) fun h => h.1.2.2 ((contains_iff _ _).mp hswitch)
        have hall : ∀ l ∈ head :: more, 2 < l.length := by simpa using ⟨hlen, hmore⟩
        split at h
        · have heq := (map_parse_iff.mp h).1
          refine joined_ne rest hall (show (head :: more ++ rest)[0]? = some head from rfl) ?_
          exact heq.symm
        · obtain ⟨k, l, b', hl, -, -, -, heq⟩ := readBody_join h
          have htext := (Body.parse_inj.mp heq).1
          have hl' : (head :: more ++ rest)[k + 1]? = some l := by simpa using hl
          refine joined_ne rest hall hl' ?_
          exact htext
      · rename_i hswitch
        rw [map_parse_iff]
        rw [contains_iff] at hpreds hswitch
        constructor
        · rintro ⟨heq, hb⟩
          have hnil : more = [] := by
            have hflat : more.flatten = [] := by
              exact List.append_right_eq_self.mp heq.symm
            refine List.eq_nil_iff_forall_not_mem.mpr fun l hl => ?_
            have := hmore l hl
            rw [List.flatten_eq_nil_iff.mp hflat l hl] at this
            cases this
          rw [hnil] at hb
          exact ⟨⟨hnil, hpreds, hswitch⟩, hb⟩
        · rintro ⟨⟨rfl, -, -⟩, hb⟩
          exact ⟨by simp [Instr.text], hb⟩
  | switch head cases last =>
    obtain ⟨⟨c, s, rfl, hc⟩, hswitch, hcases, hlast⟩ := hi
    rw [Instr.lines, cons_append, readBody_indented hc]
    generalize hhead : ' ' :: ' ' :: c :: s = head at *
    have hne : head ≠ [] := by simp [← hhead]
    have hlastne : last ≠ [] := by
      rintro rfl
      cases List.infix_nil.mp hlast
    rw [if_pos ((contains_iff _ _).mpr hswitch), append_assoc, List.singleton_append]
    split
    · rename_i hpreds
      exact iff_of_false map_newBlock_ne fun h => h.1.1 ((contains_iff _ _).mp hpreds)
    · rename_i hpreds
      rw [contains_iff] at hpreds
      split
      · rename_i hclose
        refine iff_of_false (fun h => ?_) fun h => h.1.2 head (mem_cons_self ..) ((contains_iff _ _).mp hclose)
        have heq := (map_parse_iff.mp h).1
        have hnil := List.append_left_eq_self.mp heq.symm
        exact hne (List.flatten_eq_nil_iff.mp hnil head (mem_cons_self ..))
      · rename_i hclose
        rw [contains_iff] at hclose
        constructor
        · intro h
          obtain ⟨k, l, b', -, -, hnone, hb', heq⟩ := readBody_join h
          obtain ⟨htext, rfl⟩ := Body.parse_inj.mp heq
          have hk := joined_eq hcases hlastne (List.append_cancel_left (List.append_cancel_right htext))
          subst hk
          rw [take_left] at hnone
          refine ⟨⟨hpreds, ?_⟩, ?_⟩
          · simpa using ⟨hclose, hnone⟩
          · have hdrop : (cases ++ last :: rest).drop (cases.length + 1) = rest := by
              rw [← List.drop_drop, List.drop_left]
              rfl
            rwa [hdrop] at hb'
        · rintro ⟨⟨-, hnone⟩, hb⟩
          rw [readBody_cases (fun l hl => hnone l (mem_cons_of_mem _ hl)) hlast, map_parse_iff]
          exact ⟨rfl, hb⟩

variable {t : Text}

theorem labelText_head (h : LabelText t) : ∃ c s, t = c :: s ∧ c ≠ ';' ∧ c ≠ '}' ∧ c ≠ ' ' := by
  rcases h with ⟨hne, hall⟩ | ⟨s, rfl⟩
  · obtain ⟨c, s, rfl⟩ := List.exists_cons_of_ne_nil hne
    refine ⟨c, s, rfl, ?_⟩
    have hc := hall c (mem_cons_self ..)
    refine ⟨?_, ?_, ?_⟩ <;> rintro rfl <;> revert hc <;> decide
  · exact ⟨'"', _, rfl, by decide, by decide, by decide⟩

theorem numberedName_line (n : Nat) (colon : Bool) (blanks : Nat) (preds : Text) :
    numberedName ((LabelLine.comment n colon).line blanks preds) = Nat.toDigits 10 n := by
  have hblank : ' ' ∉ Nat.toDigits 10 n ++ if colon then [':'] else [] := by
    have hnot : ' ' ∉ Nat.toDigits 10 n := not_mem_toDigits (by decide)
    cases colon <;> simp [hnot]
  have hline : (LabelLine.comment n colon).line blanks preds = labelSigil ++
      ((Nat.toDigits 10 n ++ if colon then [':'] else []) ++
        ' ' :: (List.replicate blanks ' ' ++ (predsSigil ++ preds))) := by
    simp [LabelLine.line, LabelLine.front, List.replicate_succ]
  have hfind : find ((LabelLine.comment n colon).line blanks preds) ' ' 10 =
      some (10 + (Nat.toDigits 10 n ++ if colon then [':'] else []).length) := by
    rw [hline]
    exact find_drop hblank
  have hsub : ∀ k, substr ((LabelLine.comment n colon).line blanks preds) 10 k =
      ((Nat.toDigits 10 n ++ if colon then [':'] else []) ++
        ' ' :: (List.replicate blanks ' ' ++ (predsSigil ++ preds))).take k := by
    intro k
    rfl
  rw [numberedName, hfind]
  dsimp only
  rw [hsub, Nat.add_sub_cancel_left, take_left]
  cases colon with
  | true =>
    rw [if_pos (by simp), hsub]
    have hlen : 10 + (Nat.toDigits 10 n ++ [':']).length - 11 = (Nat.toDigits 10 n).length := by
      simp
      omega
    show List.take (10 + (Nat.toDigits 10 n ++ [':']).length - 11) _ = _
    rw [hlen, if_pos rfl, append_assoc, take_left]
  | false =>
    have hlast : (Nat.toDigits 10 n ++ if false then [':'] else []).getLast? ≠ some ':' := by
      intro h
      have hmem : ':' ∈ Nat.toDigits 10 n := by simpa using List.mem_of_getLast? h
      exact not_mem_toDigits (by decide) hmem
    rw [if_neg hlast]
    exact append_nil _

/-- A name is read up to the colon in front of the first blank. -/
theorem labelName_line (ht : LabelText t) (blanks : Nat) (preds : Text) :
    labelName ((LabelLine.name t).line blanks preds) = t ↔ ' ' ∉ t := by
  have hline : (LabelLine.name t).line blanks preds =
      (t ++ [':']) ++ ' ' :: (List.replicate blanks ' ' ++ (predsSigil ++ preds)) := by
    simp [LabelLine.line, LabelLine.front, List.replicate_succ]
  constructor
  · intro h hin
    obtain ⟨u, v, rfl, hu⟩ := List.eq_append_cons_of_mem hin
    -- the first blank is in the name, and not at its start
    obtain ⟨c, s, hcs, -, -, hc⟩ := labelText_head ht
    have hpos : u ≠ [] := by
      rintro rfl
      exact hc (List.cons.inj hcs).1.symm
    have hfind : find ((LabelLine.name (u ++ ' ' :: v)).line blanks preds) ' ' 0 = some u.length := by
      rw [hline, append_assoc, append_assoc, cons_append]
      exact find_append hu
    obtain ⟨k, hk⟩ := Nat.exists_eq_succ_of_ne_zero (List.length_pos_iff.mpr hpos).ne'
    rw [labelName, hfind, hk] at h
    have hlen := congrArg List.length h
    have hle := List.length_take_le k ((LabelLine.name (u ++ ' ' :: v)).line blanks preds)
    dsimp only [Nat.succ_eq_add_one] at hlen
    rw [length_append, List.length_cons] at hlen
    omega
  · intro h
    have hblank : ' ' ∉ t ++ [':'] := by simp [h]
    rw [labelName, hline, find_append hblank, length_append, append_assoc]
    exact take_left

/-- **The line of a label starts a block, with its name exactly if that can be read.** -/
theorem readBody_label {h : LabelLine} (hl : h.Legal) (blanks : Nat) (preds : Text) (rest : List Text) (b : Body) :
    readBody none (h.line blanks preds :: rest) = some (b.newBlock h.label) ↔ h.Readable ∧
    readBody none rest = some b := by
  cases h with
  | comment n colon =>
    have hprefix : labelSigil.isPrefixOf ((LabelLine.comment n colon).line blanks preds) = true := by
      rw [List.isPrefixOf_iff_prefix, LabelLine.line, LabelLine.front, append_assoc]
      exact List.prefix_append ..
    rw [readBody, if_pos hprefix, map_newBlock_iff, numberedName_line]
    exact ⟨fun h => ⟨trivial, h.2⟩, fun h => ⟨rfl, h.2⟩⟩
  | name t =>
    have hprefix : labelSigil.isPrefixOf ((LabelLine.name t).line blanks preds) = false := by
      obtain ⟨c, s, rfl, hc, -, -⟩ := labelText_head hl
      show (';' == c && _) = false
      rw [beq_false_of_ne hc.symm, Bool.false_and]
    have hpreds : contains predsSigil ((LabelLine.name t).line blanks preds) = true := by
      rw [contains_iff, LabelLine.line]
      exact ⟨t ++ [':'] ++ List.replicate (blanks + 1) ' ', preds, by simp [LabelLine.front]⟩
    rw [readBody, hprefix, if_neg (by simp), if_pos hpreds, map_newBlock_iff]
    exact and_congr_left fun _ => labelName_line hl blanks preds

/-! ## The function -/

theorem readBody_empty (rest : List Text) : readBody none ([] :: rest) = readBody none rest := by
  rfl

theorem readBody_instrs {is : List Instr} (his : ∀ i ∈ is, i.Legal) (rest : List Text) (b : Body) :
    readBody none (is.flatMap Instr.lines ++ rest) = some (is.map Instr.text ++ b.1, b.2) ↔
      (∀ i ∈ is, i.Readable) ∧ readBody none rest = some b := by
  induction is with
  | nil => simp
  | cons i is ih =>
    have hrest := ih fun j hj => his j (mem_cons_of_mem _ hj)
    rw [List.flatMap_cons, append_assoc, List.forall_mem_cons, and_assoc, ← hrest]
    exact readBody_instr (his i (mem_cons_self ..)) _ (is.map Instr.text ++ b.1, b.2)

theorem readBody_blocks {bs : List LabelledBlock} (hbs : ∀ b ∈ bs, b.label.Legal ∧ ∀ i ∈ b.instrs, i.Legal)
    (after : List Text) : readBody none (bs.flatMap LabelledBlock.text ++ ['}'] :: after) =
        some ([], bs.map fun b => ⟨b.label.label, b.instrs.map Instr.text⟩) ↔
      ∀ b ∈ bs, b.label.Readable ∧ ∀ i ∈ b.instrs, i.Readable := by
  induction bs with
  | nil =>
    refine iff_of_true ?_ (by simp)
    rfl
  | cons b bs ih =>
    obtain ⟨hlabel, hinstrs⟩ := hbs b (mem_cons_self ..)
    have hrest := ih fun c hc => hbs c (mem_cons_of_mem _ hc)
    rw [List.flatMap_cons, append_assoc, LabelledBlock.text, cons_append, readBody_empty, cons_append,
      List.forall_mem_cons, ← hrest, and_assoc]
    have hhead := readBody_label hlabel b.blanks b.preds
      (b.instrs.flatMap Instr.lines ++ (bs.flatMap LabelledBlock.text ++ ['}'] :: after))
      (b.instrs.map Instr.text, bs.map fun c => ⟨c.label.label, c.instrs.map Instr.text⟩)
    refine hhead.trans (and_congr_right fun _ => ?_)
    have hbody := readBody_instrs hinstrs (bs.flatMap LabelledBlock.text ++ ['}'] :: after)
      ([], bs.map fun c => ⟨c.label.label, c.instrs.map Instr.text⟩)
    rwa [append_nil] at hbody

theorem findEntryBB_first (b : Block) (bs : List Block) :
    findEntryBB (b :: bs) = some 0 ↔ b.lines.any makesNode = true := by
  rw [findEntryBB, List.findIdx?_cons]
  cases b.lines.any makesNode with
  | true => simp
  | false => simp

theorem toDigits_eq_zero (n : Nat) : Nat.toDigits 10 n = ['0'] ↔ n = 0 := by
  constructor
  · intro h
    have hn := @Nat.ofDigitChars_ten_toDigits n
    rw [h] at hn
    exact hn.symm
  · rintro rfl
    exact Nat.toDigits_zero 10

theorem map_entry_iff : (r.map fun b => Block.mk t b.1 :: b.2) = some (⟨t', b.1⟩ :: b.2) ↔ t = t' ∧ r = some b := by
  cases r with
  | none => simp
  | some b' =>
    obtain ⟨is, bs⟩ := b
    obtain ⟨is', bs'⟩ := b'
    simp [and_assoc]

/-- A name is read up to the colon behind it if it has none itself. -/
theorem readFunction_named (rest : List Text) (b : Body) :
    readFunction ((t ++ [':']) :: rest) = some (⟨t, b.1⟩ :: b.2) ↔ ':' ∉ t ∧ readBody none rest = some b := by
  rw [readFunction, if_pos (by simp), map_entry_iff]
  refine and_congr_left fun _ => ?_
  constructor
  · intro h hin
    have hmem : ':' ∈ (t ++ [':']).takeWhile (· != ':') := by rwa [h]
    exact absurd (List.all_eq_true.mp List.all_takeWhile _ hmem) (by simp)
  · intro h
    have hall : ∀ c ∈ t, (c != ':') = true := fun c hc => bne_iff_ne.mpr fun heq => h (heq ▸ hc)
    rw [List.takeWhile_append_of_pos hall]
    simp

/-- A block without a name gets the name `0`, unless its first line has a colon. -/
theorem readFunction_numbered {i : Instr} (hi : i.Legal) (n : Nat) (rest : List Text) (b : Body) :
    readFunction (i.lines ++ rest) = some (⟨Nat.toDigits 10 n, b.1⟩ :: b.2) ↔
      (n = 0 ∧ ':' ∉ i.head) ∧ readBody none (i.lines ++ rest) = some b := by
  obtain ⟨c, s, more, hhead, hlines⟩ : ∃ c s more, i.head = ' ' :: c :: s ∧ i.lines = i.head :: more := by
    cases i with
    | plain head more =>
      obtain ⟨⟨c, s, rfl, -⟩, -⟩ := hi
      exact ⟨' ', c :: s, more, rfl, rfl⟩
    | switch head cases last =>
      obtain ⟨⟨c, s, rfl, -⟩, -⟩ := hi
      exact ⟨' ', c :: s, cases ++ [last], rfl, rfl⟩
  rw [hlines, cons_append, readFunction]
  split
  · rename_i hcolon
    refine iff_of_false (fun h => ?_) fun h => h.1.2 hcolon
    -- the name starts with a blank
    have hname := (map_entry_iff.mp h).1
    have hmem : ' ' ∈ i.head.takeWhile (· != ':') := by
      rw [hhead]
      exact mem_cons_self ..
    rw [hname] at hmem
    exact not_mem_toDigits (by decide) hmem
  · rename_i hcolon
    rw [map_entry_iff, eq_comm, toDigits_eq_zero]
    exact and_congr_left fun _ => ⟨fun h => ⟨h, hcolon⟩, fun h => h.1⟩

/-- The lines in front of the function are passed over. -/
theorem constructBBList_before {before : List Text} (hbefore : ∀ l ∈ before, ¬ "define".toList <+: l) {header : Text}
    (hheader : "define".toList <+: header) (rest : List Text) :
    constructBBList (before ++ header :: rest) = readFunction rest := by
  induction before with
  | nil =>
    have hstruct : ("%struct".toList).isPrefixOf header = false := by
      obtain ⟨u, rfl⟩ := hheader
      rfl
    rw [List.nil_append, constructBBList, hstruct, if_neg (by simp), if_pos (List.isPrefixOf_iff_prefix.mpr hheader)]
  | cons l ls ih =>
    have hl : ¬ ("define".toList).isPrefixOf l = true := fun h =>
      hbefore l (mem_cons_self ..) (List.isPrefixOf_iff_prefix.mp h)
    rw [cons_append, constructBBList, if_neg hl, ih fun l' hl' => hbefore l' (mem_cons_of_mem _ hl'), ite_self]

/-- The lines of the function are read as its blocks exactly if its labels and instructions can be read. -/
theorem readFunction_iff {f : IrFile} (hf : f.Legal) : constructBBList f.lines = some f.bbList ↔
    ((∀ t, f.entryName = some t → ':' ∉ t) ∧
      (f.entryName = none → f.entryNumber = 0 ∧ ∀ i, f.entry.head? = some i → ':' ∉ i.head)) ∧
    (∀ i ∈ f.entry, i.Readable) ∧ ∀ b ∈ f.blocks, b.label.Readable ∧ ∀ i ∈ b.instrs, i.Readable := by
  have hblocks := readBody_blocks hf.blocks f.after
  have hbody := readBody_instrs hf.entry.2 (f.blocks.flatMap LabelledBlock.text ++ ['}'] :: f.after)
    ([], f.blocks.map fun b => ⟨b.label.label, b.instrs.map Instr.text⟩)
  rw [append_nil, hblocks] at hbody
  rw [IrFile.lines, constructBBList_before hf.before hf.header, ← hbody, IrFile.bbList, IrFile.entryLabel]
  cases hname : f.entryName with
  | some t =>
    have hread := readFunction_named (t := t) (f.entry.flatMap Instr.lines ++
      (f.blocks.flatMap LabelledBlock.text ++ ['}'] :: f.after))
      (f.entry.map Instr.text, f.blocks.map fun b => ⟨b.label.label, b.instrs.map Instr.text⟩)
    refine hread.trans (and_congr_left fun _ => ?_)
    simp
  | none =>
    obtain ⟨i, is, hentry⟩ := List.exists_cons_of_ne_nil hf.entry.1
    rw [hentry]
    have hread := readFunction_numbered (hf.entry.2 i (hentry ▸ mem_cons_self ..)) f.entryNumber
      (is.flatMap Instr.lines ++ (f.blocks.flatMap LabelledBlock.text ++ ['}'] :: f.after))
      ((i :: is).map Instr.text, f.blocks.map fun b => ⟨b.label.label, b.instrs.map Instr.text⟩)
    rw [← append_assoc, ← List.flatMap_cons] at hread
    refine hread.trans (and_congr_left fun _ => ?_)
    simp

/-- **The blocks of the function are made, each with its name and its instructions, and the first one is the entry,
exactly if the file can be read.** -/
theorem blocks_constructed (f : IrFile) (hf : f.Legal) :
    constructBBList f.lines = some f.bbList ∧ findEntryBB f.bbList = some 0 ↔ f.Readable := by
  have hnode : findEntryBB f.bbList = some 0 ↔ ∃ i ∈ f.entry, makesNode i.text = true := by
    rw [IrFile.bbList, findEntryBB_first]
    simp
  rw [readFunction_iff hf, hnode]
  constructor
  · rintro ⟨⟨⟨hname, hnumber⟩, hentry, hblocks⟩, hnode⟩
    refine ⟨hname, hnumber, fun b hb => (hblocks b hb).1, fun i hi => ?_, hnode⟩
    rcases List.mem_append.mp hi with hi | hi
    · exact hentry i hi
    · obtain ⟨b, hb, hi⟩ := List.mem_flatMap.mp hi
      exact (hblocks b hb).2 i hi
  · intro h
    refine ⟨⟨⟨h.entryName, h.entryNumber⟩, fun i hi => h.instrs i (List.mem_append_left _ hi), fun b hb => ?_⟩, h.node⟩
    exact ⟨h.labels b hb, fun i hi => h.instrs i (List.mem_append_right _ (List.mem_flatMap.mpr ⟨b, hb, hi⟩))⟩

theorem absent_of_contains {sigil line : Text} (h : contains sigil line = false) : ¬ sigil <:+: line := fun hin => by
  rw [(contains_iff sigil line).mpr hin] at h
  cases h

theorem labelText_of_all (hne : t ≠ []) (h : t.all (fun c => c.isAlphanum || ['-', '.', '_', '$'].contains c) = true) :
    LabelText t :=
  Or.inl ⟨hne, fun c hc => by simpa using List.all_eq_true.mp h c hc⟩

/-- A loop with a `switch`, in the older form of labels and in the newer one. -/
def switchFile : IrFile where
  before := ["%struct.s = type \x7b i32, i32 \x7d".toList, []]
  header := "define void @top(i32 %a) #0 \x7b".toList
  entryName := none
  entryNumber := 0
  entry := [.plain "  br label %1".toList []]
  blocks := [
    ⟨.comment 1 true, 3, " = %0, %2".toList,
      [.switch "  switch i32 %a, label %2 [".toList ["    i32 0, label %done".toList] "  ]".toList]⟩,
    ⟨.comment 2 false, 3, " = %1".toList, [.plain "  br label %1".toList []]⟩,
    ⟨.name "done".toList, 3, " = %1".toList, [.plain "  ret void".toList []]⟩]
  after := [[]]

theorem blocks_constructed_switchFile :
    constructBBList switchFile.lines = some switchFile.bbList ∧ findEntryBB switchFile.bbList = some 0 := by
  have hbr : (Instr.plain "  br label %1".toList []).Legal := ⟨⟨'b', _, rfl, by decide⟩, nofun⟩
  have hswitch :
    (Instr.switch "  switch i32 %a, label %2 [".toList ["    i32 0, label %done".toList] "  ]".toList).Legal :=
    ⟨⟨'s', _, rfl, by decide⟩, (contains_iff _ _).mp (by decide), by simp, (contains_iff _ _).mp (by decide)⟩
  have hret : (Instr.plain "  ret void".toList []).Legal := ⟨⟨'r', _, rfl, by decide⟩, nofun⟩
  have hlegal : switchFile.Legal := by
    refine ⟨by simp [switchFile], ⟨_, rfl⟩, nofun, ⟨by simp [switchFile], by simpa [switchFile] using hbr⟩, ?_⟩
    simp only [switchFile, List.forall_mem_cons, List.not_mem_nil, false_imp_iff, implies_true, and_true]
    exact ⟨⟨trivial, hswitch⟩, ⟨trivial, hbr⟩, labelText_of_all (by decide) (by decide), hret⟩
  have hbr' : (Instr.plain "  br label %1".toList []).Readable :=
    ⟨rfl, absent_of_contains (by decide), absent_of_contains (by decide)⟩
  refine (blocks_constructed switchFile hlegal).mpr ⟨nofun, fun _ => ⟨rfl, ?_⟩, ?_, ?_, ?_⟩
  · rintro i ⟨⟩
    decide
  · simp only [switchFile, List.forall_mem_cons, List.not_mem_nil, false_imp_iff, implies_true, and_true]
    exact ⟨trivial, trivial, (by decide : ' ' ∉ "done".toList)⟩
  · simp only [switchFile, List.flatMap_cons, List.flatMap_nil, List.cons_append, List.nil_append, List.forall_mem_cons,
      List.not_mem_nil, false_imp_iff, implies_true, and_true]
    refine ⟨hbr', ⟨absent_of_contains (by decide), ?_⟩, hbr', rfl, ?_, absent_of_contains (by decide)⟩
    · rw [List.forall_mem_cons, List.forall_mem_singleton]
      exact ⟨absent_of_contains (by decide), absent_of_contains (by decide)⟩
    · exact absent_of_contains (by decide)
  · exact ⟨_, List.mem_singleton_self _, by decide⟩

/-- A branch to a block that the compiler has named `switch.edge`. -/
def edgeFile : IrFile where
  before := []
  header := "define void @top() \x7b".toList
  entryName := some "entry".toList
  entryNumber := 0
  entry := [.plain "  br label %switch.edge".toList []]
  blocks := [⟨.name "switch.edge".toList, 3, " = %entry".toList, [.plain "  ret void".toList []]⟩]
  after := []

/-- The branch is taken for a `switch`, and the rest of the file is joined with it. -/
theorem edgeFile_joined : edgeFile.Legal ∧ ¬ (constructBBList edgeFile.lines = some edgeFile.bbList ∧
    findEntryBB edgeFile.bbList = some 0) ∧ constructBBList edgeFile.lines = none := by
  have hnone : constructBBList edgeFile.lines = none := by decide
  have hbr : (Instr.plain "  br label %switch.edge".toList []).Legal := ⟨⟨'b', _, rfl, by decide⟩, nofun⟩
  have hret : (Instr.plain "  ret void".toList []).Legal := ⟨⟨'r', _, rfl, by decide⟩, nofun⟩
  refine ⟨⟨nofun, ⟨_, rfl⟩, ?_, ⟨by simp [edgeFile], by simpa [edgeFile] using hbr⟩, ?_⟩, fun h => ?_, hnone⟩
  · rintro t ⟨⟩
    exact labelText_of_all (by decide) (by decide)
  · simp only [edgeFile, List.forall_mem_cons, List.not_mem_nil, false_imp_iff, implies_true, and_true]
    exact ⟨labelText_of_all (by decide) (by decide), hret⟩
  · rw [hnone] at h
    cases h.1

end Salam.Ir
