import Salam.Ir.Convert

/-!
# Phis

`phi` from its line to the committed value. The parser cuts the value and the label of each edge out of a group in
brackets, by the places of its comma and its closing bracket, and keeps them in three vectors; a literal stays a text
until `compute()` reads it as an `int`.

* `parse_phi`: the instruction of a line.
* `evaluate_edges`, `runtimeDependencies_edges`: the loops over the vectors are searches of the edges.
* `phi_committed`: exactly when the value of the edge is committed.
-/

namespace Salam.Ir

open CString

/-! ## The instruction -/

/-- `s.find(c)` as an `int`. -/
def indexOf (s : Text) (c : Char) : Int := (find s c 0).elim (-1) Int.ofNat

/-- `s.substr(pos, n)`; a negative `n` is larger than every length. -/
def cut (s : Text) (pos : Nat) (n : Int) : Except Err Text :=
  if s.length < pos then .error .outOfRange
  else .ok (if n < 0 then s.drop pos else substr s pos n.toNat)

/-- `v.at(k)`. -/
def elementAt {α : Type} (v : List α) (k : Nat) : Except Err α :=
  match v[k]? with
  | some x => .ok x
  | none => .error .outOfRange

/-- A `Phi` object. `_PhiReg` holds null pointers beside the literals. -/
structure Phi where
  returnType : Text
  returnRegister : Text
  phiVal : List Text
  phiReg : List (Option Text)
  phiLabel : List Text
  prevBB : Text
  dependencies : List Text
  deriving DecidableEq

namespace Phi

/-- The body of the loop over the groups. -/
def pushEdge (i : Phi) (p : Text) : Except Err Phi := do
  let val ← cut p 2 (indexOf p ',' - 2)
  let label ← cut p (indexOf p ',' + 3).toNat (indexOf p ']' - indexOf p ',' - 4)
  if isRegister val then
    return { i with
      phiVal := i.phiVal ++ ["reg".toList]
      phiReg := i.phiReg ++ [some (val.drop 1)]
      phiLabel := i.phiLabel ++ [label]
      dependencies := i.dependencies ++ [val.drop 1] }
  else
    let imm := if val = "true".toList then "1".toList else if val = "false".toList then "0".toList else val
    return { i with
      phiVal := i.phiVal ++ [imm]
      phiReg := i.phiReg ++ [none]
      phiLabel := i.phiLabel ++ [label] }

/-- `BasicBlock::parse` for `phi`: the instruction, and the register list with the size of the return register. -/
def parse (l : Line) (regs : Regs) : Except Err (Phi × Regs) := do
  let returnType ← parameter l.parameters 0
  match l.ret with
  | some ret =>
    let retReg ← (regs ret).setSize returnType
    let i ← (l.parameters.drop 1).foldlM pushEdge ⟨returnType, ret, [], [], [], [], []⟩
    return (i, Function.update regs ret retReg)
  | none => throw .undefined

/-- The loop of `runtimeDependencies()` from the `k`-th edge on, of which `n` remain. -/
def dependenciesFrom (i : Phi) : Nat → Nat → Except Err (List (Option Text))
  | 0, _ => .ok []
  | n + 1, k => do
    let label ← elementAt i.phiLabel k
    if label = i.prevBB then
      let val ← elementAt i.phiVal k
      if val = "reg".toList then
        let reg ← elementAt i.phiReg k
        let rest ← dependenciesFrom i n (k + 1)
        return reg :: rest
      else dependenciesFrom i n (k + 1)
    else dependenciesFrom i n (k + 1)

/-- `Phi::runtimeDependencies(PrevBB)`. -/
def runtimeDependencies (i : Phi) (prevBB : Text) : Except Err (List (Option Text) × Phi) := do
  let i := { i with prevBB := prevBB }
  let dependencies ← i.dependenciesFrom i.phiVal.length 0
  return (dependencies, i)

/-- The loop of `compute()` from the `k`-th edge on, of which `n` remain; `result` is the `_Result` before. -/
def evaluate (i : Phi) (regs : Regs) (result : Word) : Nat → Nat → Except Err Word
  | 0, _ => .ok result
  | n + 1, k => do
    let label ← elementAt i.phiLabel k
    if label = i.prevBB then
      let val ← elementAt i.phiVal k
      if val = "reg".toList then
        let reg ← elementAt i.phiReg k
        match reg with
        | some name => return (regs name).value
        | none => throw .undefined
      else if i.returnType.head? = some 'i' then
        match stoi val with
        | some v => return BitVec.ofInt 64 v
        | none => throw .stoi
      else evaluate i regs result n (k + 1)
    else evaluate i regs result n (k + 1)

/-- `Phi::compute()`. -/
def compute (i : Phi) (result : Word) (regs : Regs) : Except Err Word := i.evaluate regs result i.phiVal.length 0

/-- `compute()` runs, and the result is committed. -/
def exec (i : Phi) (result final : Word) (regs : Regs) : Except Err Regs := do
  let result ← i.compute result regs
  return commit regs i.returnRegister final result

end Phi

/-! ## Phis of LLVM -/

namespace Width

/-- The bytes of a register of this type. -/
def bytes (ty : Width) : Nat := byteSize ty.bits

end Width

/-- A value as it is written in the line: constants of `i1` are words. -/
inductive Value
  | reg (name : Text)
  | imm (l : Literal)
  | bool (b : Bool)
  deriving DecidableEq

namespace Value

def text : Value → Text
  | reg name => '%' :: name
  | imm l => l.text
  | bool b => if b then "true".toList else "false".toList

/-- The registers that are read for a value. -/
def regs : Value → List Text
  | reg name => [name]
  | imm _ | bool _ => []

/-- The word of a value of `N` bits: what the register holds, or the constant modulo `2 ^ N`. -/
def word (N : Nat) (regs : Regs) : Value → Word
  | reg name => (regs name).value
  | imm l => (BitVec.ofInt N l.value).setWidth 64
  | bool b => if b then 1 else 0

/-- A register holds no more than the bytes of the type. -/
def Held (ty : Width) (regs : Regs) : Value → Prop
  | reg name => (regs name).value.toNat < 2 ^ (8 * ty.bytes)
  | imm _ | bool _ => True

/-- A constant is one of the type. -/
def Typed (ty : Width) : Value → Prop
  | reg _ => True
  | imm l => -2 ^ (ty.bits - 1) ≤ l.value ∧ l.value < 2 ^ ty.bits
  | bool _ => ty = .i1

end Value

/-- A name without the characters that separate the parts of a group. Names without quotes consist of letters, digits
and `-$._`. -/
def IsPlain (name : Text) : Prop := ' ' ∉ name ∧ ',' ∉ name ∧ '[' ∉ name ∧ ']' ∉ name

/-- The names in a value. -/
def Value.Plain : Value → Prop
  | .reg name => IsPlain name
  | .imm _ | .bool _ => True

/-- An incoming edge. -/
structure Edge where
  value : Value
  label : Text
  deriving DecidableEq

namespace Edge

def Plain (e : Edge) : Prop := e.value.Plain ∧ IsPlain e.label

/-- `[ value, %label ]` -/
def text (e : Edge) : Text := '[' :: ' ' :: (e.value.text ++ ',' :: ' ' :: '%' :: (e.label ++ [' ', ']']))

end Edge

/-- The edges, separated by commas. -/
def edgesText : List Edge → Text
  | [] => []
  | [e] => e.text
  | e :: e' :: es => e.text ++ ',' :: ' ' :: edgesText (e' :: es)

/-- `  %ret = phi ty [ v₁, %l₁ ], [ v₂, %l₂ ], …` -/
def Phi.line (ty : Width) (ret : Text) (edges : List Edge) : Text :=
  ' ' :: ' ' :: '%' :: (ret ++ (' ' :: '=' :: ' ' :: ("phi".toList ++ ' ' :: (ty.text ++ ' ' :: edgesText edges))))

/-! ## Parsing -/

namespace Value

/-- A character that is in no word of the language is in no value with plain names. -/
theorem not_mem_text {v : Value} (h : v.Plain) {c : Char} (hc : c ∈ [' ', ',', '[', ']']) : c ∉ v.text := by
  simp only [List.mem_cons, List.not_mem_nil, or_false] at hc
  cases v with
  | reg name =>
    obtain ⟨h₁, h₂, h₃, h₄⟩ := h
    rcases hc with rfl | rfl | rfl | rfl <;> simp [text, *]
  | imm l => rcases hc with rfl | rfl | rfl | rfl <;> exact not_mem_literal l (by decide) (by decide)
  | bool b => rcases hc with rfl | rfl | rfl | rfl <;> cases b <;> decide

/-- What `_PhiVal` keeps of a value. -/
def kept : Value → Text
  | reg _ => "reg".toList
  | imm l => l.text
  | bool b => if b then "1".toList else "0".toList

/-- What `_PhiReg` keeps of a value. -/
def keptReg : Value → Option Text
  | reg name => some name
  | imm _ | bool _ => none

theorem isRegister_eq (v : Value) : isRegister v.text = v.keptReg.isSome := by
  cases v with
  | reg name => rfl
  | imm l => exact isRegister_literal l
  | bool b => cases b <;> rfl

theorem literal_ne_word (l : Literal) {c : Char} {s : Text} (hc : c.isDigit = false) (hm : c ≠ '-') : l.text ≠ c :: s :=
  fun h => not_mem_literal l hc hm (h ▸ List.mem_cons_self)

end Value

theorem cut_append {u s t : Text} {pos : Nat} {n : Int} (hpos : pos = u.length) (hn : n = s.length) :
    cut (u ++ (s ++ t)) pos n = .ok s := by
  have hle : ¬(u ++ (s ++ t)).length < u.length := by simp
  have hnonneg : ¬((s.length : Int) < 0) := by omega
  subst hpos hn
  rw [cut, if_neg hle, if_neg hnonneg, Int.toNat_natCast, substr, List.drop_left, List.take_left]

variable {e : Edge}

/-- One edge is pushed to the three vectors. -/
theorem Phi.pushEdge_text (h : e.Plain) (i : Phi) : i.pushEdge e.text = .ok { i with
      phiVal := i.phiVal ++ [e.value.kept]
      phiReg := i.phiReg ++ [e.value.keptReg]
      phiLabel := i.phiLabel ++ [e.label]
      dependencies := i.dependencies ++ e.value.regs } := by
  obtain ⟨value, label⟩ := e
  obtain ⟨hvalue, -, -, -, hclose⟩ := h
  have hcomma : indexOf (Edge.text ⟨value, label⟩) ',' = value.text.length + 2 := by
    have h := find_append (s := '[' :: ' ' :: value.text) (t := ' ' :: '%' :: (label ++ [' ', ']'])) (c := ',')
      (by simp [Value.not_mem_text hvalue (c := ',') (by simp)])
    have htext : Edge.text ⟨value, label⟩ = '[' :: ' ' :: value.text ++ ',' :: ' ' :: '%' :: (label ++ [' ', ']']) := by
      simp [Edge.text]
    rw [indexOf, htext, h]
    rfl
  have hend : indexOf (Edge.text ⟨value, label⟩) ']' = value.text.length + label.length + 6 := by
    have h := find_append (s := '[' :: ' ' :: (value.text ++ ',' :: ' ' :: '%' :: (label ++ [' '])))
      (t := []) (c := ']')
      (by simp [Value.not_mem_text hvalue (c := ']') (by simp), hclose])
    have htext : Edge.text ⟨value, label⟩ = '[' :: ' ' ::
      (value.text ++ ',' :: ' ' :: '%' :: (label ++ [' '])) ++ [']'] := by
      simp [Edge.text]
    rw [indexOf, htext, h]
    simp
    omega
  have hval : cut (Edge.text ⟨value, label⟩) 2 (indexOf (Edge.text ⟨value, label⟩) ',' - 2) = .ok value.text := by
    exact cut_append (u := ['[', ' ']) (s := value.text) rfl (by omega)
  have hlabel : cut (Edge.text ⟨value, label⟩) (indexOf (Edge.text ⟨value, label⟩) ',' + 3).toNat
      (indexOf (Edge.text ⟨value, label⟩) ']' - indexOf (Edge.text ⟨value, label⟩) ',' - 4) = .ok label := by
    have htext : Edge.text ⟨value, label⟩ = ('[' :: ' ' :: (value.text ++ [',', ' ', '%'])) ++
      (label ++ [' ', ']']) := by
      simp [Edge.text]
    rw [hcomma, hend, htext]
    refine cut_append ?_ (by omega)
    simp
    omega
  unfold pushEdge
  simp only [hval, hlabel, bind, Except.bind, pure, Except.pure, Value.isRegister_eq]
  cases value with
  | reg name => rfl
  | imm l =>
    have htrue : l.text ≠ ['t', 'r', 'u', 'e'] := Value.literal_ne_word l (by decide) (by decide)
    have hfalse : l.text ≠ ['f', 'a', 'l', 's', 'e'] := Value.literal_ne_word l (by decide) (by decide)
    simp [Value.keptReg, Value.kept, Value.regs, Value.text, htrue, hfalse]
  | bool b => cases b <;> simp [Value.keptReg, Value.kept, Value.regs, Value.text]

/-- The instruction of these edges. -/
def Phi.ofEdges (ty : Width) (ret : Text) (edges : List Edge) (prevBB : Text) : Phi where
  returnType := ty.text
  returnRegister := ret
  phiVal := edges.map (·.value.kept)
  phiReg := edges.map (·.value.keptReg)
  phiLabel := edges.map Edge.label
  prevBB := prevBB
  dependencies := edges.flatMap (·.value.regs)

variable {edges : List Edge}

theorem Phi.foldlM_pushEdge (h : ∀ e ∈ edges, e.Plain) (i : Phi) :
    (edges.map Edge.text).foldlM pushEdge i = .ok { i with
      phiVal := i.phiVal ++ edges.map (·.value.kept)
      phiReg := i.phiReg ++ edges.map (·.value.keptReg)
      phiLabel := i.phiLabel ++ edges.map Edge.label
      dependencies := i.dependencies ++ edges.flatMap (·.value.regs) } := by
  induction edges generalizing i with
  | nil => simp [pure, Except.pure]
  | cons e es ih =>
    rw [List.map_cons, List.foldlM_cons, pushEdge_text (h e (by simp))]
    refine (ih (fun e' he' => h e' (List.mem_cons_of_mem _ he')) _).trans ?_
    simp

theorem isGroup_edge (h : e.Plain) : IsGroup '[' ']' e.text := by
  obtain ⟨hvalue, -, -, hopen, hclose⟩ := h
  refine ⟨rfl, by decide, ' ' :: (e.value.text ++ ',' :: ' ' :: '%' :: (e.label ++ [' '])), by simp [Edge.text], ?_, ?_,
    by decide⟩
  · simp [Value.not_mem_text hvalue (c := '[') (by simp), hopen]
  · simp [Value.not_mem_text hvalue (c := ']') (by simp), hclose]

/-- The groups of the edges are the parameters. -/
theorem parameters_edges (h : ∀ e ∈ edges, e.Plain) {fuel : Nat} (hfuel : (edgesText edges).length < fuel)
    (acc : List Text) :
    parameters fuel (edgesText edges) acc = some (acc ++ edges.map Edge.text) := by
  induction edges generalizing fuel acc with
  | nil => exact parameters_of_written .nil hfuel acc
  | cons e es ih =>
    have hgroup := isGroup_edge (h e (by simp))
    cases es with
    | nil => exact parameters_of_written (.group hgroup) hfuel acc
    | cons e' es =>
      have hlong : (edgesText (e' :: es)).length + e.text.length + 2 < fuel := by
        simp only [edgesText, List.length_append, List.length_cons] at hfuel
        omega
      have hpos : 0 < e.text.length := by simp [Edge.text]
      have hopen : '[' ∈ edgesText (e' :: es) := by
        cases es <;> simp [edgesText, Edge.text]
      obtain ⟨n, rfl⟩ : ∃ n, fuel = n + 1 + 1 + 1 := ⟨fuel - 3, by omega⟩
      have ih := ih (fun e'' he'' => h e'' (List.mem_cons_of_mem _ he''))
        (show (edgesText (e' :: es)).length < n by omega)
        (acc ++ [e.text])
      rw [edgesText, parameters_group_cons hgroup (by simp [hopen]), parameters_skip (.inr rfl),
        parameters_skip (.inl rfl), ih]
      simp

theorem Register.setSize_width (r : Register) (ty : Width) : r.setSize ty.text = .ok { r with size := ty.bytes } := by
  cases ty <;> rfl

theorem parse_phi (ty : Width) {ret : Text} (hret : IsName ret) (h : ∀ e ∈ edges, e.Plain) :
    ∃ l, parseLine (Phi.line ty ret edges) = some l ∧ l.opCode = "phi".toList ∧ ∀ regs : Regs,
      Phi.parse l regs = .ok (.ofEdges ty ret edges [],
      Function.update regs ret { regs ret with size := ty.bytes }) := by
  have hps : parameters (("phi".toList ++ ' ' :: (ty.text ++ ' ' :: edgesText edges)).length + 1)
      (' ' :: (ty.text ++ ' ' :: edgesText edges)) [] = some (ty.text :: edges.map Edge.text) := by
    have hlen : ("phi".toList ++ ' ' :: (ty.text ++ ' ' :: edgesText edges)).length =
        (edgesText edges).length + ty.text.length + 3 + 1 + 1 := by
      simp
      omega
    have hless : (edgesText edges).length < (edgesText edges).length + ty.text.length + 4 := by omega
    rw [hlen, parameters_skip (.inl rfl), parameters_word (isWord_width ty) (.inl rfl)]
    exact parameters_edges h hless [ty.text]
  refine ⟨_, parseLine_assign_of hret.1 (by decide) hps, rfl, fun regs => ?_⟩
  simp only [Phi.parse, parameter, List.getElem?_cons_zero, Register.setSize_width, List.drop_succ_cons, List.drop_zero,
    Phi.foldlM_pushEdge h, bind, Except.bind, pure, Except.pure]
  rfl

/-! ## The loops over the edges -/

/-- The word that `compute()` finds for a value. -/
def Value.evaluated (regs : Regs) : Value → Except Err Word
  | reg name => .ok (regs name).value
  | imm l =>
    match stoi l.text with
    | some v => .ok (BitVec.ofInt 64 v)
    | none => .error .stoi
  | bool b => .ok (if b then 1 else 0)

section Loops

variable {i : Phi} {edges : List Edge} {k : Nat}

/-- The edges stand in the vectors from the `k`-th place on. -/
def Phi.Holds (i : Phi) (edges : List Edge) (k : Nat) : Prop :=
  ∀ m e, edges[m]? = some e →
    i.phiLabel[k + m]? = some e.label ∧ i.phiVal[k + m]? = some e.value.kept ∧ i.phiReg[k + m]? = some e.value.keptReg

theorem Phi.Holds.tail {e : Edge} (h : i.Holds (e :: edges) k) : i.Holds edges (k + 1) := fun m e' hm => by
  rw [Nat.add_assoc, Nat.add_comm 1 m]
  exact h (m + 1) e' hm

/-- `compute()` takes the first edge with the label. -/
theorem evaluate_edges (htype : i.returnType.head? = some 'i') (h : i.Holds edges k) (regs : Regs) (result : Word) :
    i.evaluate regs result edges.length k =
      ((edges.find? (·.label = i.prevBB)).map (·.value.evaluated regs)).getD (.ok result) := by
  induction edges generalizing k with
  | nil => rfl
  | cons e es ih =>
    obtain ⟨hlabel, hval, hreg⟩ := h 0 e rfl
    rw [Nat.add_zero] at hlabel hval hreg
    rw [List.length_cons, Phi.evaluate, List.find?_cons]
    simp only [elementAt, hlabel, hval, hreg, htype, bind, Except.bind, pure, Except.pure, ih h.tail]
    by_cases heq : e.label = i.prevBB
    · simp only [heq, if_true, decide_true, Option.map_some, Option.getD_some]
      cases hv : e.value with
      | reg name => rfl
      | imm l =>
        have hne : l.text ≠ "reg".toList := Value.literal_ne_word l (by decide) (by decide)
        simp only [Value.kept, hne, if_false, Value.evaluated]
        rfl
      | bool b => cases b <;> rfl
    · simp [heq]

/-- `runtimeDependencies()` collects the registers of the edges with the label. -/
theorem dependenciesFrom_edges (h : i.Holds edges k) :
    i.dependenciesFrom edges.length k = .ok
      ((edges.filter (·.label = i.prevBB)).flatMap fun e => e.value.regs.map some) := by
  induction edges generalizing k with
  | nil => rfl
  | cons e es ih =>
    obtain ⟨hlabel, hval, hreg⟩ := h 0 e rfl
    rw [Nat.add_zero] at hlabel hval hreg
    rw [List.length_cons, Phi.dependenciesFrom, List.filter_cons]
    simp only [elementAt, hlabel, hval, hreg, bind, Except.bind, pure, Except.pure, ih h.tail]
    by_cases heq : e.label = i.prevBB
    · simp only [heq, if_true, decide_true, List.flatMap_cons]
      cases hv : e.value with
      | reg name => rfl
      | imm l =>
        have hne : l.text ≠ "reg".toList := Value.literal_ne_word l (by decide) (by decide)
        simp only [Value.kept, hne, if_false, Value.regs]
        rfl
      | bool b => cases b <;> rfl
    · simp [heq]

end Loops

/-! ## The committed value -/

/-- The edges with one label have one value. -/
def Agree (edges : List Edge) : Prop := ∀ e ∈ edges, ∀ e' ∈ edges, e.label = e'.label → e.value = e'.value

theorem holds_ofEdges (ty : Width) (ret : Text) (edges : List Edge) (prevBB : Text) :
    (Phi.ofEdges ty ret edges prevBB).Holds edges 0 := fun m e hm => by
  simp [Phi.ofEdges, hm]

theorem compute_ofEdges (ty : Width) (ret : Text) (hagree : Agree edges) (he : e ∈ edges) (result : Word)
    (regs : Regs) :
    (Phi.ofEdges ty ret edges e.label).compute result regs = e.value.evaluated regs := by
  have htype : (Phi.ofEdges ty ret edges e.label).returnType.head? = some 'i' := by cases ty <;> rfl
  have hlen : (Phi.ofEdges ty ret edges e.label).phiVal.length = edges.length := List.length_map _
  rw [Phi.compute, hlen, evaluate_edges htype (holds_ofEdges ty ret edges e.label)]
  show ((edges.find? (·.label = e.label)).map (·.value.evaluated regs)).getD (.ok result) = _
  cases hfind : edges.find? (·.label = e.label) with
  | none => simpa using List.find?_eq_none.mp hfind e he
  | some e' =>
    have hlabel : e'.label = e.label := by simpa using List.find?_some hfind
    rw [Option.map_some, Option.getD_some, hagree e' (List.mem_of_find?_eq_some hfind) e he hlabel]

theorem runtimeDependencies_ofEdges (ty : Width) (ret : Text) (hagree : Agree edges) (he : e ∈ edges) (prevBB : Text) :
    (Phi.ofEdges ty ret edges prevBB).runtimeDependencies e.label =
      .ok ((List.replicate (edges.countP (·.label = e.label)) (e.value.regs.map some)).flatten,
        .ofEdges ty ret edges e.label) := by
  have hlen : (Phi.ofEdges ty ret edges e.label).phiVal.length = edges.length := List.length_map _
  have hdeps := dependenciesFrom_edges (holds_ofEdges ty ret edges e.label)
  have hsame : (edges.filter (·.label = e.label)).map (fun e => e.value.regs.map some) =
      List.replicate (edges.countP (·.label = e.label)) (e.value.regs.map some) := by
    rw [List.eq_replicate_iff]
    refine ⟨by rw [List.length_map, List.countP_eq_length_filter], fun rs hrs => ?_⟩
    obtain ⟨e', he', rfl⟩ := List.mem_map.mp hrs
    obtain ⟨hmem, hlabel⟩ := List.mem_filter.mp he'
    rw [hagree e' hmem e he (by simpa using hlabel)]
  have hlist : (edges.filter (·.label = e.label)).flatMap (fun e => e.value.regs.map some) =
      (List.replicate (edges.countP (·.label = e.label)) (e.value.regs.map some)).flatten := by
    rw [← hsame, List.flatMap_def]
  show (do
    let dependencies ← (Phi.ofEdges ty ret edges e.label).dependenciesFrom
      (Phi.ofEdges ty ret edges e.label).phiVal.length 0
    return (dependencies, Phi.ofEdges ty ret edges e.label)) = _
  rw [hlen, hdeps, ← hlist]
  rfl

/-- When the constant is read as it is: it fits in an `int`, and a negative one is not of one bit. -/
def Value.Read (ty : Width) : Value → Prop
  | reg _ | bool _ => True
  | imm l => -2 ^ 31 ≤ l.value ∧ l.value < 2 ^ 31 ∧ (ty = .i1 → 0 ≤ l.value)

section Committed

variable {ty : Width} {regs : Regs} {ret : Text}

/-- The low bytes of a literal of the type. -/
theorem low_bytes_iff {z : Int} (hlo : -2 ^ (ty.bits - 1) ≤ z) (hhi : z < 2 ^ ty.bits) :
    (BitVec.ofInt (8 * ty.bytes) z).setWidth 64 = (BitVec.ofInt ty.bits z).setWidth 64 ↔ (ty = .i1 → 0 ≤ z) := by
  cases ty with
  | i1 =>
    have hcases : z = -1 ∨ z = 0 ∨ z = 1 := by
      simp only [Width.bits] at hlo hhi
      omega
    rcases hcases with rfl | rfl | rfl <;> decide
  | i8 | i16 | i32 | i64 => exact ⟨fun _ h => (by cases h), fun _ => rfl⟩

theorem committed_iff {v : Value} (htyped : v.Typed ty) (hheld : v.Held ty regs) (hsize : (regs ret).size = ty.bytes)
    (hret : (regs ret).value.toNat < 2 ^ (8 * ty.bytes)) (final : Word) :
    (∃ r, v.evaluated regs = .ok r ∧ (commit regs ret final r ret).value = v.word ty.bits regs) ↔ v.Read ty := by
  have hroom : ∀ r : Word, r.toNat < 2 ^ (8 * ty.bytes) → (commit regs ret final r ret).value = r := fun r hr =>
    commit_of_lt (by rwa [hsize]) final (by rwa [hsize])
  cases v with
  | reg name => exact iff_of_true ⟨_, rfl, hroom _ hheld⟩ trivial
  | bool b =>
    have hlt : (if b then 1 else 0 : Word).toNat < 2 ^ (8 * ty.bytes) := by
      cases b <;> cases ty <;> decide
    exact iff_of_true ⟨_, rfl, hroom _ hlt⟩ trivial
  | imm l =>
    have hbytes : 8 * ty.bytes ≤ 64 := by cases ty <;> decide
    have hlow : (commit regs ret final (BitVec.ofInt 64 l.value) ret).value =
        (BitVec.ofInt (8 * ty.bytes) l.value).setWidth 64 := by
      rw [commit_low (by rwa [hsize]), hsize, setWidth_ofInt hbytes]
    simp only [Value.evaluated, stoi_literal, Value.word, Value.Read]
    by_cases hint : -2 ^ 31 ≤ l.value ∧ l.value < 2 ^ 31
    · simp only [if_pos hint, Except.ok.injEq, exists_eq_left', hlow, low_bytes_iff htyped.1 htyped.2]
      tauto
    · simp only [if_neg hint, reduceCtorEq, false_and, exists_false, false_iff]
      tauto

end Committed

/-- **The value of the edge is committed, exactly when it is no constant that is read otherwise, and its register is the
runtime dependency.** -/
theorem phi_committed (ty : Width) {ret : Text} {edges : List Edge} (hret : IsName ret)
    (hedges : ∀ e ∈ edges, e.Plain ∧ e.value.Typed ty) (hagree : Agree edges) :
    ∃ l, parseLine (Phi.line ty ret edges) = some l ∧ l.opCode = "phi".toList ∧ ∀ regs : Regs, ∃ i,
      Phi.parse l regs = .ok (i, Function.update regs ret { regs ret with size := ty.bytes }) ∧
      ∀ e ∈ edges, ∃ i', i.runtimeDependencies e.label =
          .ok ((List.replicate (edges.countP (·.label = e.label)) (e.value.regs.map some)).flatten, i') ∧
        ∀ (result final : Word) (regs : Regs), (regs ret).size = ty.bytes →
          (regs ret).value.toNat < 2 ^ (8 * ty.bytes) → e.value.Held ty regs →
          ((∃ regs', i'.exec result final regs = .ok regs' ∧ (regs' ret).value = e.value.word ty.bits regs) ↔
            e.value.Read ty) := by
  obtain ⟨l, hline, hop, hparse⟩ := parse_phi ty hret fun e he => (hedges e he).1
  refine ⟨l, hline, hop, fun regs => ⟨_, hparse regs, fun e he =>
    ⟨_, runtimeDependencies_ofEdges ty ret hagree he [], ?_⟩⟩⟩
  intro result final regs hsize hold hheld
  rw [← committed_iff (hedges e he).2 hheld hsize hold final, Phi.exec, compute_ofEdges ty ret hagree he]
  cases e.value.evaluated regs with
  | ok r =>
    constructor
    · rintro ⟨regs', hregs, hvalue⟩
      cases hregs
      exact ⟨r, rfl, hvalue⟩
    · rintro ⟨r', hr, hvalue⟩
      cases hr
      exact ⟨_, rfl, hvalue⟩
  | error err =>
    constructor
    · rintro ⟨regs', hregs, -⟩
      cases hregs
    · rintro ⟨r, hr, -⟩
      cases hr

/-- `[ n, %a ], [ %y, %b ]` -/
def twoEdges (n : Nat) : List Edge := [⟨.imm (.ofNat n), ['a']⟩, ⟨.reg ['y'], ['b']⟩]

theorem twoEdges_plain (n : Nat) : ∀ e ∈ twoEdges n, e.Plain := by
  intro e he
  simp only [twoEdges, List.mem_cons, List.not_mem_nil, or_false] at he
  rcases he with rfl | rfl <;> simp [Edge.Plain, Value.Plain, IsPlain]

theorem twoEdges_typed {ty : Width} {n : Nat} (h : n < 2 ^ ty.bits) : ∀ e ∈ twoEdges n, e.value.Typed ty := by
  intro e he
  simp only [twoEdges, List.mem_cons, List.not_mem_nil, or_false] at he
  rcases he with rfl | rfl
  · have hneg : -(2 : Int) ^ (ty.bits - 1) ≤ 0 := by cases ty <;> decide
    exact ⟨by rw [Literal.value_ofNat]; omega, by rw [Literal.value_ofNat]; exact_mod_cast h⟩
  · trivial

theorem twoEdges_agree (n : Nat) : Agree (twoEdges n) := by
  intro e he e' he' h
  simp only [twoEdges, List.mem_cons, List.not_mem_nil, or_false] at he he'
  rcases he with rfl | rfl <;> rcases he' with rfl | rfl <;> simp at h ⊢

/-- Registers of four bytes that hold 7. -/
def phiRegs : Regs := fun _ => ⟨7, 4⟩

/-- `  %x = phi i32 [ 5, %a ], [ %y, %b ]` commits 7 behind `b`. -/
theorem phi_committed_pair : ∃ l i i' regs', parseLine (Phi.line .i32 ['x'] (twoEdges 5)) = some l ∧
    Phi.parse l phiRegs = .ok (i, Function.update phiRegs ['x'] ⟨7, 4⟩) ∧
    i.runtimeDependencies ['b'] = .ok ([some ['y']], i') ∧ i'.exec 0 0 phiRegs = .ok regs' ∧
    (regs' ['x']).value = 7 := by
  obtain ⟨l, hline, -, hparse⟩ := phi_committed .i32 (show IsName ['x'] from ⟨by decide, by decide⟩)
    (fun e he => ⟨twoEdges_plain 5 e he, twoEdges_typed (show 5 < 2 ^ 32 by decide) e he⟩) (twoEdges_agree 5)
  obtain ⟨i, hi, hedge⟩ := hparse phiRegs
  obtain ⟨i', hdeps, hexec⟩ := hedge ⟨.reg ['y'], ['b']⟩ (by simp [twoEdges])
  obtain ⟨regs', hr, hvalue⟩ := (hexec 0 0 phiRegs rfl (by decide) (show 7 < 2 ^ 32 by decide)).mpr trivial
  exact ⟨l, i, i', regs', hline, hi, hdeps, hr, hvalue⟩

/-- `  %x = phi i64 [ 4294967296, %a ], [ %y, %b ]`: behind `a`, `std::stoi` throws. -/
theorem literal_out_of_int : (∀ e ∈ twoEdges 4294967296, e.Plain ∧ e.value.Typed .i64) ∧ Agree (twoEdges 4294967296) ∧
    ∃ l i i', parseLine (Phi.line .i64 ['x'] (twoEdges 4294967296)) = some l ∧
      Phi.parse l phiRegs = .ok (i, Function.update phiRegs ['x'] ⟨7, 8⟩) ∧
      i.runtimeDependencies ['a'] = .ok ([], i') ∧ ∀ result final regs, i'.exec result final regs = .error .stoi := by
  have htyped := twoEdges_typed (show 4294967296 < 2 ^ Width.i64.bits by decide)
  obtain ⟨l, hline, -, hparse⟩ := parse_phi .i64 (show IsName ['x'] from ⟨by decide, by decide⟩)
    (twoEdges_plain 4294967296)
  have he : ⟨.imm (.ofNat 4294967296), ['a']⟩ ∈ twoEdges 4294967296 := by simp [twoEdges]
  refine ⟨fun e he => ⟨twoEdges_plain _ e he, htyped e he⟩, twoEdges_agree _, l, _, _, hline, hparse phiRegs,
    runtimeDependencies_ofEdges .i64 ['x'] (twoEdges_agree _) he [], fun result final regs => ?_⟩
  have hlarge : ¬(-2 ^ 31 ≤ (Literal.ofNat 4294967296).value ∧ (Literal.ofNat 4294967296).value < 2 ^ 31) := by
    decide
  rfl

end Salam.Ir
