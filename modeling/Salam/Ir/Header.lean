import Salam.Ir.Binary
import Salam.Lib.System

/-!
# Function headers

The registers that `constructBBList` makes from the line that starts a function: every `%` that does not start `%struct`
is taken for a parameter, whose name ends at the next comma of the line, or at the first `)` of the line when no comma
follows.

* `bindHeader_readNames`: the names that are read.
* `header_bound`: exactly when they are the parameters.
-/

namespace Salam.Ir

open CString
open List (append_assoc drop_left length_append map_cons mem_append mem_cons)

/-! ## Global variables -/

/-- What `getGlobalVar` reads of a `CommInterface`. -/
structure GlobalVars where
  usePremapData : Bool
  dataBasePtrs : List Word
  mmreg : List (BitVec 8)
  varOffset : Nat
  deriving DecidableEq

/-- The number with these bytes, the lowest first. -/
def ofBytes (bytes : List (BitVec 8)) : Word := bytes.foldr (fun b x => (x <<< 8) ||| b.setWidth 64) 0

/-- `getGlobalVar`. All sizes read eight bytes. -/
def GlobalVars.getGlobalVar (c : GlobalVars) (offset size : Nat) : Except Err Word :=
  if c.usePremapData then
    match c.dataBasePtrs[offset / 8]? with
    | some v => .ok v
    | none => .error .outOfRange
  else if size = 1 ∨ size = 2 ∨ size = 4 ∨ size = 8 then
    if c.varOffset + offset + 8 ≤ c.mmreg.length then .ok (ofBytes ((c.mmreg.drop (c.varOffset + offset)).take 8))
    else .error .undefined
  else .error .undefined

/-! ## The loop -/

/-- `"%struct"`. -/
def structSigil : Text := ['%', 's', 't', 'r', 'u', 'c', 't']

/-- `regName`: from a position to the next comma, or to the first `)` of the line. -/
def regName (line : Text) (percPos : Nat) : Text :=
  match (find line ',' percPos).or (find line ')' 0) with
  | some commaPos => if percPos ≤ commaPos then substr line percPos (commaPos - percPos) else line.drop percPos
  | none => line.drop percPos

/-- The loop over the `%` of the line, from `linePos` on; the positions are `int`, for lines of less than `2 ^ 31`
characters. The result are the registers that are added, with their values. -/
def bindParams (c : GlobalVars) (line : Text) : Nat → Nat → Nat → Except Err (List (Text × Word))
  | 0, _, _ => .error .undefined
  | fuel + 1, linePos, paramOffset =>
    match find line '%' linePos with
    | none => .ok []
    | some percPos =>
      if (search structSigil (line.drop linePos)).map (linePos + ·) ≠ some percPos then do
        let value ← c.getGlobalVar paramOffset 8
        let rest ← bindParams c line fuel (percPos + 1 + 1) (paramOffset + 8)
        return (regName line (percPos + 1), value) :: rest
      else bindParams c line fuel (percPos + 1) paramOffset

/-- The registers of the line that starts a function. -/
def bindHeader (c : GlobalVars) (line : Text) : Except Err (List (Text × Word)) :=
    bindParams c line (line.length + 1) 0 0

/-! ## Headers of LLVM -/

/-- A parameter: its type with its attributes, and its name, if it is written. -/
structure Param where
  type : Text
  name : Option Text

/-- The parameter as it is written. -/
def Param.text (p : Param) : Text :=
  match p.name with
  | some n => p.type ++ ' ' :: '%' :: n
  | none => p.type

/-- The line that starts a function: what stands in front of the parameters and behind them, and whether `...` follows
them. -/
structure Header where
  head : Text
  params : List Param
  varargs : Bool
  tail : Text

namespace Header

/-- What follows a parameter. -/
def following (h : Header) : List Param → Text
  | [] => (if h.varargs then ", ...".toList else []) ++ ')' :: h.tail
  | p :: ps => ',' :: ' ' :: (p.text ++ h.following ps)

/-- The line. -/
def text (h : Header) : Text :=
  h.head ++ '(' :: (match h.params with
    | [] => (if h.varargs then "...".toList else []) ++ ')' :: h.tail
    | p :: ps => p.text ++ h.following ps)

end Header

/-- Every `%` starts a struct type. -/
def Quiet (s : Text) : Prop := ∀ u t, s = u ++ '%' :: t → "struct".toList <+: t

/-- `%` stands in front of names and in front of struct types only. -/
structure Header.Legal (h : Header) : Prop where
  head : Quiet h.head
  tail : Quiet h.tail
  type : ∀ p ∈ h.params, Quiet p.type
  name : ∀ p ∈ h.params, ∀ n, p.name = some n → n ≠ [] ∧ '%' ∉ n

/-- One register for each parameter, in order, with its name and the value of its global variable. -/
def Bound (c : GlobalVars) (h : Header) (regs : List (Text × Word)) : Prop :=
  regs.map (fun r => some r.1) = h.params.map Param.name ∧
    ∀ k r, regs[k]? = some r → c.getGlobalVar (8 * k) 8 = .ok r.2

/-- The names that are cut out right. -/
def Header.Readable (h : Header) : Prop :=
  (∀ p ∈ h.params, ∃ n, p.name = some n ∧ ¬"struct".toList <+: n ∧ ',' ∉ n) ∧
    (h.params ≠ [] → h.varargs = false → ',' ∉ h.tail ∧ ')' ∉ h.head ∧ ∀ p ∈ h.params, ')' ∉ p.text)

/-! ## The names that are read -/

/-- The name that is cut out where `s` follows the `%`. -/
def cutName (line s : Text) : Text := regName line (line.length - s.length)

/-- The names that are read from the parameters. -/
def readNames (h : Header) : List Param → List Text
  | [] => []
  | p :: ps =>
    match p.name with
    | some n =>
      if "struct".toList.isPrefixOf n then readNames h ps else cutName h.text (n ++ h.following ps) :: readNames h ps
    | none => readNames h ps

/-- Registers of these names, with the global variables from an offset on. -/
def allocate (c : GlobalVars) : Nat → List Text → Except Err (List (Text × Word))
  | _, [] => .ok []
  | offset, n :: ns => do
    let value ← c.getGlobalVar offset 8
    let rest ← allocate c (offset + 8) ns
    return (n, value) :: rest

theorem find_from (u s : Text) (c : Char) : find (u ++ s) c u.length = (find s c 0).map (u.length + ·) := by
  rw [find_eq, drop_left]

section Loop

variable {c : GlobalVars} {line u q s : Text} {fuel : Nat} {h : Header}

theorem bind_skip (hline : line = u ++ (q ++ s)) (hq : '%' ∉ q) (fuel offset : Nat) :
    bindParams c line (fuel + 1) u.length offset = bindParams c line (fuel + 1) (u ++ q).length offset := by
  have hsplit : line = (u ++ q) ++ s := by rw [hline, append_assoc]
  have hfind : find line '%' u.length = find line '%' (u ++ q).length := by
    have h := find_from (u ++ q) s '%'
    rw [← hsplit] at h
    rw [h, hline, find_from, find_append_right hq, Option.map_map, length_append]
    congr 1
    funext k
    simp only [Function.comp_apply]
    omega
  have hsearch : (search structSigil (line.drop u.length)).map (u.length + ·) =
      (search structSigil (line.drop (u ++ q).length)).map ((u ++ q).length + ·) := by
    have hdrop : line.drop (u ++ q).length = s := by rw [hsplit, drop_left]
    rw [hdrop, hline, drop_left, structSigil, search_append hq, Option.map_map, length_append]
    congr 1
    funext k
    simp only [Function.comp_apply]
    omega
  rw [bindParams, bindParams, hfind, hsearch]

/-- At a `%`, the loop looks whether a struct type starts there. -/
theorem bind_percent (hline : line = u ++ '%' :: s) (fuel offset : Nat) :
    bindParams c line (fuel + 1) u.length offset =
      if "struct".toList.isPrefixOf s then bindParams c line fuel (u.length + 1) offset
      else do
        let value ← c.getGlobalVar offset 8
        let rest ← bindParams c line fuel (u.length + 2) (offset + 8)
        return (regName line (u.length + 1), value) :: rest := by
  have hfind : find line '%' u.length = some u.length := by
    rw [hline]
    exact find_drop (u := u) (s := []) (by simp)
  have hsearch : (search structSigil (line.drop u.length)).map (u.length + ·) = some u.length ↔
      "struct".toList.isPrefixOf s = true := by
    have hcons : search structSigil ('%' :: s) =
        if "struct".toList.isPrefixOf s then some 0 else (search structSigil s).map (· + 1) := by
      rfl
    rw [hline, drop_left, hcons]
    by_cases hs : "struct".toList.isPrefixOf s
    · rw [if_pos hs]
      exact iff_of_true rfl hs
    · rw [if_neg hs]
      refine iff_of_false ?_ hs
      cases search structSigil s with
      | none =>
        intro h
        cases h
      | some k =>
        intro h
        have hk : u.length + (k + 1) = u.length := Option.some.inj h
        omega
  rw [bindParams, hfind]
  by_cases hstruct : "struct".toList.isPrefixOf s
  · rw [if_pos hstruct]
    simp only [hsearch.mpr hstruct, ne_eq, not_true_eq_false, if_false]
  · rw [if_neg hstruct]
    simp only [ne_eq, mt hsearch.mp hstruct, not_false_eq_true, if_true]

theorem bind_quiet (hline : line = u ++ (q ++ s)) (hq : Quiet q) (hfuel : (q ++ s).length < fuel) (offset : Nat) :
    ∃ fuel', s.length < fuel' ∧ bindParams c line fuel u.length offset =
    bindParams c line fuel' (u ++ q).length offset := by
  induction hn : q.length using Nat.strong_induction_on generalizing q u fuel with
  | _ n ih =>
    cases fuel with
    | zero => omega
    | succ fuel =>
      by_cases hmem : '%' ∈ q
      · obtain ⟨q₁, q₂, rfl, hq₁⟩ := List.eq_append_cons_of_mem hmem
        have hstruct : "struct".toList.isPrefixOf (q₂ ++ s) = true :=
          List.isPrefixOf_iff_prefix.mpr ((hq q₁ q₂ rfl).trans (List.prefix_append q₂ s))
        have hskip : line = u ++ (q₁ ++ '%' :: (q₂ ++ s)) := by simp [hline]
        have hat : line = (u ++ q₁) ++ '%' :: (q₂ ++ s) := by simp [hline]
        have hnext : line = (u ++ (q₁ ++ ['%'])) ++ (q₂ ++ s) := by simp [hline]
        have hlen : (u ++ (q₁ ++ ['%'])).length = (u ++ q₁).length + 1 := by
          simp
          omega
        have hq₂ : Quiet q₂ := fun v t hv => hq (q₁ ++ '%' :: v) t (by simp [hv])
        have hless : (q₂ ++ s).length < fuel := by
          simp at hfuel ⊢
          omega
        obtain ⟨fuel', hfuel', hrest⟩ := ih q₂.length (by simp at hn; omega) hnext hq₂ hless rfl
        refine ⟨fuel', hfuel', ?_⟩
        rw [bind_skip hskip hq₁, bind_percent hat, if_pos hstruct, ← hlen, hrest]
        simp
      · refine ⟨fuel + 1, ?_, bind_skip hline hmem fuel offset⟩
        rw [length_append] at hfuel
        omega

/-- A pattern without the character that ends the name is found in the name or not at all. -/
theorem isPrefixOf_append {pat : Text} {d : Char} (hd : d ∉ pat) (n s : Text) :
    pat.isPrefixOf (n ++ d :: s) = pat.isPrefixOf n := by
  induction pat generalizing n with
  | nil => simp
  | cons e pat ih =>
    simp only [mem_cons, not_or] at hd
    cases n with
    | nil =>
      have hne : (e == d) = false := beq_false_of_ne fun he => hd.1 he.symm
      simp [List.isPrefixOf, hne]
    | cons e' n => simp only [List.cons_append, List.isPrefixOf, ih hd.2 n]

theorem bind_param {p : Param} (htype : Quiet p.type) (hname : ∀ n, p.name = some n → n ≠ [] ∧ '%' ∉ n) {d : Char}
    (hd : d = ',' ∨ d = ')') (hline : line = u ++ (p.text ++ d :: s)) {fuel : Nat}
    (hfuel : (p.text ++ d :: s).length < fuel) (offset : Nat) :
    ∃ fuel', (d :: s).length < fuel' ∧
      bindParams c line fuel u.length offset =
        match p.name with
        | some n =>
          if "struct".toList.isPrefixOf n then bindParams c line fuel' (u ++ p.text).length offset
          else do
            let value ← c.getGlobalVar offset 8
            let rest ← bindParams c line fuel' (u ++ p.text).length (offset + 8)
            return (cutName line (n ++ d :: s), value) :: rest
        | none => bindParams c line fuel' (u ++ p.text).length offset := by
  cases hn : p.name with
  | none =>
    have htext : p.text = p.type := by simp [Param.text, hn]
    rw [htext] at hline hfuel ⊢
    exact bind_quiet hline htype hfuel offset
  | some n =>
    have htext : p.text = p.type ++ ' ' :: '%' :: n := by simp [Param.text, hn]
    obtain ⟨hne, hpercent⟩ := hname n hn
    rw [htext] at hline hfuel ⊢
    have hquiet : line = u ++ (p.type ++ (' ' :: '%' :: (n ++ d :: s))) := by simp [hline]
    obtain ⟨fuel₁, hfuel₁, hstart⟩ := bind_quiet (c := c) hquiet htype (by simpa using hfuel) offset
    have hblank : line = (u ++ p.type) ++ ([' '] ++ '%' :: (n ++ d :: s)) := by simp [hline]
    have hat : line = (u ++ p.type ++ [' ']) ++ '%' :: (n ++ d :: s) := by simp [hline]
    have hstruct : "struct".toList.isPrefixOf (n ++ d :: s) = "struct".toList.isPrefixOf n :=
      isPrefixOf_append (by rcases hd with rfl | rfl <;> decide) n s
    have hcut : cutName line (n ++ d :: s) = regName line ((u ++ p.type ++ [' ']).length + 1) := by
      have hpos : line.length - (n ++ d :: s).length = (u ++ p.type ++ [' ']).length + 1 := by
        rw [hat]
        simp
        omega
      rw [cutName, hpos]
    obtain ⟨e, n', rfl⟩ := List.exists_cons_of_ne_nil hne
    simp only [mem_cons, not_or] at hpercent
    -- behind the first character of the name, and behind the name
    have hafter : ∀ off fuel', bindParams c line (fuel' + 1) ((u ++ p.type ++ [' ']).length + 2) off =
        bindParams c line (fuel' + 1) (u ++ (p.type ++ ' ' :: '%' :: e :: n')).length off := by
      intro off fuel'
      have hrest : line = (u ++ p.type ++ [' ', '%', e]) ++ (n' ++ d :: s) := by simp [hline]
      have h := bind_skip (c := c) hrest hpercent.2 fuel' off
      have hlen : (u ++ p.type ++ [' ', '%', e]).length = (u ++ p.type ++ [' ']).length + 2 := by
        simp
        omega
      rw [hlen] at h
      rw [h]
      congr 1
      simp
    have hname : ∀ off fuel', bindParams c line (fuel' + 1) ((u ++ p.type ++ [' ']).length + 1) off =
        bindParams c line (fuel' + 1) (u ++ (p.type ++ ' ' :: '%' :: e :: n')).length off := by
      intro off fuel'
      have hrest : line = (u ++ p.type ++ [' ', '%']) ++ ((e :: n') ++ d :: s) := by simp [hline]
      have h := bind_skip (c := c) hrest (by simp [hpercent]) fuel' off
      have hlen : (u ++ p.type ++ [' ', '%']).length = (u ++ p.type ++ [' ']).length + 1 := by
        simp
        omega
      rw [hlen] at h
      rw [h]
      congr 1
      simp
    cases fuel₁ with
    | zero => omega
    | succ fuel₁ =>
      cases fuel₁ with
      | zero => simp at hfuel₁
      | succ fuel₁ =>
        refine ⟨fuel₁ + 1, by simp at hfuel₁ ⊢; omega, ?_⟩
        rw [hstart, bind_skip hblank (by simp), bind_percent hat, hstruct]
        simp only [hname, hafter, hcut]

/-- What follows a parameter starts with a comma or with the closing parenthesis. -/
theorem following_head (h : Header) (ps : List Param) : ∃ d s, h.following ps = d :: s ∧ (d = ',' ∨ d = ')') := by
  cases ps with
  | nil =>
    cases hv : h.varargs with
    | true => exact ⟨',', " ...)".toList ++ h.tail, by simp [Header.following, hv], .inl rfl⟩
    | false => exact ⟨')', h.tail, by simp [Header.following, hv], .inr rfl⟩
  | cons p ps => exact ⟨',', _, rfl, .inl rfl⟩

theorem quiet_of_not_mem {s : Text} (hs : '%' ∉ s) : Quiet s := by
  intro u t h
  exact absurd (by simp [h]) hs

theorem Quiet.append {s t : Text} (hs : Quiet s) (ht : Quiet t) : Quiet (s ++ t) := by
  intro u v h
  rcases List.append_eq_append_iff.mp h with ⟨w, hu, hv⟩ | ⟨w, hu, hv⟩
  · exact ht w v hv
  · cases w with
    | nil => exact ht [] v hv.symm
    | cons e w =>
      obtain ⟨he, hv⟩ := List.cons.inj hv
      have hin : s = u ++ '%' :: w := by rw [hu, he]
      rw [hv]
      exact (hs u w hin).trans (List.prefix_append w t)

/-- Behind the last parameter there are struct types only. -/
theorem quiet_closing (hlegal : h.Legal) : Quiet (h.following []) := by
  cases hv : h.varargs with
  | true =>
    have htext : h.following [] = ", ...)".toList ++ h.tail := by simp [Header.following, hv]
    rw [htext]
    exact (quiet_of_not_mem (by decide)).append hlegal.tail
  | false =>
    have htext : h.following [] = [')'] ++ h.tail := by simp [Header.following, hv]
    rw [htext]
    exact (quiet_of_not_mem (by decide)).append hlegal.tail

/-- The loop ends when only struct types are left. -/
theorem bind_end (hline : line = u ++ q) (hq : Quiet q) (hfuel : q.length < fuel) (offset : Nat) :
    bindParams c line fuel u.length offset = .ok [] := by
  have hall : line = u ++ (q ++ []) := by rw [hline, List.append_nil]
  obtain ⟨fuel', hfuel', hrest⟩ := bind_quiet (c := c) hall hq (by rwa [List.append_nil]) offset
  have hend : find line '%' (u ++ q).length = none := by
    rw [← hline, find_eq, List.drop_of_length_le (Nat.le_refl _)]
    rfl
  cases fuel' with
  | zero => simp at hfuel'
  | succ fuel' =>
    rw [hrest, bindParams, hend]

theorem bind_following (hlegal : h.Legal) (ps : List Param) (hps : ∀ p ∈ ps, p ∈ h.params) (u : Text)
    (hline : h.text = u ++ h.following ps) (hfuel : (h.following ps).length < fuel) (offset : Nat) :
    bindParams c h.text fuel u.length offset = allocate c offset (readNames h ps) := by
  induction ps generalizing u fuel offset with
  | nil =>
    exact bind_end hline (quiet_closing hlegal) hfuel offset
  | cons p ps ih =>
    obtain ⟨d, s, hfollowing, hd⟩ := following_head h ps
    have hp := hps p (by simp)
    have hcomma : h.text = u ++ ([',', ' '] ++ (p.text ++ d :: s)) := by
      rw [hline, Header.following, hfollowing]
      rfl
    have hat : h.text = (u ++ [',', ' ']) ++ (p.text ++ d :: s) := by rw [hcomma, append_assoc]
    have hnext : h.text = ((u ++ [',', ' ']) ++ p.text) ++ h.following ps := by
      rw [hat, hfollowing, append_assoc, append_assoc, append_assoc]
    have hlen : (p.text ++ d :: s).length < fuel := by
      rw [Header.following, hfollowing] at hfuel
      simp at hfuel ⊢
      omega
    obtain ⟨fuel', hfuel', hparam⟩ := bind_param (c := c) (hlegal.type p hp) (hlegal.name p hp) hd hat hlen offset
    have hleft : (h.following ps).length < fuel' := by rwa [hfollowing]
    have hrest := ih (fun q hq => hps q (List.mem_cons_of_mem _ hq)) _ hnext hleft
    cases fuel with
    | zero => omega
    | succ fuel =>
      rw [bind_skip hcomma (by decide), hparam, readNames, hfollowing]
      cases p.name with
      | none => exact hrest offset
      | some n =>
        simp only
        split
        · exact hrest offset
        · rw [hrest, allocate]

/-- **The names that the loop reads, with the global variables in order.** -/
theorem bindHeader_readNames (hlegal : h.Legal) : bindHeader c h.text = allocate c 0 (readNames h h.params) := by
  have hopen : Quiet (h.head ++ ['(']) := hlegal.head.append (quiet_of_not_mem (by decide))
  cases hparams : h.params with
  | nil =>
    have hdots : Quiet (if h.varargs then "...".toList else []) := by
      refine quiet_of_not_mem ?_
      split <;> simp
    have hline :
      h.text = [] ++ (h.head ++ ['('] ++ ((if h.varargs then "...".toList else []) ++ ([')'] ++ h.tail))) := by
      simp [Header.text, hparams]
    have hclose : Quiet [')'] := quiet_of_not_mem (by decide)
    have hquiet := hopen.append (hdots.append (hclose.append hlegal.tail))
    exact bind_end hline hquiet (by rw [hline]; exact Nat.lt_succ_self _) 0
  | cons p ps =>
    obtain ⟨d, s, hfollowing, hd⟩ := following_head h ps
    have hp : p ∈ h.params := by simp [hparams]
    have hline : h.text = [] ++ (h.head ++ ['('] ++ (p.text ++ d :: s)) := by
      simp [Header.text, hparams, hfollowing]
    have hat : h.text = (h.head ++ ['(']) ++ (p.text ++ d :: s) := hline
    have hnext : h.text = (h.head ++ ['('] ++ p.text) ++ h.following ps := by
      rw [hat, hfollowing]
      exact (append_assoc _ _ _).symm
    have hall : (h.head ++ ['('] ++ (p.text ++ d :: s)).length < h.text.length + 1 := by
      rw [hat]
      exact Nat.lt_succ_self _
    obtain ⟨fuel₁, hfuel₁, hstart⟩ := bind_quiet (c := c) hline hopen hall 0
    obtain ⟨fuel₂, hfuel₂, hparam⟩ := bind_param (c := c) (hlegal.type p hp) (hlegal.name p hp) hd hat hfuel₁ 0
    have hleft : (h.following ps).length < fuel₂ := by rwa [hfollowing]
    have hrest := bind_following (c := c) hlegal ps (fun q hq => by simp [hparams, hq]) _ hnext hleft
    rw [bindHeader, readNames, hfollowing]
    refine Eq.trans hstart (Eq.trans hparam ?_)
    cases p.name with
    | none => exact hrest 0
    | some n =>
      simp only
      split
      · exact hrest 0
      · rw [hrest, allocate]

end Loop

/-! ## The names of the parameters -/

theorem cut_comma (w n s : Text) : cutName (w ++ (n ++ ',' :: s)) (n ++ ',' :: s) = n ↔ ',' ∉ n := by
  have hpos : (w ++ (n ++ ',' :: s)).length - (n ++ ',' :: s).length = w.length := by simp
  by_cases hn : ',' ∈ n
  · obtain ⟨n₁, n₂, rfl, hn₁⟩ := List.eq_append_cons_of_mem hn
    refine iff_of_false ?_ (not_not.mpr hn)
    have hfind : find (w ++ (n₁ ++ ',' :: n₂ ++ ',' :: s)) ',' w.length = some (w.length + n₁.length) := by
      rw [append_assoc]
      exact find_drop hn₁
    intro h
    have hlen := congrArg List.length h
    rw [cutName, hpos, regName, hfind] at hlen
    simp [substr] at hlen
  · refine iff_of_true ?_ hn
    have hfind : find (w ++ (n ++ ',' :: s)) ',' w.length = some (w.length + n.length) := find_drop hn
    rw [cutName, hpos, regName, hfind]
    simp [substr]

/-- A name in front of the closing parenthesis. -/
theorem cut_paren (w n s : Text) :
    cutName (w ++ (n ++ ')' :: s)) (n ++ ')' :: s) = n ↔ ',' ∉ n ∧ ',' ∉ s ∧ ')' ∉ w ∧ ')' ∉ n := by
  have hpos : (w ++ (n ++ ')' :: s)).length - (n ++ ')' :: s).length = w.length := by simp
  rw [cutName, hpos, regName]
  by_cases hcomma : ',' ∈ n ++ ')' :: s
  · -- the name ends at the comma
    obtain ⟨t₁, t₂, ht, ht₁⟩ := List.eq_append_cons_of_mem hcomma
    refine iff_of_false ?_ fun h => ?_
    · have hfind : find (w ++ (n ++ ')' :: s)) ',' w.length = some (w.length + t₁.length) := by
        rw [ht]
        exact find_drop ht₁
      have hle : w.length ≤ w.length + t₁.length := Nat.le_add_right _ _
      rw [hfind, Option.some_or]
      simp only [hle, if_true, substr, drop_left, Nat.add_sub_cancel_left, ht, List.take_left]
      rintro rfl
      have hhead := List.append_cancel_left ht
      exact absurd (List.cons.inj hhead).1 (by decide)
    · rcases mem_append.mp hcomma with hn | hs
      · exact h.1 hn
      · simp [h.2.1] at hs
  · have hnone : find (w ++ (n ++ ')' :: s)) ',' w.length = none := by
      rw [find_from, find_eq_none hcomma, Option.map_none]
    simp only [mem_append, mem_cons, not_or] at hcomma
    rw [hnone, Option.none_or]
    by_cases hparen : ')' ∈ w ++ n
    · -- the name ends at another parenthesis or, behind it, not at all
      obtain ⟨v₁, v₂, hv, hv₁⟩ := List.eq_append_cons_of_mem hparen
      have hfind : find (w ++ (n ++ ')' :: s)) ')' 0 = some v₁.length := by
        have hline : w ++ (n ++ ')' :: s) = v₁ ++ ')' :: (v₂ ++ ')' :: s) := by
          rw [← append_assoc, hv]
          simp
        rw [hline]
        exact find_append hv₁
      have hlen := congrArg List.length hv
      simp only [length_append, List.length_cons] at hlen
      refine iff_of_false ?_ fun h => ?_
      · rw [hfind]
        simp only
        intro h
        have hcut := congrArg List.length h
        split at hcut
        · simp [substr] at hcut
          omega
        · simp at hcut
      · exact (mem_append.mp hparen).elim h.2.2.1 h.2.2.2
    · have hfind : find (w ++ (n ++ ')' :: s)) ')' 0 = some (w.length + n.length) := by
        rw [← append_assoc, find_append hparen, length_append]
      simp only [mem_append, not_or] at hparen
      rw [hfind]
      refine iff_of_true ?_ ⟨hcomma.1, hcomma.2.2, hparen⟩
      simp [substr]

/-- The names that are cut out of the parameters `ps` are theirs. -/
def Named (h : Header) : List Param → Prop
  | [] => True
  | p :: ps =>
    (∃ n, p.name = some n ∧ ¬"struct".toList <+: n ∧ cutName h.text (n ++ h.following ps) = n) ∧ Named h ps

theorem readNames_length (h : Header) (ps : List Param) : (readNames h ps).length ≤ ps.length := by
  induction ps with
  | nil => exact Nat.le_refl _
  | cons p ps ih =>
    rw [readNames]
    split
    · split
      · exact Nat.le_succ_of_le ih
      · exact Nat.succ_le_succ ih
    · exact Nat.le_succ_of_le ih

theorem readNames_iff (h : Header) (ps : List Param) : (readNames h ps).map some = ps.map Param.name ↔ Named h ps := by
  induction ps with
  | nil => exact iff_of_true rfl trivial
  | cons p ps ih =>
    -- without a register for `p` there are too few
    have hshort : (readNames h ps).map some ≠ (p :: ps).map Param.name := by
      intro he
      have hlen := congrArg List.length he
      have hle := readNames_length h ps
      simp only [List.length_map, List.length_cons] at hlen
      omega
    rw [readNames, Named]
    cases hn : p.name with
    | none => exact iff_of_false hshort nofun
    | some n =>
      simp only
      by_cases hs : "struct".toList.isPrefixOf n
      · rw [if_pos hs]
        refine iff_of_false hshort ?_
        rintro ⟨⟨m, hm, hnot, -⟩, -⟩
        obtain rfl := Option.some.inj hm
        exact hnot (List.isPrefixOf_iff_prefix.mp hs)
      · rw [if_neg hs, map_cons, map_cons, hn, List.cons.injEq, ih, Option.some.injEq]
        refine and_congr_left fun _ => ⟨fun hcut =>
          ⟨n, rfl, fun hp => hs (List.isPrefixOf_iff_prefix.mpr hp), hcut⟩, ?_⟩
        rintro ⟨m, hm, -, hcut⟩
        obtain rfl := Option.some.inj hm
        exact hcut

/-- The names of the parameters behind `u`. -/
theorem named_iff (h : Header) (p : Param) (ps : List Param) (u : Text)
    (hline : h.text = u ++ (p.text ++ h.following ps)) :
    Named h (p :: ps) ↔
      (∀ q ∈ p :: ps, ∃ n, q.name = some n ∧ ¬"struct".toList <+: n ∧ ',' ∉ n) ∧
        (h.varargs = false → ',' ∉ h.tail ∧ ')' ∉ u ∧ ∀ q ∈ p :: ps, ')' ∉ q.text) := by
  have htext : ∀ n, p.name = some n → p.text = p.type ++ [' ', '%'] ++ n := by
    intro n hn
    simp [Param.text, hn]
  have hcut : ∀ n, p.name = some n → h.text = (u ++ (p.type ++ [' ', '%'])) ++ (n ++ h.following ps) := by
    intro n hn
    rw [hline, htext n hn]
    simp
  induction ps generalizing p u with
  | nil =>
    rw [Named, Named]
    cases hv : h.varargs with
    | true =>
      have hfollowing : h.following [] = ',' :: (" ...)".toList ++ h.tail) := by simp [Header.following, hv]
      have hname : ∀ n, p.name = some n → (cutName h.text (n ++ h.following []) = n ↔ ',' ∉ n) := by
        intro n hn
        rw [hcut n hn, hfollowing]
        exact cut_comma _ n _
      simp only [and_true, List.mem_singleton, forall_eq, Bool.true_eq_false, false_implies]
      refine exists_congr fun n => and_congr_right fun hn => and_congr_right fun _ => hname n hn
    | false =>
      have hfollowing : h.following [] = ')' :: h.tail := by simp [Header.following, hv]
      have hname : ∀ n, p.name = some n → (cutName h.text (n ++ h.following []) = n ↔
          ',' ∉ n ∧ ',' ∉ h.tail ∧ ')' ∉ u ∧ ')' ∉ p.text) := by
        intro n hn
        rw [hcut n hn, hfollowing, htext n hn, cut_paren]
        simp only [mem_append, not_or]
        tauto
      simp only [and_true, List.mem_singleton, forall_eq, forall_const]
      constructor
      · rintro ⟨n, hn, hs, hc⟩
        have hall := (hname n hn).mp hc
        exact ⟨⟨n, hn, hs, hall.1⟩, hall.2⟩
      · rintro ⟨⟨n, hn, hs, hc⟩, hall⟩
        exact ⟨n, hn, hs, (hname n hn).mpr ⟨hc, hall⟩⟩
  | cons p' ps ih =>
    have hfollowing : h.following (p' :: ps) = ',' :: ' ' :: (p'.text ++ h.following ps) := rfl
    have hname : ∀ n, p.name = some n → (cutName h.text (n ++ h.following (p' :: ps)) = n ↔ ',' ∉ n) := by
      intro n hn
      rw [hcut n hn, hfollowing]
      exact cut_comma _ n _
    have hnext : h.text = (u ++ (p.text ++ [',', ' '])) ++ (p'.text ++ h.following ps) := by
      rw [hline, hfollowing]
      simp
    have hrest := ih p' (u ++ (p.text ++ [',', ' '])) hnext (fun n hn => by simp [Param.text, hn])
      (fun n hn => by rw [hnext]; simp [Param.text, hn])
    have hu : ')' ∉ u ++ (p.text ++ [',', ' ']) ↔ ')' ∉ u ∧ ')' ∉ p.text := by simp [not_or]
    refine (and_congr_right fun _ => hrest).trans ?_
    rw [hu]
    simp only [List.forall_mem_cons (a := p)]
    constructor
    · rintro ⟨⟨n, hn, hs, hc⟩, hnames, hlast⟩
      refine ⟨⟨⟨n, hn, hs, (hname n hn).mp hc⟩, hnames⟩, fun hv => ?_⟩
      obtain ⟨htail, ⟨hhead, htext⟩, hall⟩ := hlast hv
      exact ⟨htail, hhead, htext, hall⟩
    · rintro ⟨⟨⟨n, hn, hs, hc⟩, hnames⟩, hlast⟩
      refine ⟨⟨n, hn, hs, (hname n hn).mpr hc⟩, hnames, fun hv => ?_⟩
      obtain ⟨htail, hhead, htext, hall⟩ := hlast hv
      exact ⟨htail, ⟨hhead, htext⟩, hall⟩

/-! ## The registers -/

/-- Registers are allocated as long as there are global variables. -/
theorem allocate_iff (c : GlobalVars) (offset : Nat) (ns : List Text) (regs : List (Text × Word)) :
    allocate c offset ns = .ok regs ↔
      regs.map Prod.fst = ns ∧ ∀ k r, regs[k]? = some r → c.getGlobalVar (offset + 8 * k) 8 = .ok r.2 := by
  induction ns generalizing offset regs with
  | nil =>
    rw [allocate, List.map_eq_nil_iff]
    constructor
    · intro h
      cases h
      exact ⟨rfl, by simp⟩
    · rintro ⟨rfl, -⟩
      rfl
  | cons n ns ih =>
    constructor
    · intro h
      obtain ⟨v, hv, h⟩ := ok_of_bind h
      obtain ⟨rest, hrest, h⟩ := ok_of_bind h
      cases h
      obtain ⟨hnames, hvalues⟩ := (ih _ rest).mp hrest
      refine ⟨by rw [map_cons, hnames], fun k r hk => ?_⟩
      cases k with
      | zero =>
        cases hk
        exact hv
      | succ k =>
        have hr := hvalues k r hk
        rwa [show offset + 8 + 8 * k = offset + 8 * (k + 1) from by omega] at hr
    · rintro ⟨hnames, hvalues⟩
      cases regs with
      | nil => exact absurd hnames (by simp)
      | cons r rest =>
        simp only [map_cons, List.cons.injEq] at hnames
        obtain ⟨rfl, hnames⟩ := hnames
        have hv := hvalues 0 _ rfl
        have hrest : allocate c (offset + 8) ns = .ok rest := by
          refine (ih _ rest).mpr ⟨hnames, fun k r hk => ?_⟩
          rw [show offset + 8 + 8 * k = offset + 8 * (k + 1) from by omega]
          exact hvalues (k + 1) r hk
        rw [Nat.mul_zero, Nat.add_zero] at hv
        rw [allocate, hv, hrest]
        rfl

/-- With all global variables in place there are registers. -/
theorem allocate_ok (c : GlobalVars) (offset : Nat) (ns : List Text)
    (h : ∀ k < ns.length, ∃ v, c.getGlobalVar (offset + 8 * k) 8 = .ok v) :
      ∃ regs, allocate c offset ns = .ok regs := by
  induction ns generalizing offset with
  | nil => exact ⟨[], rfl⟩
  | cons n ns ih =>
    obtain ⟨v, hv⟩ := h 0 (Nat.succ_pos _)
    obtain ⟨rest, hrest⟩ := ih (offset + 8) fun k hk => by
      obtain ⟨w, hw⟩ := h (k + 1) (Nat.succ_lt_succ hk)
      exact ⟨w, by rwa [show offset + 8 + 8 * k = offset + 8 * (k + 1) from by omega]⟩
    rw [Nat.mul_zero, Nat.add_zero] at hv
    exact ⟨(n, v) :: rest, by rw [allocate, hv, hrest]; rfl⟩

/-- **A header gets its registers exactly when its names can be cut out and its global variables exist.** -/
theorem header_bound (c : GlobalVars) {h : Header} (hlegal : h.Legal) :
    (∃ regs, bindHeader c h.text = .ok regs ∧ Bound c h regs) ↔
      h.Readable ∧ ∀ k < h.params.length, ∃ v, c.getGlobalVar (8 * k) 8 = .ok v := by
  have hreadable : (readNames h h.params).map some = h.params.map Param.name ↔ h.Readable := by
    rw [readNames_iff, Header.Readable]
    cases hparams : h.params with
    | nil => simp [Named]
    | cons p ps =>
      have hline : h.text = (h.head ++ ['(']) ++ (p.text ++ h.following ps) := by simp [Header.text, hparams]
      rw [named_iff h p ps _ hline]
      simp
  rw [bindHeader_readNames hlegal]
  constructor
  · rintro ⟨regs, hregs, hnames, hvalues⟩
    obtain ⟨hread, -⟩ := (allocate_iff c 0 _ regs).mp hregs
    refine ⟨hreadable.mp (by rw [← hread, List.map_map]; exact hnames), fun k hk => ?_⟩
    have hlen : regs.length = h.params.length := by simpa using congrArg List.length hnames
    rw [← hlen] at hk
    exact ⟨_, hvalues k _ (List.getElem?_eq_getElem hk)⟩
  · rintro ⟨hread, hvars⟩
    have hnames := hreadable.mpr hread
    have hlen : (readNames h h.params).length = h.params.length := by simpa using congrArg List.length hnames
    obtain ⟨regs, hregs⟩ := allocate_ok c 0 (readNames h h.params) fun k hk => by
      rw [Nat.zero_add]
      exact hvars k (hlen ▸ hk)
    obtain ⟨hread, hvalues⟩ := (allocate_iff c 0 _ regs).mp hregs
    refine ⟨regs, hregs, ?_, fun k r hk => ?_⟩
    · rw [← hnames, ← hread, List.map_map]
      rfl
    · have hv := hvalues k r hk
      rwa [Nat.zero_add] at hv

/-- Two global variables. -/
def twoVars : GlobalVars := ⟨true, [5, 6], [], 0⟩

/-- `define void @f(<type> %a) {`, with a second parameter or without. -/
def voidHeader (type : Text) (rest : List Param) : Header :=
  ⟨"define void @f".toList, ⟨type, some ['a']⟩ :: rest, false, " \x7b".toList⟩

theorem voidHeader_legal {type : Text} {rest : List Param} (htype : '%' ∉ type)
    (hrest : ∀ p ∈ rest, '%' ∉ p.type ∧ ∀ n, p.name = some n → n ≠ [] ∧ '%' ∉ n) : (voidHeader type rest).Legal := by
  have hhead : '%' ∉ "define void @f".toList := by decide
  have htail : '%' ∉ " \x7b".toList := by decide
  refine ⟨quiet_of_not_mem hhead, quiet_of_not_mem htail, fun p hp => ?_, fun p hp => ?_⟩
  · rcases mem_cons.mp hp with rfl | hp
    · exact quiet_of_not_mem htype
    · exact quiet_of_not_mem (hrest p hp).1
  · rcases mem_cons.mp hp with rfl | hp
    · rintro n ⟨⟩
      exact ⟨by decide, by decide⟩
    · exact (hrest p hp).2

/-- The parameter `i32 %n`. -/
def intParam : Param := ⟨"i32".toList, some ['n']⟩

/-- `define void @f([10 x i32]* %a, i32 %n) {` gets both registers. -/
theorem header_bound_two : ∃ regs, bindHeader twoVars (voidHeader "[10 x i32]*".toList [intParam]).text = .ok regs ∧
    Bound twoVars (voidHeader "[10 x i32]*".toList [intParam]) regs := by
  have hlegal : (voidHeader "[10 x i32]*".toList [intParam]).Legal := by
    refine voidHeader_legal (by decide) fun p hp => ?_
    rw [List.mem_singleton.mp hp]
    refine ⟨by decide, ?_⟩
    rintro n ⟨⟩
    exact ⟨by decide, by decide⟩
  refine (header_bound twoVars hlegal).mpr
    ⟨⟨fun p hp => ?_, fun _ _ => ⟨by decide, by decide, fun p hp => ?_⟩⟩, fun k hk => ?_⟩
  · rcases List.mem_cons.mp hp with rfl | hp
    · exact ⟨['a'], rfl, by decide, by decide⟩
    · rw [List.mem_singleton.mp hp]
      exact ⟨['n'], rfl, by decide, by decide⟩
  · rcases List.mem_cons.mp hp with rfl | hp
    · decide
    · rw [List.mem_singleton.mp hp]
      decide
  · cases k with
    | zero => exact ⟨5, rfl⟩
    | succ k =>
      have hlt : k + 1 < 2 := hk
      obtain rfl : k = 0 := by omega
      exact ⟨6, rfl⟩

/-- `define void @f(i32* dereferenceable(8) %a) {` gets a register with the name `a) {`. -/
theorem header_dereferenceable : ¬ ∀ (c : GlobalVars) (h : Header), h.Legal →
    (∀ k < h.params.length, ∃ v, c.getGlobalVar (8 * k) 8 = .ok v) →
      ∃ regs, bindHeader c h.text = .ok regs ∧ Bound c h regs := by
  intro h
  have hvars : ∀ k < (voidHeader "i32* dereferenceable(8)".toList []).params.length,
      ∃ v, twoVars.getGlobalVar (8 * k) 8 = .ok v := by
    intro k hk
    obtain rfl : k = 0 := Nat.lt_one_iff.mp hk
    exact ⟨5, rfl⟩
  have hlegal : (voidHeader "i32* dereferenceable(8)".toList []).Legal := voidHeader_legal (by decide) (by simp)
  obtain ⟨regs, hregs, hnames, -⟩ := h twoVars _ hlegal hvars
  have hread : bindHeader twoVars (voidHeader "i32* dereferenceable(8)".toList []).text =
      .ok [(['a', ')', ' ', '\x7b'], 5)] := by rfl
  cases hread.symm.trans hregs
  exact absurd hnames (by decide)

end Salam.Ir
