import Chip32.LexerGrammar
import Chip32.Parser
import Mathlib.Tactic.SplitIfs

/-!
# What the parser accepts

One lemma for each function: which tokens it takes, what it finds in them, and
what it changes. Callers use these and never look into the function again.
-/
namespace Asm

open Runs Vm Grammar

@[simp] theorem complainAt_ne_ok {α : Type} {c : Asmchip32} {tk : Lextoken} {e : String} {a : α} :
    (complainAt c tk e : Build α) ≠ .ok a := nofun

theorem tokenAt_ok {cmd : Lexcmd} {i : Nat} {tk : Lextoken} :
    tokenAt cmd i = .ok tk ↔ cmd[i]? = some tk := by
  unfold tokenAt
  cases cmd[i]? <;> simp

theorem need_ok {c : Asmchip32} {cmd : Lexcmd} {i : Nat} {e : String} {tk : Lextoken} :
    need c cmd i e = .ok tk ↔ cmd[i]? = some tk := by
  unfold need
  cases cmd[i]? with
  | none => simp [bind_eq_ok]
  | some tk' => simp

/-- The word a token stands for as an operand. -/
def valueOf (d : List Declared) (tk : Lextoken) : Option Word :=
  match tk.type with
  | .literalNum => some (number tk.start)
  | .name => (declareFind d tk.text).map Declared.addr
  | _ => none

/-- The mode written before a source and the position of its value. -/
def rvaluePos (cmd : Lexcmd) (ic : Nat) : Option (Option Mode × Nat) :=
  cmd[ic]?.map fun tk => match rvalueType tk.type with
    | some m => (some m, ic + 1)
    | none => (none, ic)

/-- The mode written before a destination. -/
def lvalueType : Tktype → Option Mode
  | .ram => some .ram
  | .ptr => some .ptr
  | _ => none

/-- The flags with a mode, if there is one. -/
def setMode (flags : BitVec 8) (idarg : Bool) : Option Mode → BitVec 8
  | none => flags
  | some m => if idarg then arg1fSet flags m else arg0fSet flags m

/-- The operand's name is a label. -/
def NamesLabel (d : List Declared) (tk : Lextoken) : Prop :=
  tk.type = .name ∧ (declareFind d tk.text).map Declared.type = some .label

instance (d : List Declared) (tk : Lextoken) : Decidable (NamesLabel d tk) :=
  inferInstanceAs (Decidable (_ ∧ _))

theorem rvalueArg_ok {c : Asmchip32} {cmd : Lexcmd} {ic : Nat} {v : Word} :
    rvalueArg c cmd ic = .ok v ↔ ∃ tk, cmd[ic]? = some tk ∧ valueOf c.declare tk = some v := by
  simp only [rvalueArg, bind_eq_ok, need_ok]
  refine exists_congr fun tk => and_congr_right fun _ => ?_
  unfold valueOf
  cases tk.type with
  | name => cases declareFind c.declare tk.text <;> simp
  | _ => simp

theorem type_of_valueOf {d : List Declared} {tk : Lextoken} {v : Word} (h : valueOf d tk = some v) :
    tk.type = .literalNum ∨ tk.type = .name := by
  unfold valueOf at h
  cases ht : tk.type with
  | literalNum => exact .inl rfl
  | name => exact .inr rfl
  | _ => simp [ht] at h

theorem rvalueMode_ok {c : Asmchip32} {cmd : Lexcmd} {ic : Nat} {flags : BitVec 8} {idarg : Bool}
    {r : Nat × BitVec 8} (h : rvalueMode c cmd ic flags idarg = .ok r) :
    ∃ m, rvaluePos cmd ic = some (m, r.1) ∧ r.2 = setMode flags idarg m := by
  obtain ⟨tk, htk, h⟩ := bind_eq_ok.mp h
  rw [need_ok] at htk
  cases hm : rvalueType tk.type with
  | some m =>
    simp only [hm] at h
    cases h
    exact ⟨some m, by simp [rvaluePos, htk, hm], rfl⟩
  | none =>
    simp only [hm] at h
    split_ifs at h
    · cases h
      exact ⟨none, by simp [rvaluePos, htk, hm], rfl⟩
    · exact absurd h complainAt_ne_ok

theorem rvalueMode_of_pos {c : Asmchip32} {cmd : Lexcmd} {ic q : Nat} {m : Option Mode}
    {tk : Lextoken} {v : Word} (flags : BitVec 8) (idarg : Bool)
    (hpos : rvaluePos cmd ic = some (m, q)) (htk : cmd[q]? = some tk)
    (hv : valueOf c.declare tk = some v) :
    rvalueMode c cmd ic flags idarg = .ok (q, setMode flags idarg m) := by
  obtain ⟨s, hs, hpos⟩ := Option.map_eq_some_iff.mp hpos
  rw [rvalueMode, need_ok.mpr hs, ok_bind]
  cases hm : rvalueType s.type with
  | some m' =>
    simp only [hm] at hpos
    cases hpos
    rfl
  | none =>
    simp only [hm] at hpos
    cases hpos
    obtain rfl : s = tk := Option.some.inj (hs.symm.trans htk)
    simp only [if_pos (type_of_valueOf hv)]
    rfl

/-- At `ic` stands a source: its mode, the position of its value and the value. -/
def IsRvalue (d : List Declared) (cmd : Lexcmd) (ic : Nat) (m : Option Mode) (q : Nat) (v : Word) :
    Prop :=
  rvaluePos cmd ic = some (m, q) ∧ ∃ tk, cmd[q]? = some tk ∧ valueOf d tk = some v

theorem parseRvalue_ok {c : Asmchip32} {cmd : Lexcmd} {ic : Nat} {flags : BitVec 8} {idarg : Bool}
    {r : Operand} :
    parseRvalue c cmd ic flags idarg = .ok r ↔
      ∃ m, IsRvalue c.declare cmd ic m r.ic r.arg ∧ r.flags = setMode flags idarg m := by
  constructor
  · intro h
    obtain ⟨s, hs, h⟩ := bind_eq_ok.mp h
    obtain ⟨v, hv, h⟩ := bind_eq_ok.mp h
    cases h
    obtain ⟨m, hpos, hflags⟩ := rvalueMode_ok hs
    exact ⟨m, ⟨hpos, rvalueArg_ok.mp hv⟩, hflags⟩
  · obtain ⟨q, f, v⟩ := r
    rintro ⟨m, ⟨hpos, tk, htk, hv⟩, rfl⟩
    simp only [parseRvalue, rvalueMode_of_pos flags idarg hpos htk hv, ok_bind,
      rvalueArg_ok.mpr ⟨tk, htk, hv⟩]
    rfl

theorem lvalueMode_ok {c : Asmchip32} {cmd : Lexcmd} {ic : Nat} {flags f : BitVec 8} :
    lvalueMode c cmd ic flags = .ok f ↔
      ∃ tk m, cmd[ic]? = some tk ∧ lvalueType tk.type = some m ∧ f = arg0fSet flags m := by
  simp only [lvalueMode, bind_eq_ok, need_ok]
  refine exists_congr fun tk => ?_
  cases ht : tk.type <;> simp [lvalueType, eq_comm]

/-- A destination that names a label is taken, and the error is left behind. -/
def markLabel (c : Asmchip32) (tk : Lextoken) : Asmchip32 :=
  if NamesLabel c.declare tk then
    c.complainAt tk ("variable " ++ String.ofList tk.text ++ " is label") else c

theorem lvalueArg_ok {c d : Asmchip32} {cmd : Lexcmd} {ic : Nat} {v : Word} :
    lvalueArg c cmd ic = .ok (d, v) ↔
      ∃ tk, cmd[ic]? = some tk ∧ valueOf c.declare tk = some v ∧ d = markLabel c tk := by
  simp only [lvalueArg, bind_eq_ok, need_ok]
  refine exists_congr fun tk => and_congr_right fun _ => ?_
  cases ht : tk.type with
  | literalNum => simp [valueOf, markLabel, NamesLabel, ht, eq_comm, and_comm]
  | name =>
    cases hf : declareFind c.declare tk.text with
    | none => simp [valueOf, ht, hf]
    | some dec => simp [valueOf, markLabel, NamesLabel, ht, hf, eq_comm, and_comm]
  | _ => simp [valueOf, ht]

/-- At `ic` stands a destination: its mode, its token and the token's value. -/
def IsLvalue (d : List Declared) (cmd : Lexcmd) (ic : Nat) (m : Mode) (tk : Lextoken) (v : Word) :
    Prop :=
  (cmd[ic]?.map Lextoken.type).bind lvalueType = some m ∧ cmd[ic + 1]? = some tk ∧
    valueOf d tk = some v

theorem parseLvalue_ok {c : Asmchip32} {cmd : Lexcmd} {ic : Nat} {flags : BitVec 8}
    {r : Asmchip32 × Operand} :
    parseLvalue c cmd ic flags = .ok r ↔
      ∃ m tk, IsLvalue c.declare cmd ic m tk r.2.arg ∧ r.1 = markLabel c tk ∧
        r.2.ic = ic + 1 ∧ r.2.flags = arg0fSet flags m := by
  constructor
  · intro h
    obtain ⟨f, hf, h⟩ := bind_eq_ok.mp h
    obtain ⟨⟨d, v⟩, hr, h⟩ := bind_eq_ok.mp h
    cases h
    obtain ⟨s, m, hs, hm, rfl⟩ := lvalueMode_ok.mp hf
    obtain ⟨tk, htk, hv, rfl⟩ := lvalueArg_ok.mp hr
    exact ⟨m, tk, ⟨by simp [hs, hm], htk, hv⟩, rfl, rfl, rfl⟩
  · obtain ⟨d, q, f, v⟩ := r
    rintro ⟨m, tk, ⟨hm, htk, hv⟩, rfl, rfl, rfl⟩
    obtain ⟨type, htype, hm⟩ := Option.bind_eq_some_iff.mp hm
    obtain ⟨s, hs, rfl⟩ := Option.map_eq_some_iff.mp htype
    simp only [parseLvalue, lvalueMode_ok.mpr ⟨s, m, hs, hm, rfl⟩, ok_bind,
      lvalueArg_ok.mpr ⟨tk, htk, hv, rfl⟩]
    rfl

/-- The label `parse_label` looks at. -/
def labelOf : Lexcmd → Option (List Char)
  | [] => none
  | tk :: _ => if tk.type = .label then some tk.text else none

/-- The position of the first token behind label and command name. -/
def firstPos (cmd : Lexcmd) : Nat := if (labelOf cmd).isSome then 2 else 1

/-- A name that can be added. -/
def Fresh (d : List Declared) (name : List Char) : Prop :=
  declareFind d name = none ∧ name.length ≤ rbhKey

instance (d : List Declared) (name : List Char) : Decidable (Fresh d name) :=
  inferInstanceAs (Decidable (_ ∧ _))

def LabelFresh (d : List Declared) (cmd : Lexcmd) : Prop := ∀ l ∈ labelOf cmd, Fresh d l

instance (d : List Declared) (cmd : Lexcmd) : Decidable (LabelFresh d cmd) :=
  match h : labelOf cmd with
  | none => .isTrue (by simp [LabelFresh, h])
  | some l => decidable_of_iff (Fresh d l) (by simp [LabelFresh, h])

/-- The state in which the label is declared. -/
def addLabel (c : Asmchip32) (cmd : Lexcmd) : Asmchip32 :=
  { c with declare := c.declare ++
    (labelOf cmd).toList.map fun l => ⟨.label, BitVec.ofNat 32 c.vcmd.length, l⟩ }

theorem declareAdd_eq (d : List Declared) (dec : Declared) :
    declareAdd d dec = if Fresh d dec.name then some (d ++ [dec]) else none := by
  have hiff : ((declareFind d dec.name).isSome ∨ rbhKey < dec.name.length) ↔
      ¬ Fresh d dec.name := by
    rw [Fresh, not_and_or, Nat.not_le, Option.isSome_iff_ne_none]
  simp only [declareAdd, hiff, ite_not]

theorem declareFind_snoc (ds : List Declared) (x : Declared) (name : List Char) :
    declareFind (ds ++ [x]) name =
      (declareFind ds name).or (if x.name = name then some x else none) := by
  rw [declareFind, List.find?_append, List.find?_singleton]
  simp [declareFind]

theorem addLabel_of_none {c : Asmchip32} {cmd : Lexcmd} (h : labelOf cmd = none) :
    addLabel c cmd = c := by
  simp [addLabel, h]

/-- Both ways out of `parse_label` that its callers tell apart. -/
theorem firstArg_eq {c : Asmchip32} {cmd : Lexcmd} (hcmd : cmd ≠ []) :
    (LabelFresh c.declare cmd ∧ firstArg c cmd = .ok (firstPos cmd, addLabel c cmd)) ∨
    ∃ tk e, cmd[0]? = some tk ∧ tk.type = .label ∧ ¬ LabelFresh c.declare cmd ∧
      firstArg c cmd = .ok (0, c.complainAt tk e) := by
  obtain ⟨tk, rest, rfl⟩ := List.exists_cons_of_ne_nil hcmd
  by_cases ht : tk.type = .label
  · have hl : labelOf (tk :: rest) = some tk.text := by simp [labelOf, ht]
    by_cases hf : Fresh c.declare tk.text
    · refine .inl ⟨by simpa [LabelFresh, hl] using hf, ?_⟩
      simp [firstArg, parseLabel, tokenAt, ht, declareAdd_eq, hf, firstPos, addLabel, hl]
    · refine .inr ⟨tk, "invalid label: redeclaration name '" ++ String.ofList tk.text ++ "'", rfl,
        ht, by simpa [LabelFresh, hl] using hf, ?_⟩
      simp [firstArg, parseLabel, tokenAt, ht, declareAdd_eq, hf]
  · have hl : labelOf (tk :: rest) = none := by simp [labelOf, ht]
    refine .inl ⟨by simp [LabelFresh, hl], ?_⟩
    simp [firstArg, parseLabel, tokenAt, ht, firstPos, addLabel, hl]

/-- Nothing at a label is an operand. -/
theorem not_isRvalue_label {d : List Declared} {cmd : Lexcmd} {m : Option Mode} {q : Nat} {v : Word}
    {tk : Lextoken} (h₀ : cmd[0]? = some tk) (ht : tk.type = .label) :
    ¬ IsRvalue d cmd 0 m q v := by
  rintro ⟨hpos, tk', htk, hv⟩
  simp only [rvaluePos, h₀, Option.map_some, ht, rvalueType] at hpos
  cases hpos
  cases Option.some.inj (h₀.symm.trans htk)
  simp [valueOf, ht] at hv

theorem not_isLvalue_label {d : List Declared} {cmd : Lexcmd} {m : Mode} {tk' : Lextoken} {v : Word}
    {tk : Lextoken} (h₀ : cmd[0]? = some tk) (ht : tk.type = .label) :
    ¬ IsLvalue d cmd 0 m tk' v := by
  rintro ⟨hm, _⟩
  simp [h₀, ht, lvalueType] at hm

theorem oneOperand_ok {c : Asmchip32} {cmd : Lexcmd} (hcmd : cmd ≠ [])
    {r : Asmchip32 × BitVec 8 × Word} :
    oneOperand c cmd = .ok r ↔
      LabelFresh c.declare cmd ∧ r.1 = addLabel c cmd ∧
        ∃ m q, IsRvalue (addLabel c cmd).declare cmd (firstPos cmd) m q r.2.2 ∧
          r.2.1 = setMode 0 false m := by
  simp only [oneOperand, bind_eq_ok]
  rcases firstArg_eq (c := c) hcmd with ⟨hf, harg⟩ | ⟨tk, e, h₀, ht, hf, harg⟩
  · constructor
    · rintro ⟨x, hx, o, ho, hr⟩
      cases harg.symm.trans hx
      cases hr
      obtain ⟨m, hm, hflags⟩ := parseRvalue_ok.mp ho
      exact ⟨hf, rfl, m, o.ic, hm, hflags⟩
    · obtain ⟨c', f, v⟩ := r
      rintro ⟨_, rfl, m, q, hm, rfl⟩
      exact ⟨_, harg, ⟨q, _, v⟩, parseRvalue_ok.mpr ⟨m, hm, rfl⟩, rfl⟩
  · constructor
    · rintro ⟨x, hx, o, ho, hr⟩
      cases harg.symm.trans hx
      obtain ⟨m, hm, _⟩ := parseRvalue_ok.mp ho
      exact absurd hm (not_isRvalue_label h₀ ht)
    · rintro ⟨hf', _⟩
      exact absurd hf' hf

/-- An error text that is left behind is no part of the code. -/
theorem markLabel_keeps (c : Asmchip32) (tk : Lextoken) :
    (markLabel c tk).mc = c.mc ∧ (markLabel c tk).avaddr = c.avaddr ∧
      (markLabel c tk).vcmd = c.vcmd := by
  unfold markLabel
  split_ifs <;> exact ⟨rfl, rfl, rfl⟩

@[simp] theorem markLabel_mc (c : Asmchip32) (tk : Lextoken) : (markLabel c tk).mc = c.mc :=
  (markLabel_keeps c tk).1

@[simp] theorem markLabel_declare (c : Asmchip32) (tk : Lextoken) :
    (markLabel c tk).declare = c.declare := by
  unfold markLabel
  split_ifs <;> rfl

theorem twoOperands_ok {c : Asmchip32} {cmd : Lexcmd} (hcmd : cmd ≠ [])
    {r : Asmchip32 × BitVec 8 × Word × Word} :
    twoOperands c cmd = .ok r ↔
      LabelFresh c.declare cmd ∧ ∃ m tk m' q,
        IsLvalue (addLabel c cmd).declare cmd (firstPos cmd) m tk r.2.2.1 ∧
        IsRvalue (addLabel c cmd).declare cmd (firstPos cmd + 2) m' q r.2.2.2 ∧
        r.1 = markLabel (addLabel c cmd) tk ∧ r.2.1 = setMode (arg0fSet 0 m) true m' := by
  simp only [twoOperands, bind_eq_ok]
  rcases firstArg_eq (c := c) hcmd with ⟨hf, harg⟩ | ⟨tk, e, h₀, ht, hf, harg⟩
  · constructor
    · rintro ⟨x, hx, l, hl, o, ho, hr⟩
      cases harg.symm.trans hx
      cases hr
      obtain ⟨m, tk, hm, hc, hic, hflags⟩ := parseLvalue_ok.mp hl
      obtain ⟨m', hm', hflags'⟩ := parseRvalue_ok.mp ho
      rw [hc, hic, markLabel_declare] at hm'
      rw [hflags] at hflags'
      exact ⟨hf, m, tk, m', o.ic, hm, hm', hc, hflags'⟩
    · obtain ⟨c', f, v, w⟩ := r
      rintro ⟨_, m, tk, m', q, hm, hm', rfl, rfl⟩
      refine ⟨_, harg, (markLabel (addLabel c cmd) tk, ⟨firstPos cmd + 1, arg0fSet 0 m, v⟩),
        parseLvalue_ok.mpr ⟨m, tk, hm, rfl, rfl, rfl⟩, ⟨q, _, w⟩,
        parseRvalue_ok.mpr ⟨m', by rw [markLabel_declare]; exact hm', rfl⟩, rfl⟩
  · constructor
    · rintro ⟨x, hx, l, hl, _⟩
      cases harg.symm.trans hx
      obtain ⟨m, tk, hm, _⟩ := parseLvalue_ok.mp hl
      exact absurd hm (not_isLvalue_label h₀ ht)
    · rintro ⟨hf', _⟩
      exact absurd hf' hf

/-- The moves that store values from `addr + j` on. -/
def moves (addr : Word) : Nat → List Word → List Command
  | _, [] => []
  | j, v :: vs =>
    ⟨modeBits .ram, Opcode.move.code, addr + BitVec.ofNat 32 j, v⟩ :: moves addr (j + 1) vs

theorem length_moves (addr : Word) (j : Nat) (vs : List Word) : (moves addr j vs).length = vs.length := by
  induction vs generalizing j with
  | nil => rfl
  | cons v vs ih => rw [moves, List.length_cons, List.length_cons, ih]

theorem moves_append (addr : Word) (j : Nat) (vs ws : List Word) :
    moves addr j (vs ++ ws) = moves addr j vs ++ moves addr (j + vs.length) ws := by
  induction vs generalizing j with
  | nil => rfl
  | cons v vs ih =>
    rw [List.cons_append, moves, ih, moves, List.length_cons, Nat.add_right_comm]
    rfl

theorem getElem?_moves (addr : Word) (j i : Nat) (vs : List Word) : (moves addr j vs)[i]? =
    vs[i]?.map fun v => ⟨modeBits .ram, Opcode.move.code, addr + BitVec.ofNat 32 (j + i), v⟩ := by
  induction vs generalizing i j with
  | nil => rfl
  | cons v vs ih =>
    cases i with
    | zero => rfl
    | succ i =>
      rw [moves, List.getElem?_cons_succ, List.getElem?_cons_succ, ih, Nat.add_right_comm j 1 i]
      rfl

theorem pushString_eq (addr : Word) (j : Nat) (s : List Char) (c : Asmchip32) :
    pushString addr j s c = { c with mc := c.mc ++ moves addr j (s.map charWord) } := by
  induction s generalizing j c with
  | nil => simp [pushString, moves]
  | cons ch s ih => simp [pushString, ih, pushMove, Asmchip32.emit, moves]

/-- The value of an initialising number or character. -/
def initValue (tk : Lextoken) : Option Word :=
  match tk.type with
  | .literalNum => some (number tk.start)
  | .literalChar => some (charWord (deref tk.start.tail))
  | _ => none

theorem pushValues_cons {addr : Word} {size : Int} {j : Nat} (tk : Lextoken) (tks : List Lextoken)
    (c : Asmchip32) (h : ¬ size ≤ j) :
    pushValues addr size j (tk :: tks) c = match initValue tk with
      | none => complainAt c tk "cant mix different literal type"
      | some v =>
        if tks = [] then
          complainAt (c.emit ⟨modeBits .ram, Opcode.move.code, addr + BitVec.ofNat 32 j, v⟩) tk
            "missing argument"
        else
          pushValues addr size (j + 1) tks
            (c.emit ⟨modeBits .ram, Opcode.move.code, addr + BitVec.ofNat 32 j, v⟩) := by
  rw [pushValues, if_neg h]
  unfold initValue
  cases tk.type <;> rfl

/-- A list is accepted if it is longer than the size, unless the size is not positive. -/
theorem pushValues_ok {addr : Word} {size : Int} {j : Nat} {tks : List Lextoken}
    {c d : Asmchip32} :
    pushValues addr size j tks c = .ok d ↔
      ∃ vs : List Word, (size - j).toNat = vs.length ∧ (vs ≠ [] → vs.length < tks.length) ∧
        (tks.take vs.length).map initValue = vs.map some ∧
        d = { c with mc := c.mc ++ moves addr j vs } := by
  induction tks generalizing j c with
  | nil =>
    constructor
    · intro h
      rw [pushValues] at h
      split_ifs at h with hj
      cases h
      exact ⟨[], by simp; omega, by simp, rfl, by simp [moves]⟩
    · rintro ⟨vs, hsize, hlt, _, rfl⟩
      cases vs with
      | nil =>
        simp only [List.length_nil] at hsize
        rw [pushValues, if_pos (by omega)]
        simp [moves]
      | cons v vs => simp at hlt
  | cons tk tks ih =>
    constructor
    · intro h
      by_cases hj : size ≤ j
      · rw [pushValues, if_pos hj] at h
        cases h
        exact ⟨[], by simp; omega, by simp, rfl, by simp [moves]⟩
      · rw [pushValues_cons tk tks c hj] at h
        cases hv : initValue tk with
        | none => simp [hv] at h
        | some v =>
          simp only [hv] at h
          split_ifs at h with htks
          · exact absurd h complainAt_ne_ok
          · obtain ⟨vs, hsize, hlt, hvs, rfl⟩ := ih.mp h
            have hpos := List.length_pos_iff.mpr htks
            refine ⟨v :: vs, by simp; omega, fun _ => ?_, by simp [hv, hvs], ?_⟩
            · cases vs with
              | nil => simpa using hpos
              | cons w ws => simpa using hlt (by simp)
            · simp [moves, Asmchip32.emit]
    · rintro ⟨vs, hsize, hlt, hvs, rfl⟩
      cases vs with
      | nil =>
        simp only [List.length_nil] at hsize
        rw [pushValues, if_pos (by omega)]
        simp [moves]
      | cons v vs =>
        simp only [List.length_cons] at hsize hlt hvs
        have hlt := hlt (by simp)
        have htks : tks ≠ [] := by
          rintro rfl
          simp at hlt
        simp only [List.take_succ_cons, List.map_cons, List.cons.injEq] at hvs
        rw [pushValues_cons tk tks c (by omega)]
        simp only [hvs.1, if_neg htks]
        rw [ih]
        refine ⟨vs, by omega, fun _ => by omega, hvs.2, ?_⟩
        simp [moves, Asmchip32.emit]

/-- The characters `strchr` leaves of a string. -/
def stringBody (tk : Lextoken) : List Char :=
  tk.start.tail.takeWhile fun ch => ch ≠ '"' && ch ≠ nul

/-- What an accepted declaration asks for behind its address: how far the next
automatic address moves, and the values it stores. -/
inductive Storage (cmd : Lexcmd) : BitVec 64 → List Word → Prop
  | cell (h : cmd[3]? = none) : Storage cmd 1 []
  | string {size init : Lextoken} (h₃ : cmd[3]? = some size)
      (hsize : size.type = .literalNum ∨ size.type = .auto) (h₄ : cmd[4]? = some init)
      (hinit : init.type = .literalStr)
      (hend : deref (init.start.tail.drop (stringBody init).length) ≠ nul) :
      Storage cmd (BitVec.ofNat 64 (stringBody init).length + 1)
        ((stringBody init).map charWord ++ [0])
  | list {size init : Lextoken} (h₃ : cmd[3]? = some size) (hsize : size.type = .literalNum)
      (h₄ : cmd[4]? = some init) (hinit : init.type = .literalNum ∨ init.type = .literalChar)
      (hzero : strtoul init.start ≠ 0) {vs : List Word}
      (hlen : (strtoul init.start).toInt.toNat = vs.length)
      (hlt : vs ≠ [] → 4 + vs.length < cmd.length)
      (hvs : ((cmd.drop 4).take vs.length).map initValue = vs.map some) :
      Storage cmd (strtoul init.start) vs

/-- What the lexer guarantees of the tokens of a command. -/
structure WellLexed (cmd : Lexcmd) : Prop where
  ne_nil : cmd ≠ []
  fits : cmd.length ≤ maxToken
  named : (labelOf cmd).isSome → 1 < cmd.length
  quoted : ∀ tk ∈ cmd, tk.type = .literalStr → deref tk.start = '"'

theorem strtoul_eq_zero {p : Text} (hs : isSpace (deref p) = false) (hd : isDigit (deref p) = false)
    (hsign : deref p ≠ '-' ∧ deref p ≠ '+') : strtoul p = 0 := by
  cases p with
  | nil => rfl
  | cons c p =>
    simp only [deref_cons] at hs hd hsign
    simp [strtoul, hs, hsign, hd, digitsValue]

/-- The state behind a declaration's size and initialiser. -/
def stored (c : Asmchip32) (addr : Word) (dauto : Bool) (n : BitVec 64) (vs : List Word) :
    Asmchip32 :=
  { c with mc := c.mc ++ moves addr 0 vs }.advance dauto n

theorem length_stored (c : Asmchip32) (addr : Word) (dauto : Bool) (n : BitVec 64)
    (vs : List Word) : (stored c addr dauto n vs).mc.length = c.mc.length + vs.length := by
  cases dauto <;> simp [stored, Asmchip32.advance, length_moves]

theorem stored_declare (c : Asmchip32) (addr : Word) (dauto : Bool) (n : BitVec 64)
    (vs : List Word) : (stored c addr dauto n vs).declare = c.declare := by
  cases dauto <;> rfl

theorem initialise_string {c d : Asmchip32} {cmd : Lexcmd} {addr : Word} {dauto : Bool}
    {tk : Lextoken} (ht : tk.type = .literalStr) (hq : deref tk.start = '"') :
    initialise c cmd addr dauto 0 tk = .ok d ↔
      deref (tk.start.tail.drop (stringBody tk).length) ≠ nul ∧
        d = stored c addr dauto (BitVec.ofNat 64 (stringBody tk).length + 1)
          ((stringBody tk).map charWord ++ [0]) := by
  have hbody : (tk.start.tail.takeWhile fun ch => ch ≠ deref tk.start && ch ≠ nul) =
      stringBody tk := by rw [hq]; rfl
  simp only [initialise, ht, hbody, if_true]
  split_ifs with hend
  · exact ⟨fun h => absurd h complainAt_ne_ok, fun h => absurd hend h.1⟩
  · have hd : ∀ n : Nat, (BitVec.ofNat 64 n).setWidth 32 = BitVec.ofNat 32 n := by
      intro n
      apply BitVec.eq_of_toNat_eq
      simp
    rw [and_iff_right hend]
    simp [stored, pushString_eq, pushMove, Asmchip32.emit, moves_append, moves, eq_comm, hd]

theorem initialise_list {c d : Asmchip32} {cmd : Lexcmd} {addr : Word} {dauto : Bool}
    {tk : Lextoken} {sauto : BitVec 64} (ht : tk.type = .literalNum ∨ tk.type = .literalChar)
    (hcmd : 4 < cmd.length ∧ cmd.length ≤ maxToken) :
    initialise c cmd addr dauto sauto tk = .ok d ↔
      ∃ vs : List Word, sauto ≠ 0 ∧ sauto.toInt.toNat = vs.length ∧
        (vs ≠ [] → 4 + vs.length < cmd.length) ∧
        ((cmd.drop 4).take vs.length).map initValue = vs.map some ∧
        d = stored c addr dauto sauto vs := by
  have hinit : initialise c cmd addr dauto sauto tk = (do
      let n := if sauto = 0 then BitVec.ofNat 64 (cmd.length - 4) else sauto
      let c ← pushValues addr n.toInt 0 (cmd.drop 4) c
      .ok (c.advance dauto n)) := by
    rcases ht with ht | ht <;> simp only [initialise, ht]
  rw [hinit, bind_eq_ok]
  by_cases hz : sauto = 0
  · have hn : (BitVec.ofNat 64 (cmd.length - 4)).toInt = ((cmd.length - 4 : Nat) : Int) := by
      have := hcmd.2
      rw [BitVec.toInt_eq_toNat_cond, BitVec.toNat_ofNat]
      simp only [maxToken] at this
      omega
    constructor
    · rintro ⟨e, he, _⟩
      rw [if_pos hz, hn] at he
      obtain ⟨vs, hsize, hlt, _⟩ := pushValues_ok.mp he
      have hne : vs ≠ [] := by
        rintro rfl
        simp only [List.length_nil] at hsize
        omega
      have := hlt hne
      rw [List.length_drop] at this
      omega
    · rintro ⟨_, h, _⟩
      exact absurd hz h
  · rw [if_neg hz]
    constructor
    · rintro ⟨e, he, h⟩
      obtain ⟨vs, hsize, hlt, hvs, rfl⟩ := pushValues_ok.mp he
      cases h
      rw [List.length_drop] at hlt
      exact ⟨vs, hz, by simpa using hsize, fun h => by have := hlt h; omega, hvs, rfl⟩
    · rintro ⟨vs, _, hsize, hlt, hvs, rfl⟩
      refine ⟨_, pushValues_ok.mpr ⟨vs, by simpa using hsize, fun h => ?_, hvs, rfl⟩, rfl⟩
      have := hlt h
      rw [List.length_drop]
      omega

theorem strtoul_quoted {tk : Lextoken} (h : deref tk.start = '"') : strtoul tk.start = 0 := by
  apply strtoul_eq_zero <;> rw [h] <;> decide

theorem declareSize_ok {c : Asmchip32} {cmd : Lexcmd} {tk : Lextoken} {sauto : BitVec 64} :
    declareSize c cmd tk = .ok sauto ↔
      (tk.type = .literalNum ∧ ∃ next, cmd[4]? = some next ∧ sauto = strtoul next.start) ∨
        (tk.type = .auto ∧ sauto = 0) := by
  unfold declareSize
  cases ht : tk.type with
  | literalNum =>
    simp only [bind_eq_ok, tokenAt_ok]
    constructor
    · rintro ⟨next, hnext, h⟩
      cases h
      exact .inl ⟨trivial, next, hnext, rfl⟩
    · rintro (⟨_, next, hnext, rfl⟩ | ⟨h, _⟩)
      · exact ⟨next, hnext, rfl⟩
      · cases h
  | auto =>
    constructor
    · intro h
      cases h
      exact .inr ⟨rfl, rfl⟩
    · rintro (⟨h, _⟩ | ⟨_, rfl⟩)
      · cases h
      · rfl
  | _ => simp

theorem declareStorage_ok {c d : Asmchip32} {cmd : Lexcmd} {addr : Word} {dauto : Bool}
    (hcmd : WellLexed cmd) :
    declareStorage c cmd addr dauto = .ok d ↔
      ∃ n vs, Storage cmd n vs ∧ d = stored c addr dauto n vs := by
  cases h₃ : cmd[3]? with
  | none =>
    simp only [declareStorage, h₃]
    constructor
    · intro h
      cases h
      exact ⟨1, [], .cell h₃, by simp [stored, moves]⟩
    · rintro ⟨n, vs, hst, rfl⟩
      cases hst with
      | cell => simp [stored, moves]
      | string h₃' => simp [h₃] at h₃'
      | list h₃' => simp [h₃] at h₃'
  | some size =>
    simp only [declareStorage, h₃, bind_eq_ok, declareSize_ok]
    cases h₄ : cmd[4]? with
    | none =>
      constructor
      · rintro ⟨sauto, ⟨_, next, hnext, _⟩ | ⟨_, rfl⟩, h⟩
        · cases hnext
        · simp at h
      · rintro ⟨n, vs, hst, rfl⟩
        cases hst with
        | cell h => simp [h₃] at h
        | string _ _ h => simp [h₄] at h
        | list _ _ h => simp [h₄] at h
    | some init =>
      have hlen : 4 < cmd.length := (List.getElem?_eq_some_iff.mp h₄).1
      have hquote := hcmd.quoted init (List.mem_of_getElem? h₄)
      constructor
      · rintro ⟨sauto, hsauto, h⟩
        simp only at h
        cases hi : init.type with
        | literalStr =>
          have hz : sauto = 0 := by
            rcases hsauto with ⟨_, next, hnext, rfl⟩ | ⟨_, rfl⟩
            · cases hnext
              exact strtoul_quoted (hquote hi)
            · rfl
          subst hz
          obtain ⟨hend, rfl⟩ := (initialise_string hi (hquote hi)).mp h
          exact ⟨_, _, .string h₃ (hsauto.imp And.left And.left) h₄ hi hend, rfl⟩
        | literalNum | literalChar =>
          obtain ⟨vs, hz, hsize, hlt, hvs, rfl⟩ :=
            (initialise_list (by simp [hi]) ⟨hlen, hcmd.fits⟩).mp h
          rcases hsauto with ⟨ht, next, hnext, rfl⟩ | ⟨_, rfl⟩
          · cases hnext
            exact ⟨_, vs, .list h₃ ht h₄ (by simp [hi]) hz hsize hlt hvs, rfl⟩
          · exact absurd rfl hz
        | _ => simp [initialise, hi] at h
      · rintro ⟨n, vs, hst, rfl⟩
        cases hst with
        | cell h => simp [h₃] at h
        | string h₃' hsize h₄' hinit hend =>
          cases h₃.symm.trans h₃'
          cases h₄.symm.trans h₄'
          refine ⟨0, ?_, (initialise_string hinit (hquote hinit)).mpr ⟨hend, rfl⟩⟩
          refine hsize.imp (fun h => ⟨h, init, rfl, ?_⟩) fun h => ⟨h, rfl⟩
          exact (strtoul_quoted (hquote hinit)).symm
        | list h₃' hsize h₄' hinit hzero hlen' hlt hvs =>
          cases h₃.symm.trans h₃'
          cases h₄.symm.trans h₄'
          exact ⟨_, .inl ⟨hsize, init, rfl, rfl⟩,
            (initialise_list hinit ⟨hlen, hcmd.fits⟩).mpr ⟨vs, hzero, hlen', hlt, hvs, rfl⟩⟩

/-- The address a declaration asks for, and whether it is automatic. -/
def place (c : Asmchip32) (tk place : Lextoken) : Option (Word × Bool) :=
  match place.type with
  | .literalNum => some (number tk.start, false)
  | .auto => some (c.avaddr.setWidth 32, true)
  | _ => none

theorem declareAddr_ok {c : Asmchip32} {tk pl : Lextoken} {r : Word × Bool} :
    declareAddr c tk pl = .ok r ↔ place c tk pl = some r := by
  unfold declareAddr place
  cases pl.type <;> simp

theorem actionDeclare_ok {c d : Asmchip32} {cmd : Lexcmd} (hcmd : WellLexed cmd) :
    actionDeclare c cmd = .ok d ↔
      ∃ tk pl addr dauto n vs, cmd[1]? = some tk ∧ tk.type = .name ∧ cmd[2]? = some pl ∧
        place c tk pl = some (addr, dauto) ∧ Storage cmd n vs ∧ Fresh c.declare tk.text ∧
        d = { stored c addr dauto n vs with
          declare := c.declare ++ [⟨.literalNum, addr, tk.text⟩] } := by
  simp only [actionDeclare, bind_eq_ok, tokenAt_ok]
  constructor
  · rintro ⟨tk, htk, h⟩
    split_ifs at h with hname
    · exact absurd h complainAt_ne_ok
    · obtain ⟨pl, hpl, h⟩ := bind_eq_ok.mp h
      obtain ⟨⟨addr, dauto⟩, hp, h⟩ := bind_eq_ok.mp h
      obtain ⟨e, he, h⟩ := bind_eq_ok.mp h
      obtain ⟨n, vs, hst, rfl⟩ := (declareStorage_ok hcmd).mp he
      rw [declareAdd_eq, stored_declare] at h
      simp only at h
      by_cases hf : Fresh c.declare tk.text
      · rw [if_pos hf] at h
        cases h
        exact ⟨tk, pl, addr, dauto, n, vs, htk, not_not.mp hname, need_ok.mp hpl,
          declareAddr_ok.mp hp, hst, hf, rfl⟩
      · rw [if_neg hf] at h
        exact absurd h complainAt_ne_ok
  · rintro ⟨tk, pl, addr, dauto, n, vs, htk, hname, hpl, hp, hst, hf, rfl⟩
    refine ⟨tk, htk, ?_⟩
    rw [if_neg (not_not.mpr hname), need_ok.mpr hpl, ok_bind, declareAddr_ok.mpr hp, ok_bind]
    simp only [(declareStorage_ok hcmd).mpr ⟨n, vs, hst, rfl⟩, ok_bind, declareAdd_eq, stored_declare,
      if_pos hf]

/-- An accepted line with one operand emits the command `m` makes of it. -/
def TakesOne (m : BitVec 8 → Word → Command) (c : Asmchip32) (cmd : Lexcmd) (d : Asmchip32) :
    Prop :=
  LabelFresh c.declare cmd ∧ ∃ mode q v,
    IsRvalue (addLabel c cmd).declare cmd (firstPos cmd) mode q v ∧
      d = (addLabel c cmd).emit (m (setMode 0 false mode) v)

/-- The same with a destination and a source. -/
def TakesTwo (m : BitVec 8 → Word → Word → Command) (c : Asmchip32) (cmd : Lexcmd)
    (d : Asmchip32) : Prop :=
  LabelFresh c.declare cmd ∧ ∃ mode tk v mode' q w,
    IsLvalue (addLabel c cmd).declare cmd (firstPos cmd) mode tk v ∧
      IsRvalue (addLabel c cmd).declare cmd (firstPos cmd + 2) mode' q w ∧
      d = (markLabel (addLabel c cmd) tk).emit (m (setMode (arg0fSet 0 mode) true mode') v w)

/-- An accepted declaration. -/
def TakesDeclare (c : Asmchip32) (cmd : Lexcmd) (d : Asmchip32) : Prop :=
  ∃ tk pl addr dauto n vs, cmd[1]? = some tk ∧ tk.type = .name ∧ cmd[2]? = some pl ∧
    place c tk pl = some (addr, dauto) ∧ Storage cmd n vs ∧ Fresh c.declare tk.text ∧
    d = { stored c addr dauto n vs with
      declare := c.declare ++ [⟨.literalNum, addr, tk.text⟩] }

/-- What `parse_label` leaves where its result is not looked at. -/
def tryLabel (c : Asmchip32) (cmd : Lexcmd) : Asmchip32 :=
  if LabelFresh c.declare cmd then addLabel c cmd
  else match cmd with
    | [] => c
    | tk :: _ =>
      c.complainAt tk ("invalid label: redeclaration name '" ++ String.ofList tk.text ++ "'")

theorem tryLabel_fresh {c : Asmchip32} {cmd : Lexcmd} (hf : LabelFresh c.declare cmd) : tryLabel c cmd = addLabel c cmd :=
  if_pos hf

theorem tryLabel_refused {c : Asmchip32} {cmd : Lexcmd} (hf : ¬ LabelFresh c.declare cmd) :
    (tryLabel c cmd).mc = c.mc ∧ (tryLabel c cmd).avaddr = c.avaddr ∧
      (tryLabel c cmd).vcmd = c.vcmd ∧ (tryLabel c cmd).declare = c.declare := by
  unfold tryLabel
  rw [if_neg hf]
  cases cmd <;> exact ⟨rfl, rfl, rfl, rfl⟩

/-- What each action takes, and the state it leaves. -/
def Action.Takes : Action → Asmchip32 → Lexcmd → Asmchip32 → Prop
  | .declare, c, cmd, d => TakesDeclare c cmd d
  | .initr, c, cmd, d => LabelFresh c.declare cmd ∧ ∃ tk, cmd[firstPos cmd]? = some tk ∧
      tk.type = .literalNum ∧ d = (addLabel c cmd).emit ⟨0, Opcode.initr.code, number tk.start, 0⟩
  | .noarg op, c, cmd, d => d = (tryLabel c cmd).emit ⟨0, op.code, 0, 0⟩
  | .onearg op, c, cmd, d => TakesOne (fun f v => ⟨f, op.code, v, 0⟩) c cmd d
  | .twoarg op, c, cmd, d => TakesTwo (fun f v w => ⟨f, op.code, v, w⟩) c cmd d
  | .jmpi, c, cmd, d =>
      TakesOne (fun f v => ⟨f, Opcode.jmp.code, c.mccount + 1 + v, 0⟩) c cmd d
  | .branch op, c, cmd, d =>
      TakesTwo (fun f v w => ⟨f, op.code, v, c.mccount + 1 + w⟩) c cmd d

theorem parseLabel_state {c : Asmchip32} {cmd : Lexcmd} (hcmd : cmd ≠ []) :
    ∃ l, parseLabel c cmd = .ok (l, tryLabel c cmd) := by
  obtain ⟨tk, rest, rfl⟩ := List.exists_cons_of_ne_nil hcmd
  by_cases ht : tk.type = .label
  · have hl : labelOf (tk :: rest) = some tk.text := by simp [labelOf, ht]
    by_cases hf : Fresh c.declare tk.text
    · have hlf : LabelFresh c.declare (tk :: rest) := by simpa [LabelFresh, hl] using hf
      exact ⟨1, by simp [parseLabel, tokenAt, ht, declareAdd_eq, hf, tryLabel, hlf, addLabel, hl]⟩
    · have hlf : ¬ LabelFresh c.declare (tk :: rest) := by simpa [LabelFresh, hl] using hf
      exact ⟨-1, by simp [parseLabel, tokenAt, ht, declareAdd_eq, hf, tryLabel, hlf]⟩
  · have hl : labelOf (tk :: rest) = none := by simp [labelOf, ht]
    have hlf : LabelFresh c.declare (tk :: rest) := by simp [LabelFresh, hl]
    exact ⟨0, by simp [parseLabel, tokenAt, ht, tryLabel, hlf, addLabel_of_none hl]⟩

theorem mccount_addLabel (c : Asmchip32) (cmd : Lexcmd) : (addLabel c cmd).mccount = c.mccount := rfl

theorem mccount_markLabel (c : Asmchip32) (tk : Lextoken) : (markLabel c tk).mccount = c.mccount := by
  rw [Asmchip32.mccount, Asmchip32.mccount, markLabel_mc]

theorem takesOne_iff {c d : Asmchip32} {cmd : Lexcmd} (hcmd : cmd ≠ [])
    (m : Asmchip32 → BitVec 8 → Word → Command) :
    (oneOperand c cmd >>= fun r => pure (r.1.emit (m r.1 r.2.1 r.2.2)) : Build Asmchip32) =
      .ok d ↔ TakesOne (m (addLabel c cmd)) c cmd d := by
  simp only [bind_eq_ok, oneOperand_ok hcmd]
  constructor
  · rintro ⟨⟨e, f, v⟩, ⟨hf, rfl, mode, q, hr, rfl⟩, h⟩
    cases h
    exact ⟨hf, mode, q, v, hr, rfl⟩
  · rintro ⟨hf, mode, q, v, hr, rfl⟩
    exact ⟨(addLabel c cmd, _, v), ⟨hf, rfl, mode, q, hr, rfl⟩, rfl⟩

theorem takesTwo_iff {c d : Asmchip32} {cmd : Lexcmd} (hcmd : cmd ≠ [])
    (m : Word → BitVec 8 → Word → Word → Command) :
    (twoOperands c cmd >>= fun r =>
      pure (r.1.emit (m r.1.mccount r.2.1 r.2.2.1 r.2.2.2)) : Build Asmchip32) = .ok d ↔
      TakesTwo (m c.mccount) c cmd d := by
  simp only [bind_eq_ok, twoOperands_ok hcmd]
  constructor
  · rintro ⟨⟨e, f, v, w⟩, ⟨hf, mode, tk, mode', q, hl, hr, rfl, rfl⟩, h⟩
    cases h
    refine ⟨hf, mode, tk, v, mode', q, w, hl, hr, ?_⟩
    rw [mccount_markLabel, mccount_addLabel]
  · rintro ⟨hf, mode, tk, v, mode', q, w, hl, hr, rfl⟩
    refine ⟨(markLabel (addLabel c cmd) tk, _, v, w), ⟨hf, mode, tk, mode', q, hl, hr, rfl, rfl⟩, ?_⟩
    rw [mccount_markLabel, mccount_addLabel]
    rfl

theorem call_ok {a : Action} {c d : Asmchip32} {cmd : Lexcmd} (hcmd : WellLexed cmd) :
    a.call c cmd = .ok d ↔ a.Takes c cmd d := by
  have hne := hcmd.ne_nil
  cases a with
  | declare => exact actionDeclare_ok hcmd
  | initr =>
    simp only [Action.call, Action.Takes, actionInitr, bind_eq_ok, need_ok]
    rcases firstArg_eq (c := c) hne with ⟨hf, harg⟩ | ⟨tk, e, h₀, ht, hf, harg⟩
    · constructor
      · rintro ⟨x, hx, tk, htk, h⟩
        cases harg.symm.trans hx
        split_ifs at h with ht
        · exact absurd h complainAt_ne_ok
        · cases h
          exact ⟨hf, tk, htk, not_not.mp ht, rfl⟩
      · rintro ⟨_, tk, htk, ht, rfl⟩
        exact ⟨_, harg, tk, htk, by rw [if_neg (not_not.mpr ht)]; rfl⟩
    · constructor
      · rintro ⟨x, hx, tk', htk, h⟩
        cases harg.symm.trans hx
        cases h₀.symm.trans htk
        simp [ht] at h
      · rintro ⟨hf', _⟩
        exact absurd hf' hf
  | noarg op =>
    obtain ⟨l, hl⟩ := parseLabel_state (c := c) hne
    simp only [Action.call, Action.Takes, parseNoarg, hl, ok_bind, pure_ok, Except.ok.injEq, eq_comm]
  | onearg op => exact takesOne_iff hne fun _ f v => ⟨f, op.code, v, 0⟩
  | twoarg op => exact takesTwo_iff hne fun _ f v w => ⟨f, op.code, v, w⟩
  | jmpi => exact takesOne_iff hne fun c f v => ⟨f, Opcode.jmp.code, c.mccount + 1 + v, 0⟩
  | branch op => exact takesTwo_iff hne fun n f v w => ⟨f, op.code, v, n + 1 + w⟩

/-- The action `a32_parse` finds for a line. -/
def actionOf (cmd : Lexcmd) : Option Action :=
  cmd[if (labelOf cmd).isSome then 1 else 0]?.bind fun tk => findAction tk.text

theorem commandName_ok {cmd : Lexcmd} {tk : Lextoken} (hcmd : cmd ≠ []) :
    commandName cmd = .ok tk ↔ cmd[if (labelOf cmd).isSome then 1 else 0]? = some tk := by
  obtain ⟨t, rest, rfl⟩ := List.exists_cons_of_ne_nil hcmd
  have h₀ : tokenAt (t :: rest) 0 = .ok t := tokenAt_ok.mpr rfl
  rw [commandName, h₀, ok_bind, tokenAt_ok]
  by_cases ht : t.type = .label <;> simp [labelOf, ht]

theorem parseStep_ok {c d : Asmchip32} {cmd : Lexcmd} (hcmd : WellLexed cmd) :
    parseStep c cmd = .ok d ↔ ∃ a, actionOf cmd = some a ∧ a.Takes c cmd d := by
  simp only [parseStep, bind_eq_ok, commandName_ok hcmd.ne_nil, actionOf, Option.bind_eq_some_iff]
  constructor
  · rintro ⟨tk, htk, h⟩
    cases ha : findAction tk.text with
    | none => simp [ha] at h
    | some a =>
      simp only [ha] at h
      exact ⟨a, ⟨tk, htk, ha⟩, (call_ok hcmd).mp h⟩
  · rintro ⟨a, ⟨tk, htk, ha⟩, h⟩
    exact ⟨tk, htk, by simpa only [ha] using (call_ok hcmd).mpr h⟩

/-- What no accepted line takes back. -/
structure Extends (c d : Asmchip32) : Prop where
  vcmd : d.vcmd = c.vcmd
  mc : c.mc <+: d.mc
  declare : c.declare <+: d.declare

theorem Extends.refl (c : Asmchip32) : Extends c c := ⟨rfl, List.prefix_rfl, List.prefix_rfl⟩

theorem Extends.trans {c d e : Asmchip32} (h : Extends c d) (h' : Extends d e) : Extends c e :=
  ⟨h'.vcmd.trans h.vcmd, h.mc.trans h'.mc, h.declare.trans h'.declare⟩

theorem extends_emit (c : Asmchip32) (m : Command) : Extends c (c.emit m) :=
  ⟨rfl, List.prefix_append _ _, List.prefix_rfl⟩

theorem extends_addLabel (c : Asmchip32) (cmd : Lexcmd) : Extends c (addLabel c cmd) :=
  ⟨rfl, List.prefix_rfl, List.prefix_append _ _⟩

theorem extends_complainAt (c : Asmchip32) (tk : Lextoken) (e : String) :
    Extends c (c.complainAt tk e) :=
  ⟨rfl, List.prefix_rfl, List.prefix_rfl⟩

theorem extends_markLabel (c : Asmchip32) (tk : Lextoken) : Extends c (markLabel c tk) := by
  unfold markLabel
  split_ifs
  · exact extends_complainAt _ _ _
  · exact .refl c

theorem extends_tryLabel (c : Asmchip32) (cmd : Lexcmd) : Extends c (tryLabel c cmd) := by
  unfold tryLabel
  split_ifs
  · exact extends_addLabel c cmd
  · cases cmd with
    | nil => exact .refl c
    | cons tk cmd => exact extends_complainAt _ _ _

theorem extends_advance (c : Asmchip32) (dauto : Bool) (n : BitVec 64) :
    Extends c (c.advance dauto n) := by
  cases dauto <;> exact ⟨rfl, List.prefix_rfl, List.prefix_rfl⟩

theorem extends_stored (c : Asmchip32) (addr : Word) (dauto : Bool) (n : BitVec 64)
    (vs : List Word) : Extends c (stored c addr dauto n vs) := by
  refine Extends.trans ?_ (extends_advance _ dauto n)
  exact ⟨rfl, List.prefix_append _ _, List.prefix_rfl⟩

theorem TakesOne.extends {m : BitVec 8 → Word → Command} {c d : Asmchip32} {cmd : Lexcmd}
    (h : TakesOne m c cmd d) : Extends c d := by
  obtain ⟨_, _, _, _, _, rfl⟩ := h
  exact (extends_addLabel c cmd).trans (extends_emit _ _)

theorem TakesTwo.extends {m : BitVec 8 → Word → Word → Command} {c d : Asmchip32} {cmd : Lexcmd}
    (h : TakesTwo m c cmd d) : Extends c d := by
  obtain ⟨_, _, tk, _, _, _, _, _, _, rfl⟩ := h
  exact ((extends_addLabel c cmd).trans (extends_markLabel _ tk)).trans (extends_emit _ _)

theorem TakesDeclare.extends {c d : Asmchip32} {cmd : Lexcmd} (h : TakesDeclare c cmd d) :
    Extends c d := by
  obtain ⟨tk, pl, addr, dauto, n, vs, _, _, _, _, _, _, rfl⟩ := h
  have hs := extends_stored c addr dauto n vs
  exact ⟨hs.vcmd, hs.mc, List.prefix_append _ _⟩

theorem takes_extends {a : Action} {c d : Asmchip32} {cmd : Lexcmd} (h : a.Takes c cmd d) :
    Extends c d := by
  cases a with
  | declare => exact TakesDeclare.extends h
  | initr =>
    obtain ⟨_, _, _, _, rfl⟩ := h
    exact (extends_addLabel c cmd).trans (extends_emit _ _)
  | noarg op =>
    cases h
    exact (extends_tryLabel c cmd).trans (extends_emit _ _)
  | onearg op | jmpi =>
    simp only [Action.Takes] at h
    exact h.extends
  | twoarg op | branch op =>
    simp only [Action.Takes] at h
    exact h.extends

/-- An accepted line extends what there is. -/
theorem step_extends {c d : Asmchip32} {cmd : Lexcmd} (hcmd : WellLexed cmd)
    (h : parseStep c cmd = .ok d) : Extends c d := by
  obtain ⟨a, _, ha⟩ := (parseStep_ok hcmd).mp h
  exact takes_extends ha

theorem run_extends {cmds : List Lexcmd} {c d : Asmchip32} (hcmds : ∀ cmd ∈ cmds, WellLexed cmd)
    (h : run parseStep cmds c = .ok d) : Extends c d := by
  apply run_invariant parseStep (I := Extends c) _ hcmds (.refl c) h
  intro d cmd e hcmd hd he
  exact hd.trans (step_extends hcmd he)

/-- A name keeps its first declaration. -/
theorem find_extends {c d : Asmchip32} (h : Extends c d) {name : List Char} {dec : Declared}
    (hf : declareFind c.declare name = some dec) : declareFind d.declare name = some dec := by
  obtain ⟨rest, hrest⟩ := h.declare
  rw [declareFind, ← hrest, List.find?_append]
  exact Option.or_eq_some_iff.mpr (.inl hf)

theorem head_of_text {tk : Lextoken} {ch : Char} {t : List Char} (h : tk.text = ch :: t) :
    deref tk.start = ch := by
  unfold Lextoken.text at h
  cases hs : tk.start with
  | nil => simp [hs] at h
  | cons x p =>
    rw [hs] at h
    generalize (x :: p).length - tk.stop.length = k at h
    cases k with
    | zero => cases h
    | succ k => exact (List.cons.inj h).1

/-- The texts that the lexer finds under each type. -/
inductive Spells : Tktype → List Char → Prop
  | label (i : Ident) : Spells .label i.text
  | sigil (s : Sigil) : Spells s.type [s.char]
  | atom (a : Atom) : Spells a.type a.text

theorem spells_of_mem {w : Cmd} {type : Tktype} {t : List Char} (h : (type, t) ∈ w.tokens) :
    Spells type t := by
  simp only [Cmd.tokens, List.mem_append, List.mem_map, List.mem_cons, List.mem_flatMap] at h
  rcases h with ⟨i, _, hi⟩ | h | ⟨a, _, h⟩
  · cases hi
    exact .label i
  · cases h
    exact .atom (.name w.name)
  · simp only [Arg.tokens, List.mem_append, List.mem_map, List.mem_singleton] at h
    rcases h with ⟨s, _, hs⟩ | h
    · cases hs
      exact .sigil s
    · cases h
      exact .atom a.atom

theorem spells_char {t : List Char} (h : Spells .literalChar t) :
    ∃ b : Body '\'', t = b.quoted := by
  generalize htype : Tktype.literalChar = type at h
  cases h with
  | label i => cases htype
  | sigil s => cases s <;> cases htype
  | atom a =>
    cases a with
    | char b => exact ⟨b, rfl⟩
    | _ => cases htype

theorem spells_str {t : List Char} (h : Spells .literalStr t) : ∃ b : Body '"', t = b.quoted := by
  generalize htype : Tktype.literalStr = type at h
  cases h with
  | label i => cases htype
  | sigil s => cases s <;> cases htype
  | atom a =>
    cases a with
    | str b => exact ⟨b, rfl⟩
    | _ => cases htype

theorem wellLexed_of_shapes {cmd : Lexcmd} {w : Cmd} (h : shapes cmd = w.tokens) :
    WellLexed cmd where
  ne_nil := by
    rintro rfl
    simp [Cmd.tokens] at h
  fits := by
    have hlen := congrArg List.length h
    have hfits := w.fits
    simp only [length_shapes, Cmd.tokens, List.length_append, List.length_map,
      List.length_cons] at hlen
    omega
  named := by
    intro hl
    cases hw : w.labels with
    | nil =>
      cases cmd with
      | nil => cases hl
      | cons tk cmd =>
        have htk : tk.type = .name := by
          simp only [shapes, List.map_cons, Cmd.tokens, hw, List.map_nil, List.nil_append,
            List.cons.injEq, Prod.mk.injEq] at h
          exact h.1.1
        simp [labelOf, htk] at hl
    | cons i is =>
      have hlen := congrArg List.length h
      simp only [length_shapes, Cmd.tokens, hw, List.length_append, List.length_map,
        List.length_cons] at hlen
      omega
  quoted := by
    intro tk htk ht
    have hmem : (tk.type, tk.text) ∈ w.tokens := by
      rw [← h]
      exact List.mem_map_of_mem htk
    rw [ht] at hmem
    obtain ⟨b, hb⟩ := spells_str (spells_of_mem hmem)
    exact head_of_text hb

theorem lexer_wellLexed {code : Text} {c : Asmchip32} (h : lexer (.new code) = .ok c) :
    ∀ cmd ∈ c.vcmd, WellLexed cmd := by
  intro cmd hcmd
  obtain ⟨w, hw⟩ := lexer_ok h nofun cmd hcmd
  exact wellLexed_of_shapes hw

/-- The state a computation ends in. -/
def final (x : Build Asmchip32) : Asmchip32 := x.toOption.getD (.new [])

theorem ok_final {x : Build Asmchip32} (h : x.toOption.isSome) : x = .ok (final x) := by
  cases x with
  | error e => cases h
  | ok c => rfl

end Asm
