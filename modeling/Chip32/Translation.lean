import Chip32.Numbers
import Mathlib.Data.List.Basic
import Mathlib.Data.List.Induction

/-!
# What a source is assembled to

The variables of an accepted source are the entries of the hash table, in their
order, and each of its commands is one command, with its operands' cells for
arguments and its modes in the flags.
-/
namespace Asm

open Runs Vm
open Source (Loc Dest Src Binary Unary Instr Line Program varsOf instrs)

def destMode : Dest → Mode
  | .ram _ => .ram
  | .ptr _ => .ptr

def destLoc : Dest → Loc
  | .ram v | .ptr v => v

/-- Without a sign in front, the flags stay as they are. -/
def srcMode : Src → Option Mode
  | .ram _ => some .ram
  | .ptr _ => some .ptr
  | .addr _ => some .literal
  | .plain _ => none

def srcLoc : Src → Loc
  | .ram v | .ptr v | .addr v | .plain v => v

def binaryCode : Binary → Opcode
  | .move => .move | .sum => .sum | .dif => .dif | .mul => .mul | .or => .or | .xor => .xor
  | .and => .and | .not => .not | .bor => .bor | .band => .band

def unaryCode : Unary → Opcode
  | .inc => .inc | .dec => .dec | .bnot => .bnot

/-- The command at index `i`; jumps are made absolute. -/
def translate (vars : List (List Char)) (i : Nat) : Instr → Command
  | .binary op d s =>
    ⟨setMode (arg0fSet 0 (destMode d)) true (srcMode s), (binaryCode op).code,
      (destLoc d).number vars, (srcLoc s).number vars⟩
  | .unary op d => ⟨arg0fSet 0 (destMode d), (unaryCode op).code, (destLoc d).number vars, 0⟩
  | .jmpi n => ⟨0, Opcode.jmp.code, BitVec.ofNat 32 i + 1 + n.word, 0⟩
  | .ift d n =>
    ⟨arg0fSet 0 (destMode d), Opcode.ift.code, (destLoc d).number vars,
      BitVec.ofNat 32 i + 1 + n.word⟩
  | .iff d n =>
    ⟨arg0fSet 0 (destMode d), Opcode.iff.code, (destLoc d).number vars,
      BitVec.ofNat 32 i + 1 + n.word⟩

def initrOf (p : Program) : Command := ⟨0, Opcode.initr.code, p.size.word, 0⟩

/-- The commands of the lines behind the `initr`. -/
def translated (vars : List (List Char)) (code : List Instr) : List Command :=
  code.mapIdx fun i x => translate vars (i + 1) x

/-- A whole program. -/
def object (p : Program) : List Command := initrOf p :: translated p.vars p.code

/-- The source is this program, however it is laid out. -/
def Reads (code : Text) (p : Program) : Prop :=
  ∃ lexed, lexer (.new code) = .ok lexed ∧ lexed.vcmd.map shapes = p.tokens

/-- The declarations of variables with automatic addresses. -/
def table (vars : List (List Char)) : List Declared :=
  vars.mapIdx fun i x => ⟨.literalNum, BitVec.ofNat 32 (35 + i), x⟩

theorem table_snoc (vars : List (List Char)) (x : List Char) :
    table (vars ++ [x]) =
      table vars ++ [⟨.literalNum, BitVec.ofNat 32 (35 + vars.length), x⟩] := by
  simp [table, List.mapIdx_concat]

theorem declareFind_table (vars : List (List Char)) (x : List Char) :
    declareFind (table vars) x =
      if x ∈ vars then some ⟨.literalNum, BitVec.ofNat 32 (35 + vars.idxOf x), x⟩ else none := by
  induction vars using List.reverseRecOn with
  | nil => rfl
  | append_singleton vars y ih =>
    rw [declareFind] at ih ⊢
    rw [table_snoc, List.find?_append, ih]
    by_cases hx : x ∈ vars
    · simp [hx, List.idxOf_append_of_mem hx]
    · by_cases hy : y = x
      · subst hy
        simp [hx, List.idxOf_append_of_notMem hx]
      · have hyx : x ≠ y := fun h => hy h.symm
        simp [hx, hy, hyx]

theorem not_namesLabel_table (vars : List (List Char)) (tk : Lextoken) :
    ¬ NamesLabel (table vars) tk := by
  rintro ⟨_, h⟩
  rw [declareFind_table] at h
  split_ifs at h <;> cases h

theorem getElem?_shapes (cmd : Lexcmd) (i : Nat) :
    (shapes cmd)[i]? = cmd[i]?.map fun tk => (tk.type, tk.text) := List.getElem?_map

theorem shapes_at {cmd : Lexcmd} (i : Nat) {s : Tktype × List Char} (h : (shapes cmd)[i]? = some s) :
    ∃ tk, cmd[i]? = some tk ∧ tk.type = s.1 ∧ tk.text = s.2 := by
  rw [getElem?_shapes] at h
  obtain ⟨tk, htk, rfl⟩ := Option.map_eq_some_iff.mp h
  exact ⟨tk, htk, rfl, rfl⟩

section Operands

variable {vars : List (List Char)} (rest : List (List Char)) {cmd : Lexcmd}
  (hends : ∀ x ∈ cmd, Ends x)
include hends

theorem valueOf_loc {i : Nat} {tk : Lextoken} {v : Loc} {w : Word} (htk : cmd[i]? = some tk)
    (hv : (shapes cmd)[i]? = some v.token) (h : valueOf (table vars) tk = some w) :
    w = v.number (vars ++ rest) := by
  obtain ⟨tk', htk', ht, htext⟩ := shapes_at i hv
  cases htk.symm.trans htk'
  cases v with
  | cell n =>
    have hnum := number_of_text (hends tk (List.mem_of_getElem? htk)) ht htext
    have ht : tk.type = .literalNum := ht
    simp only [valueOf, ht, Option.some.injEq] at h
    rw [← h, hnum]
    rfl
  | var x =>
    have ht : tk.type = .name := ht
    have htext : tk.text = x := htext
    simp only [valueOf, ht, htext, declareFind_table] at h
    split_ifs at h with hx
    · cases h
      rw [Loc.number, List.idxOf_append_of_mem hx]
    · cases h

theorem lvalue_dest {ic : Nat} {d : Dest} {m : Mode} {tk : Lextoken} {w : Word}
    (h₀ : (shapes cmd)[ic]? = d.tokens[0]?) (h₁ : (shapes cmd)[ic + 1]? = d.tokens[1]?)
    (h : IsLvalue (table vars) cmd ic m tk w) :
    m = destMode d ∧ w = (destLoc d).number (vars ++ rest) := by
  obtain ⟨hm, htk, hv⟩ := h
  cases d with
  | ram v | ptr v =>
    obtain ⟨s, hs, ht, _⟩ := shapes_at ic h₀
    refine ⟨?_, valueOf_loc rest hends htk h₁ hv⟩
    simp only [hs, Option.map_some, ht, Option.bind_some, lvalueType, Option.some.injEq] at hm
    exact hm.symm

theorem rvalue_src {ic q : Nat} {s : Src} {m : Option Mode} {w : Word}
    (h₀ : (shapes cmd)[ic]? = s.tokens[0]?)
    (h₁ : 1 < s.tokens.length → (shapes cmd)[ic + 1]? = s.tokens[1]?)
    (h : IsRvalue (table vars) cmd ic m q w) :
    m = srcMode s ∧ w = (srcLoc s).number (vars ++ rest) := by
  obtain ⟨hpos, tk, htk, hv⟩ := h
  cases s with
  | ram v | ptr v | addr v =>
    obtain ⟨t, ht, htype, _⟩ := shapes_at ic h₀
    simp only [rvaluePos, ht, Option.map_some, htype, rvalueType, Option.some.injEq,
      Prod.mk.injEq] at hpos
    obtain ⟨rfl, rfl⟩ := hpos
    exact ⟨rfl, valueOf_loc rest hends htk (h₁ (Nat.lt_succ_self 1)) hv⟩
  | plain v =>
    obtain ⟨t, ht, htype, _⟩ := shapes_at ic h₀
    have hnone : rvalueType t.type = none := by
      cases v <;> rw [htype] <;> rfl
    simp only [rvaluePos, ht, Option.map_some, hnone, Option.some.injEq, Prod.mk.injEq] at hpos
    obtain ⟨rfl, rfl⟩ := hpos
    exact ⟨rfl, valueOf_loc rest hends htk h₀ hv⟩

end Operands

section Lines

variable {c d : Asmchip32} {cmd : Lexcmd} {name : List Char} {l : List (Tktype × List Char)}

theorem unlabelled (h : shapes cmd = (.name, name) :: l) :
    labelOf cmd = none ∧ firstPos cmd = 1 ∧ actionOf cmd = findAction name := by
  cases cmd with
  | nil => cases h
  | cons tk cmd =>
    simp only [shapes, List.map_cons, List.cons.injEq, Prod.mk.injEq] at h
    have hl : labelOf (tk :: cmd) = none := by simp [labelOf, h.1.1]
    exact ⟨hl, by simp [firstPos, hl], by simp [actionOf, hl, h.1.2]⟩

/-- The action of a line that begins with its name takes it. -/
theorem takes_of_name {a : Action} (hcmd : WellLexed cmd) (hshape : shapes cmd = (.name, name) :: l)
    (hfind : findAction name = some a) (hstep : parseStep c cmd = .ok d) : a.Takes c cmd d := by
  obtain ⟨b, hb, htakes⟩ := (parseStep_ok hcmd).mp hstep
  rw [(unlabelled hshape).2.2, hfind] at hb
  cases hb
  exact htakes

/-- A declaration with an automatic address. -/
theorem declare_auto {x : List Char} (hcmd : WellLexed cmd) (hstep : parseStep c cmd = .ok d)
    (hshape : shapes cmd = (.name, "declare".toList) :: (.name, x) :: (.auto, ['?']) :: l) :
    ∃ n vs, Storage cmd n vs ∧ d = { stored c (c.avaddr.setWidth 32) true n vs with
      declare := c.declare ++ [⟨.literalNum, c.avaddr.setWidth 32, x⟩] } := by
  have hfind : findAction "declare".toList = some .declare := by decide
  obtain ⟨tk, pl, addr, dauto, n, vs, htk, _, hpl, hplace, hst, _, rfl⟩ :=
    takes_of_name hcmd hshape hfind hstep
  obtain ⟨tk', htk', _, htext⟩ := @shapes_at cmd 1 _ (by rw [hshape]; rfl)
  obtain ⟨pl', hpl', ht, _⟩ := @shapes_at cmd 2 _ (by rw [hshape]; rfl)
  cases htk.symm.trans htk'
  cases hpl.symm.trans hpl'
  have htext : tk.text = x := htext
  simp only [place, ht, Option.some.injEq, Prod.mk.injEq] at hplace
  obtain ⟨rfl, rfl⟩ := hplace
  exact ⟨n, vs, hst, by rw [htext]⟩

variable {vars : List (List Char)} (rest : List (List Char)) (hdecl : c.declare = table vars)
  (hends : ∀ x ∈ cmd, Ends x)
include hdecl hends

theorem takesOne_translated {m : BitVec 8 → Word → Command} {s : Src}
    (hcmd : shapes cmd = (.name, name) :: s.tokens) (h : TakesOne m c cmd d) :
    d = c.emit (m (setMode 0 false (srcMode s)) ((srcLoc s).number (vars ++ rest))) := by
  obtain ⟨hl, hfirst, _⟩ := unlabelled hcmd
  obtain ⟨_, mode, q, v, hr, rfl⟩ := h
  rw [addLabel_of_none hl, hdecl, hfirst] at hr
  obtain ⟨rfl, rfl⟩ := rvalue_src rest hends (by rw [hcmd]; rfl)
    (fun _ => by rw [hcmd]; rfl) hr
  rw [addLabel_of_none hl]

theorem takesTwo_translated {m : BitVec 8 → Word → Word → Command} {x : Dest} {s : Src}
    (hcmd : shapes cmd = (.name, name) :: (x.tokens ++ s.tokens)) (h : TakesTwo m c cmd d) :
    d = c.emit (m (setMode (arg0fSet 0 (destMode x)) true (srcMode s))
      ((destLoc x).number (vars ++ rest)) ((srcLoc s).number (vars ++ rest))) := by
  obtain ⟨hl, hfirst, _⟩ := unlabelled hcmd
  obtain ⟨_, mode, tk, v, mode', q, w, hdest, hr, rfl⟩ := h
  rw [addLabel_of_none hl, hdecl, hfirst] at hdest hr
  have hx : ∀ i, (shapes cmd)[i + 3]? = s.tokens[i]? := by
    intro i
    rw [hcmd]
    cases x <;> rfl
  obtain ⟨rfl, rfl⟩ := lvalue_dest rest (d := x) hends
    (by rw [hcmd]; cases x <;> rfl) (by rw [hcmd]; cases x <;> rfl) hdest
  obtain ⟨rfl, rfl⟩ := rvalue_src rest hends (hx 0) (fun _ => hx 1) hr
  rw [addLabel_of_none hl, markLabel, hdecl, if_neg (not_namesLabel_table vars tk)]

end Lines

/-- The destination of a command with one operand is written as a source. -/
def destSrc : Dest → Src
  | .ram v => .ram v
  | .ptr v => .ptr v

theorem findAction_binary (op : Binary) :
    findAction op.name.toList = some (.twoarg (binaryCode op)) := by
  cases op <;> decide

theorem findAction_unary (op : Unary) :
    findAction op.name.toList = some (.onearg (unaryCode op)) := by
  cases op <;> decide

/-- What the assembler has made of the lines behind it. -/
structure Assembled (p : Program) (front : List Line) (c : Asmchip32) : Prop where
  declare : c.declare = table (varsOf front)
  avaddr : c.avaddr = BitVec.ofNat 64 (35 + (varsOf front).length)
  mc : c.mc = initrOf p :: translated p.vars (instrs front)

section Assembly

variable {p : Program} {front rest : List Line} {c d : Asmchip32} {cmd : Lexcmd}
  (h : Assembled p front c) (hcmd : WellLexed cmd) (hends : ∀ x ∈ cmd, Ends x)
  (hstep : parseStep c cmd = .ok d)
include h hcmd hends hstep

theorem instr_emitted {i : Instr} (hp : p.lines = front ++ .instr i :: rest)
    (hshape : shapes cmd = i.tokens) :
    d = c.emit (translate p.vars ((instrs front).length + 1) i) := by
  have hvars : p.vars = varsOf front ++ varsOf rest := by
    simp [Program.vars, varsOf, hp]
  have hcount : c.mccount = BitVec.ofNat 32 ((instrs front).length + 1) := by
    simp [Asmchip32.mccount, h.mc, translated]
  rw [hvars]
  cases i with
  | binary op x s =>
    have htakes := takes_of_name hcmd hshape (findAction_binary op) hstep
    simp only [Action.Takes] at htakes
    exact takesTwo_translated _ h.declare hends hshape htakes
  | unary op x =>
    have hsrc : shapes cmd = (.name, op.name.toList) :: (destSrc x).tokens := by
      rw [hshape]
      cases x <;> rfl
    have htakes := takes_of_name hcmd hshape (findAction_unary op) hstep
    simp only [Action.Takes] at htakes
    rw [takesOne_translated (varsOf rest) h.declare hends hsrc htakes]
    cases x <;> rfl
  | jmpi n =>
    have hsrc : shapes cmd = (.name, "jmpi".toList) :: (Src.plain (.cell n)).tokens := hshape
    have hfind : findAction "jmpi".toList = some .jmpi := by decide
    have htakes := takes_of_name hcmd hshape hfind hstep
    simp only [Action.Takes] at htakes
    rw [takesOne_translated (varsOf rest) h.declare hends hsrc htakes, hcount]
    rfl
  | ift x n =>
    have hsrc : shapes cmd = (.name, "ift".toList) ::
      (x.tokens ++ (Src.plain (.cell n)).tokens) := hshape
    have hfind : findAction "ift".toList = some (.branch .ift) := by decide
    have htakes := takes_of_name hcmd hshape hfind hstep
    simp only [Action.Takes] at htakes
    rw [takesTwo_translated (varsOf rest) h.declare hends hsrc htakes, hcount]
    rfl
  | iff x n =>
    have hsrc : shapes cmd = (.name, "iff".toList) ::
      (x.tokens ++ (Src.plain (.cell n)).tokens) := hshape
    have hfind : findAction "iff".toList = some (.branch .iff) := by decide
    have htakes := takes_of_name hcmd hshape hfind hstep
    simp only [Action.Takes] at htakes
    rw [takesTwo_translated (varsOf rest) h.declare hends hsrc htakes, hcount]
    rfl

theorem line_assembled {line : Line} (hp : p.lines = front ++ line :: rest)
    (hshape : shapes cmd = line.tokens) : Assembled p (front ++ [line]) d := by
  cases line with
  | instr i =>
    rw [instr_emitted h hcmd hends hstep hp hshape]
    refine ⟨?_, ?_, ?_⟩
    · simpa [varsOf, Asmchip32.emit] using h.declare
    · simpa [varsOf, Asmchip32.emit] using h.avaddr
    · simp [instrs, translated, Asmchip32.emit, h.mc, List.mapIdx_concat]
  | declare x =>
    obtain ⟨n, vs, hst, rfl⟩ := declare_auto hcmd hstep hshape
    have hnone : cmd[3]? = none := by
      have hlen := congrArg List.length hshape
      rw [length_shapes] at hlen
      exact List.getElem?_eq_none (le_of_eq hlen)
    cases hst with
    | string h₃ => rw [hnone] at h₃; cases h₃
    | list h₃ => rw [hnone] at h₃; cases h₃
    | cell _ =>
      have hv : varsOf (front ++ [.declare x]) = varsOf front ++ [x] := by simp [varsOf]
      refine ⟨?_, ?_, ?_⟩
      · rw [hv, table_snoc, h.declare, h.avaddr, BitVec.setWidth_ofNat_of_le (by decide)]
      · rw [hv, List.length_append, List.length_singleton, ← Nat.add_assoc, BitVec.ofNat_add,
          ← h.avaddr]
        rfl
      · simpa [instrs, stored, Asmchip32.advance, moves] using h.mc

end Assembly

theorem run_assembled {p : Program} (front : List Line) {rest : List Line} {cmds : List Lexcmd}
    {c d : Asmchip32} (hp : p.lines = front ++ rest) (h : Assembled p front c)
    (hcmds : ∀ cmd ∈ cmds, WellLexed cmd ∧ ∀ x ∈ cmd, Ends x)
    (hshapes : cmds.map shapes = rest.map Line.tokens) (hrun : run parseStep cmds c = .ok d) :
    Assembled p p.lines d := by
  induction rest generalizing front cmds c with
  | nil =>
    cases cmds with
    | cons cmd cmds => cases hshapes
    | nil =>
      cases hrun
      rw [hp, List.append_nil]
      exact h
  | cons line rest ih =>
    cases cmds with
    | nil => cases hshapes
    | cons cmd cmds =>
      obtain ⟨e, he, hrun⟩ := bind_eq_ok.mp hrun
      simp only [List.map_cons, List.cons.injEq] at hshapes
      obtain ⟨hwell, hends⟩ := hcmds cmd (by simp)
      exact ih (front ++ [line]) (by simp [hp]) (line_assembled h hwell hends he hp hshapes.1)
        (fun x hx => hcmds x (by simp [hx])) hshapes.2 hrun

/-- The line `initr` with a decimal. -/
theorem initr_emitted {c d : Asmchip32} {cmd : Lexcmd} {n : Source.Numeral}
    (hcmd : WellLexed cmd) (hends : ∀ x ∈ cmd, Ends x) (hstep : parseStep c cmd = .ok d)
    (hshape : shapes cmd = [(.name, "initr".toList), (.literalNum, n.text)]) :
    d = c.emit ⟨0, Opcode.initr.code, n.word, 0⟩ := by
  obtain ⟨hl, hfirst, _⟩ := unlabelled hshape
  have hfind : findAction "initr".toList = some .initr := by decide
  obtain ⟨_, tk, htk, ht, rfl⟩ := takes_of_name hcmd hshape hfind hstep
  rw [hfirst] at htk
  obtain ⟨tk', htk', _, htext⟩ := @shapes_at cmd 1 _ (by rw [hshape]; rfl)
  cases htk.symm.trans htk'
  rw [addLabel_of_none hl, number_of_text (hends tk (List.mem_of_getElem? htk)) ht htext]

/-- An accepted source is assembled to its translation. -/
theorem build_object {code : Text} {p : Program} {c : Asmchip32} (hread : Reads code p)
    (hbuild : build code = .ok c) : c.mc = object p := by
  obtain ⟨lexed, hlex, hshapes⟩ := hread
  rw [build, hlex, ok_bind] at hbuild
  have hcmds : ∀ cmd ∈ lexed.vcmd, WellLexed cmd ∧ ∀ x ∈ cmd, Ends x := fun cmd hcmd =>
    ⟨lexer_wellLexed hlex cmd hcmd, lexer_ends hlex cmd hcmd⟩
  obtain ⟨hmc, havaddr, hdecl, _⟩ := lexer_keeps hlex
  rw [parse] at hbuild
  cases hv : lexed.vcmd with
  | nil => simp [hv, Program.tokens] at hshapes
  | cons cmd cmds =>
    rw [hv] at hshapes hbuild hcmds
    simp only [List.map_cons, Program.tokens, List.cons.injEq] at hshapes
    obtain ⟨hinitr, hshapes⟩ := hshapes
    obtain ⟨e, he, hrun⟩ := bind_eq_ok.mp hbuild
    obtain ⟨hwell, hends⟩ := hcmds cmd (by simp)
    rw [initr_emitted hwell hends he hinitr] at hrun
    have hstart : Assembled p [] (lexed.emit ⟨0, Opcode.initr.code, p.size.word, 0⟩) :=
      ⟨hdecl, havaddr, by rw [Asmchip32.emit, hmc]; rfl⟩
    exact (run_assembled [] rfl hstart (fun x hx => hcmds x (by simp [hx])) hshapes hrun).mc

end Asm
