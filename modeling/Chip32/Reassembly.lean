import Chip32.Emission
import Chip32.Translation
import Chip32.VmDump

/-!
# Assembling what the disassembler prints

A line of the disassembler is a line of the grammar. It stands for the command it was
printed for where the assembler takes as many operands as the disassembler prints.
-/
namespace Asm

open Runs Vm
open Grammar (Arg Atom Cmd Ident Layout Number Sigil)

/-- What accepted lines emit. -/
inductive Emitted : Command → Prop
  | initr (n : Word) : Emitted ⟨0, Opcode.initr.code, n, 0⟩
  | noarg {op : Opcode} (h : .noarg op ∈ actions.map Prod.snd) : Emitted ⟨0, op.code, 0, 0⟩
  | onearg {op : Opcode} (h : .onearg op ∈ actions.map Prod.snd) (m : Option Mode) (v : Word) :
      Emitted ⟨setMode 0 false m, op.code, v, 0⟩
  | twoarg {op : Opcode} (h : .twoarg op ∈ actions.map Prod.snd) {m : Mode}
      (hm : m = .ram ∨ m = .ptr) (m' : Option Mode) (v w : Word) :
      Emitted ⟨setMode (arg0fSet 0 m) true m', op.code, v, w⟩
  | branch {op : Opcode} (h : .branch op ∈ actions.map Prod.snd) (flags : BitVec 8)
      (v w : Word) : Emitted ⟨flags, op.code, v, w⟩

theorem emitted_moves (addr : Word) (j : Nat) (vs : List Word) :
    ∀ m ∈ moves addr j vs, Emitted m := by
  induction vs generalizing j with
  | nil => exact nofun
  | cons v vs ih =>
    rw [moves, List.forall_mem_cons]
    exact ⟨.twoarg (by decide) (.inl rfl) none _ _, ih (j + 1)⟩

theorem emitted_line (cmd : Lexcmd) (a : Action) (ms : List Command) (ha : actionOf cmd = some a)
    (h : Emits cmd a ms) : ∀ m ∈ ms, Emitted m := by
  have hmem := mem_actions ha
  cases h with
  | declare addr vs => exact emitted_moves addr 0 vs
  | initr n => exact List.forall_mem_singleton.mpr (.initr n)
  | noarg op => exact List.forall_mem_singleton.mpr (.noarg hmem)
  | onearg op _ v => exact List.forall_mem_singleton.mpr (.onearg hmem _ v)
  | twoarg op hm m' v w => exact List.forall_mem_singleton.mpr (.twoarg hmem hm m' v w)
  | jmpi m v => exact List.forall_mem_singleton.mpr (.onearg (by decide) m v)
  | branch op flags v w => exact List.forall_mem_singleton.mpr (.branch hmem flags v w)

theorem build_emits {code : Text} {c : Asmchip32} (hb : build code = .ok c) :
    ∀ m ∈ c.mc, Emitted m :=
  (build_emitted (Q := fun _ => True)
    (fun cmd a ms ha h => iff_of_true (emitted_line cmd a ms ha h) trivial) hb).mpr
    fun _ _ => trivial

/-- The opcode an action is called with. -/
def Action.opcode : Action → Option Opcode
  | .noarg op | .onearg op | .twoarg op | .branch op => some op
  | .declare | .initr | .jmpi => none

/-- The operands it takes. -/
def Action.arity : Action → Nat
  | .twoarg _ | .branch _ => 2
  | .noarg _ => 0
  | _ => 1

/-- The name that is printed is the one of the action. -/
theorem name_dump :
    ∀ a ∈ actions.map Prod.snd, ∀ op ∈ a.opcode, findAction op.dump.1.toList = some a := by
  decide

/-- As many operands are printed as the action takes, but for `not` and `push`. -/
theorem arity_dump : ∀ a ∈ actions.map Prod.snd, ∀ op ∈ a.opcode,
    a.arity ≤ op.dump.2 ↔ op ≠ .not ∧ op ≠ .push := by
  decide

/-- One of them is printed in any case. -/
theorem one_le_dump : ∀ a ∈ actions.map Prod.snd, ∀ op ∈ a.opcode,
    min a.arity 1 ≤ op.dump.2 := by
  decide

theorem dump_le (op : Opcode) : op.dump.2 ≤ 2 := by
  cases op <;> decide

theorem decimal_toDigits (n : Nat) : Source.decimal (Nat.toDigits 10 n) = n :=
  Nat.ofDigitChars_ten_toDigits

/-- What `%d` prints of a word. -/
def numeralOf (w : Word) : Source.Numeral where
  neg := decide (w.toInt < 0)
  digits := Nat.toDigits 10 w.toInt.natAbs
  nonempty := Nat.toDigits_ne_nil
  digits_ok _ h := Nat.isDigit_of_mem_toDigits (by decide) (by decide) h
  fits := by
    have hlt := BitVec.toInt_lt (x := w)
    have hle := BitVec.le_toInt w
    rw [decimal_toDigits, decide_eq_true_eq]
    omega

theorem numeralOf_text (w : Word) : (numeralOf w).text = (toString w.toInt).toList := by
  rw [Int.toString_eq_repr, Int.repr_eq_if, Source.Numeral.text, numeralOf]
  by_cases h : 0 ≤ w.toInt
  · have hneg : ¬ w.toInt < 0 := Int.not_lt.mpr h
    have habs : w.toInt.natAbs = w.toInt.toNat := by omega
    simp [h, hneg, habs]
  · have hneg : w.toInt < 0 := Int.not_le.mp h
    have habs : w.toInt.natAbs = (-w.toInt).toNat := by omega
    simp [h, hneg, habs]

theorem numeralOf_word (w : Word) : (numeralOf w).word = w := by
  have hvalue : (numeralOf w).value = w.toInt := by
    simp only [Source.Numeral.value, numeralOf, decimal_toDigits, decide_eq_true_eq]
    split_ifs <;> omega
  rw [Source.Numeral.word, hvalue, BitVec.ofInt_toInt]

theorem exists_number (n : Source.Numeral) : ∃ x : Number, x.text = n.text := by
  have hok : ∀ c ∈ n.text, c.isDigit ∨ c = '-' := by
    intro c hc
    rw [Source.Numeral.text] at hc
    split_ifs at hc
    · rcases List.mem_cons.mp hc with rfl | hc
      · exact .inr rfl
      · exact .inl (n.digits_ok c hc)
    · exact .inl (n.digits_ok c hc)
  have hne : n.text ≠ [] := by
    rw [Source.Numeral.text]
    split_ifs
    · exact List.cons_ne_nil _ _
    · exact n.nonempty
  obtain ⟨c, cs, h⟩ := List.exists_cons_of_ne_nil hne
  rw [h, List.forall_mem_cons] at hok
  exact ⟨⟨c, cs, hok.1, hok.2⟩, h.symm⟩

theorem exists_ident (op : Opcode) : ∃ i : Ident, i.text = op.dump.1.toList := by
  have hne : op.dump.1.toList ≠ [] := by
    cases op <;> decide
  have hok : op.dump.1.toList.all Char.isAlpha = true := by
    cases op <;> decide
  obtain ⟨c, cs, h⟩ := List.exists_cons_of_ne_nil hne
  rw [h, List.all_cons, Bool.and_eq_true, List.all_eq_true] at hok
  refine ⟨⟨c, cs, .inl hok.1, fun x hx => .inl ?_⟩, h.symm⟩
  rw [Char.isAlphanum, hok.2 x hx, Bool.true_or]

/-- The characters of `argname`. -/
def sigils : Mode → List Sigil
  | .literal => []
  | .ram => [.ram]
  | .ptr => [.ptr]
  | .data => [.data]

/-- The tokens of a printed operand. -/
def operandTokens (m : Mode) (v : Word) : List (Tktype × List Char) :=
  (sigils m).map (fun s => (s.type, [s.char])) ++ [(.literalNum, (numeralOf v).text)]

theorem exists_arg (m : Mode) (v : Word) : ∃ a : Arg,
    a.text = (argname m ++ toString v.toInt).toList ∧ a.tokens = operandTokens m v := by
  obtain ⟨x, hx⟩ := exists_number (numeralOf v)
  refine ⟨⟨sigils m, .number x⟩, ?_, ?_⟩
  · rw [Arg.text, Atom.text, hx, numeralOf_text, String.toList_append]
    cases m <;> rfl
  · rw [Arg.tokens, Atom.text, hx]
    rfl

/-- The operands of a command, with their modes. -/
def operandsOf (m : Command) : List (Mode × Word) :=
  [(arg0fGet m.flags, m.arg0), (arg1fGet m.flags, m.arg1)]

/-- The tokens of its line. -/
def printedTokens (m : Command) : List (Tktype × List Char) :=
  (.name, (Opcode.ofCode m.cmd).dump.1.toList) ::
    ((operandsOf m).take (Opcode.ofCode m.cmd).dump.2).flatMap fun x => operandTokens x.1 x.2

theorem length_operandTokens (m : Mode) (v : Word) : (operandTokens m v).length ≤ 2 := by
  cases m <;> simp [operandTokens, sigils]

theorem layout_line (i : Ident) {as : List Arg} {r : Text} (hr : Grammar.Rest as r)
    (hfits : 1 + (as.flatMap Arg.tokens).length ≤ maxToken) :
    ∃ w : Cmd, Layout [w] (' ' :: (i.text ++ (r ++ ['\n']))) ∧
      w.tokens = (.name, i.text) :: as.flatMap Arg.tokens := by
  have hblank : Grammar.Blanks [' '] := List.forall_mem_singleton.mpr (.inl rfl)
  refine ⟨⟨[], i, as, by simpa using hfits⟩, ?_, rfl⟩
  exact .cmd ⟨[], i, as, by simpa using hfits⟩ hblank .nil hr .newline .nil

/-- The line is a line of the grammar. -/
theorem dump_layout (m : Command) : ∃ w : Cmd,
    Layout [w] (dumpCommand m ++ "\n").toList ∧ w.tokens = printedTokens m := by
  obtain ⟨i, hi⟩ := exists_ident (Opcode.ofCode m.cmd)
  obtain ⟨a, ha, hta⟩ := exists_arg (arg0fGet m.flags) m.arg0
  obtain ⟨b, hb, htb⟩ := exists_arg (arg1fGet m.flags) m.arg1
  have hla := length_operandTokens (arg0fGet m.flags) m.arg0
  have hlb := length_operandTokens (arg1fGet m.flags) m.arg1
  have hmax : maxToken = 64 := rfl
  have hle := dump_le (Opcode.ofCode m.cmd)
  rw [printedTokens, ← hi]
  simp only [dumpCommand, String.toList_append, ← hi]
  generalize (Opcode.ofCode m.cmd).dump.2 = narg at hle ⊢
  match narg, hle with
  | 0, _ =>
    obtain ⟨w, hw, htok⟩ := layout_line i (.none (b := []) (List.forall_mem_nil _)) (by simp [hmax])
    exact ⟨w, by simpa [dumpArgs] using hw, by simpa using htok⟩
  | 1, _ =>
    have hrest : Grammar.Rest [a] (' ' :: a.text) :=
      .args (.inl rfl) (.last a (b := []) (List.forall_mem_nil _))
    obtain ⟨w, hw, htok⟩ := layout_line i hrest (by simp [hta]; omega)
    refine ⟨w, ?_, ?_⟩
    · simpa [dumpArgs, ha] using hw
    · simpa [operandsOf, hta] using htok
  | 2, _ =>
    have hrest : Grammar.Rest [a, b] (' ' :: ([] ++ (a.text ++ ',' :: ([' '] ++ b.text)))) :=
      .args (.inl rfl) (.cons a (List.forall_mem_nil _) (.last b (List.forall_mem_singleton.mpr (.inl rfl))))
    obtain ⟨w, hw, htok⟩ := layout_line i hrest (by simp [hta, htb]; omega)
    refine ⟨w, ?_, ?_⟩
    · have hflags : arg0fGet (m.flags >>> 2) = arg1fGet m.flags := rfl
      simpa [dumpArgs, ha, hb, hflags] using hw
    · simpa [operandsOf, hta, htb] using htok

/-- The text that is printed for a command is assembled to it. -/
def Reassembles (m : Command) : Prop :=
  ∃ d, build (dumpCommand m ++ "\n").toList = .ok d ∧ d.mc = [m]

/-- What the parser gets of the line. -/
structure Printed (m : Command) (c : Asmchip32) (cmd : Lexcmd) : Prop where
  shapes : shapes cmd = printedTokens m
  ends : ∀ x ∈ cmd, Ends x
  wellLexed : WellLexed cmd
  mc : c.mc = []

theorem exists_printed (m : Command) : ∃ c cmd, Printed m c cmd ∧
    ∀ d, build (dumpCommand m ++ "\n").toList = .ok d ↔ parseStep c cmd = .ok d := by
  obtain ⟨w, hlayout, htok⟩ := dump_layout m
  obtain ⟨c, hlex, hmap⟩ := lexer_text hlayout (.new (dumpCommand m ++ "\n").toList) rfl
  have hlines : c.vcmd.map shapes = [w.tokens] := hmap
  obtain ⟨cmd, hcmd, hshape⟩ := List.map_eq_singleton_iff.mp hlines
  have hmem : cmd ∈ c.vcmd := by simp [hcmd]
  refine ⟨c, cmd, ⟨hshape.trans htok, lexer_ends hlex cmd hmem, lexer_wellLexed hlex cmd hmem,
    (lexer_keeps hlex).1⟩, fun d => ?_⟩
  rw [build, hlex, ok_bind, parse, hcmd, run_cons]
  simp [bind_eq_ok]

section Lines

variable {m : Command} {c d : Asmchip32} {cmd : Lexcmd} {a : Action} (h : Printed m c cmd)
include h

theorem Printed.unlabelled : labelOf cmd = none ∧ firstPos cmd = 1 ∧
    actionOf cmd = findAction (Opcode.ofCode m.cmd).dump.1.toList :=
  Asm.unlabelled h.shapes

theorem Printed.step_iff (ha : findAction (Opcode.ofCode m.cmd).dump.1.toList = some a) :
    parseStep c cmd = .ok d ↔ a.Takes c cmd d := by
  rw [parseStep_ok h.wellLexed, h.unlabelled.2.2, ha]
  simp

theorem Printed.value {i : Nat} {v : Word} (decl : List Declared)
    (hi : (Asm.shapes cmd)[i]? = some (.literalNum, (numeralOf v).text)) :
    ∃ tk, cmd[i]? = some tk ∧ tk.type = .literalNum ∧ number tk.start = v ∧
      valueOf decl tk = some v := by
  obtain ⟨tk, htk, ht, htext⟩ := shapes_at i hi
  have hnum : number tk.start = v := by
    rw [number_of_text (h.ends tk (List.mem_of_getElem? htk)) ht htext, numeralOf_word]
  have hval : valueOf decl tk = some v := by
    rw [valueOf, show tk.type = .literalNum from ht, hnum]
  exact ⟨tk, htk, ht, hnum, hval⟩

/-- The mode the assembler reads off a printed operand. -/
def printedMode : Mode → Option Mode
  | .literal => none
  | m => some m

theorem Printed.rvalue {ic : Nat} {mode : Mode} {v : Word} {rest : List (Tktype × List Char)}
    (decl : List Declared) (hat : (Asm.shapes cmd).drop ic = operandTokens mode v ++ rest) :
    IsRvalue decl cmd ic (printedMode mode) (ic + (sigils mode).length) v := by
  have hget : ∀ k, (Asm.shapes cmd)[ic + k]? = (operandTokens mode v ++ rest)[k]? := by
    intro k
    rw [← hat, List.getElem?_drop]
  cases mode with
  | literal =>
    obtain ⟨tk, htk, ht, _, hval⟩ := h.value decl (hget 0)
    exact ⟨by rw [rvaluePos, show cmd[ic]? = some tk from htk, Option.map_some, ht]; rfl,
      tk, htk, hval⟩
  | ram | ptr | data =>
    obtain ⟨s, hs, htype, _⟩ := shapes_at ic (hget 0)
    obtain ⟨tk, htk, _, _, hval⟩ := h.value decl (hget 1)
    exact ⟨by rw [rvaluePos, hs, Option.map_some, htype]; rfl, tk, htk, hval⟩

theorem Printed.lvalue {mode : Mode} {v : Word} {rest : List (Tktype × List Char)}
    (decl : List Declared) (hm : mode = .ram ∨ mode = .ptr)
    (hat : (Asm.shapes cmd).drop 1 = operandTokens mode v ++ rest) :
    ∃ tk, IsLvalue decl cmd 1 mode tk v ∧ tk.type = .literalNum := by
  have hget : ∀ k, (Asm.shapes cmd)[1 + k]? = (operandTokens mode v ++ rest)[k]? := by
    intro k
    rw [← hat, List.getElem?_drop]
  rcases hm with rfl | rfl
  all_goals
    obtain ⟨s, hs, htype, _⟩ := shapes_at 1 (hget 0)
    obtain ⟨tk, htk, ht, _, hval⟩ := h.value decl (hget 1)
    exact ⟨tk, ⟨by rw [hs, Option.map_some, htype]; rfl, htk, hval⟩, ht⟩

/-- The first printed operand is behind the name. -/
theorem Printed.first (hn : 1 ≤ (Opcode.ofCode m.cmd).dump.2) : ∃ rest,
    (Asm.shapes cmd).drop 1 = operandTokens (arg0fGet m.flags) m.arg0 ++ rest := by
  obtain ⟨n, hn⟩ := Nat.exists_eq_add_of_le' hn
  refine ⟨((operandsOf m).tail.take n).flatMap fun x => operandTokens x.1 x.2, ?_⟩
  rw [h.shapes, printedTokens, hn]
  rfl

theorem Printed.both (hn : (Opcode.ofCode m.cmd).dump.2 = 2) :
    (Asm.shapes cmd).drop 1 = operandTokens (arg0fGet m.flags) m.arg0 ++
      operandTokens (arg1fGet m.flags) m.arg1 := by
  rw [h.shapes, printedTokens, hn]
  simp [operandsOf]

theorem Printed.takesOne {f : BitVec 8 → Word → Command}
    (hn : 1 ≤ (Opcode.ofCode m.cmd).dump.2) :
    TakesOne f c cmd (c.emit (f (setMode 0 false (printedMode (arg0fGet m.flags))) m.arg0)) := by
  obtain ⟨hl, hfirst, _⟩ := h.unlabelled
  obtain ⟨rest, hat⟩ := h.first hn
  rw [TakesOne, addLabel_of_none hl, hfirst]
  exact ⟨by rw [LabelFresh, hl]; nofun, _, _, _, h.rvalue c.declare hat, rfl⟩

theorem Printed.takesTwo {f : BitVec 8 → Word → Word → Command}
    (hn : (Opcode.ofCode m.cmd).dump.2 = 2)
    (hm : arg0fGet m.flags = .ram ∨ arg0fGet m.flags = .ptr) :
    TakesTwo f c cmd (c.emit (f (setMode (arg0fSet 0 (arg0fGet m.flags)) true
      (printedMode (arg1fGet m.flags))) m.arg0 m.arg1)) := by
  obtain ⟨hl, hfirst, _⟩ := h.unlabelled
  have hat := h.both hn
  have hat' : (Asm.shapes cmd).drop 3 = operandTokens (arg1fGet m.flags) m.arg1 ++ [] := by
    have hdrop : (Asm.shapes cmd).drop 3 = ((Asm.shapes cmd).drop 1).drop 2 := by
      rw [List.drop_drop]
    rw [hdrop, hat, List.append_nil]
    rcases hm with hm | hm <;> rw [hm] <;> rfl
  obtain ⟨tk, hlv, ht⟩ := h.lvalue c.declare hm hat
  have hmark : markLabel c tk = c := by
    rw [markLabel, if_neg]
    rintro ⟨hname, _⟩
    rw [ht] at hname
    cases hname
  rw [TakesTwo, addLabel_of_none hl, hfirst]
  refine ⟨by rw [LabelFresh, hl]; rintro _ ⟨⟩, _, tk, _, _, _, _, hlv, h.rvalue c.declare hat', ?_⟩
  rw [hmark]

/-- One printed operand is not enough for two. -/
theorem Printed.not_takesTwo {f : BitVec 8 → Word → Word → Command}
    (hn : (Opcode.ofCode m.cmd).dump.2 = 1) : ¬ TakesTwo f c cmd d := by
  rintro ⟨_, _, _, _, _, _, _, _, ⟨hpos, _⟩, _⟩
  rw [h.unlabelled.2.1] at hpos
  obtain ⟨tk, htk, _⟩ := Option.map_eq_some_iff.mp hpos
  have hlt := (List.getElem?_eq_some_iff.mp htk).1
  have hlen := congrArg List.length h.shapes
  have htwo := length_operandTokens (arg0fGet m.flags) m.arg0
  rw [length_shapes, printedTokens, hn] at hlen
  simp [operandsOf] at hlen
  omega

end Lines

section Commands

variable {m : Command} {a : Action}
  (ha : findAction (Opcode.ofCode m.cmd).dump.1.toList = some a)
include ha

theorem reassembles (h : ∀ c cmd, Printed m c cmd → ∃ d, a.Takes c cmd d ∧ d.mc = c.mc ++ [m]) :
    Reassembles m := by
  obtain ⟨c, cmd, hp, hbuild⟩ := exists_printed m
  obtain ⟨d, htakes, hmc⟩ := h c cmd hp
  exact ⟨d, (hbuild d).mpr ((hp.step_iff ha).mpr htakes), by rw [hmc, hp.mc]; rfl⟩

theorem not_reassembles (h : ∀ c cmd d, Printed m c cmd → ¬ a.Takes c cmd d) :
    ¬ Reassembles m := by
  rintro ⟨d, hd, _⟩
  obtain ⟨c, cmd, hp, hbuild⟩ := exists_printed m
  exact h c cmd d hp ((hp.step_iff ha).mp ((hbuild d).mp hd))

end Commands

theorem setMode_one (m : Option Mode) :
    setMode 0 false (printedMode (arg0fGet (setMode 0 false m))) = setMode 0 false m := by
  rw [arg0fGet_one]
  rcases m with _ | m
  · rfl
  · cases m <;> rfl

theorem setMode_two (m : Mode) (m' : Option Mode) :
    setMode (arg0fSet 0 (arg0fGet (setMode (arg0fSet 0 m) true m'))) true
      (printedMode (arg1fGet (setMode (arg0fSet 0 m) true m'))) = setMode (arg0fSet 0 m) true m' := by
  rw [arg0fGet_two, arg1fGet_two]
  rcases m' with _ | m'
  · rfl
  · cases m <;> cases m' <;> rfl

theorem branch_opcode {op : Opcode} (h : .branch op ∈ actions.map Prod.snd) :
    op = .ift ∨ op = .iff := by
  simpa [actions] using h

section Emission

variable {m : Command} {op : Opcode} (hcmd : m.cmd = op.code)
include hcmd

theorem findAction_cmd {a : Action} (ha : a ∈ actions.map Prod.snd) (hop : a.opcode = some op) :
    findAction (Opcode.ofCode m.cmd).dump.1.toList = some a := by
  rw [hcmd, Opcode.ofCode_code]
  exact name_dump a ha op hop

theorem reassembles_initr (hop : op = .initr) (hflags : m.flags = 0) (harg : m.arg1 = 0) :
    Reassembles m := by
  subst hop
  have hm : m = ⟨0, Opcode.initr.code, m.arg0, 0⟩ := by
    cases m
    simp_all
  have hname : findAction (Opcode.ofCode m.cmd).dump.1.toList = some .initr := by
    rw [hcmd]
    decide
  have hn : 1 ≤ (Opcode.ofCode m.cmd).dump.2 := by
    rw [hcmd]
    decide
  refine reassembles hname fun c cmd hp => ?_
  obtain ⟨hl, hfirst, _⟩ := hp.unlabelled
  obtain ⟨rest, hat⟩ := hp.first hn
  have hget : (shapes cmd)[1]? = some (.literalNum, (numeralOf m.arg0).text) := by
    rw [show (shapes cmd)[1]? = ((shapes cmd).drop 1)[0]? by rw [List.getElem?_drop], hat, hflags]
    rfl
  obtain ⟨tk, htk, ht, hnum, _⟩ := hp.value [] hget
  refine ⟨_, ⟨by rw [LabelFresh, hl]; nofun, tk, by rw [hfirst]; exact htk, ht, rfl⟩, ?_⟩
  rw [addLabel_of_none hl, hnum, ← hm]
  rfl

theorem reassembles_noarg (h : .noarg op ∈ actions.map Prod.snd) (hflags : m.flags = 0)
    (harg₀ : m.arg0 = 0) (harg₁ : m.arg1 = 0) : Reassembles m := by
  have hm : m = ⟨0, op.code, 0, 0⟩ := by
    cases m
    simp_all
  refine reassembles (findAction_cmd hcmd h rfl) fun c cmd hp => ⟨_, rfl, ?_⟩
  rw [Asmchip32.emit, mc_tryLabel, hm]

theorem reassembles_onearg (h : .onearg op ∈ actions.map Prod.snd)
    (hflags : setMode 0 false (printedMode (arg0fGet m.flags)) = m.flags) (harg : m.arg1 = 0) :
    Reassembles m := by
  have hn : 1 ≤ (Opcode.ofCode m.cmd).dump.2 := by
    rw [hcmd, Opcode.ofCode_code]
    exact one_le_dump _ h op rfl
  refine reassembles (findAction_cmd hcmd h rfl) fun c cmd hp => ?_
  have htakes := hp.takesOne (f := fun f v => ⟨f, op.code, v, 0⟩) hn
  refine ⟨_, htakes, ?_⟩
  rw [Asmchip32.emit, hflags, ← hcmd, ← harg]

theorem reassembles_twoarg (h : .twoarg op ∈ actions.map Prod.snd)
    (hm : arg0fGet m.flags = .ram ∨ arg0fGet m.flags = .ptr)
    (hflags : setMode (arg0fSet 0 (arg0fGet m.flags)) true (printedMode (arg1fGet m.flags)) =
      m.flags) :
    Reassembles m ↔ op ≠ .not ∧ op ≠ .push := by
  rw [← arity_dump _ h op rfl]
  constructor
  · intro hr
    by_contra hlt
    have hn : (Opcode.ofCode m.cmd).dump.2 = 1 := by
      rw [hcmd, Opcode.ofCode_code]
      exact Nat.le_antisymm (Nat.le_of_lt_succ (Nat.lt_of_not_le hlt)) (one_le_dump _ h op rfl)
    refine not_reassembles (findAction_cmd hcmd h rfl) (fun c cmd d hp => ?_) hr
    exact hp.not_takesTwo (f := fun f v w => ⟨f, op.code, v, w⟩) hn
  · intro htwo
    have hn : (Opcode.ofCode m.cmd).dump.2 = 2 := by
      rw [hcmd, Opcode.ofCode_code]
      exact Nat.le_antisymm (dump_le op) htwo
    refine reassembles (findAction_cmd hcmd h rfl) fun c cmd hp => ?_
    have htakes := hp.takesTwo (f := fun f v w => ⟨f, op.code, v, w⟩) hn hm
    refine ⟨_, htakes, ?_⟩
    rw [Asmchip32.emit, hflags, ← hcmd]

end Emission

/-- An emitted command comes back from its text, but for `not` and `push`. -/
theorem reassembles_iff {m : Command} (he : Emitted m) (hift : Opcode.ofCode m.cmd ≠ .ift)
    (hiff : Opcode.ofCode m.cmd ≠ .iff) :
    Reassembles m ↔ Opcode.ofCode m.cmd ≠ .not ∧ Opcode.ofCode m.cmd ≠ .push := by
  cases he with
  | initr n => exact iff_of_true (reassembles_initr rfl rfl rfl rfl) (by simp)
  | @noarg op h =>
    rw [Opcode.ofCode_code]
    exact iff_of_true (reassembles_noarg rfl h rfl rfl rfl)
      ((arity_dump _ h op rfl).mp (Nat.zero_le _))
  | @onearg op h mode v =>
    rw [Opcode.ofCode_code]
    exact iff_of_true (reassembles_onearg rfl h (setMode_one mode) rfl)
      ((arity_dump _ h op rfl).mp (one_le_dump _ h op rfl))
  | @twoarg op h mode hm mode' v w =>
    rw [Opcode.ofCode_code]
    exact reassembles_twoarg rfl h ((arg0fGet_two mode mode').symm ▸ hm) (setMode_two mode mode')
  | @branch op h flags v w =>
    rw [Opcode.ofCode_code] at hift hiff
    rcases branch_opcode h with hop | hop
    · exact absurd hop hift
    · exact absurd hop hiff

/-- Every command of an accepted source has its line in the disassembly, and the text of
the line is assembled to the command again, exactly when it is no `not` and no `push`. -/
theorem dump_reassembled {code : Text} {c : Asmchip32} (hb : build code = .ok c)
    (front rest : List Command) {m : Command} (hm : c.mc = front ++ m :: rest)
    (hift : Opcode.ofCode m.cmd ≠ .ift) (hiff : Opcode.ofCode m.cmd ≠ .iff) :
    commandDump c.mc = "commands dump: " ++ toString c.mc.length ++ "\n" ++ (dumpLines 0 front ++
      (padIndex front.length ++ "|" ++ (dumpCommand m ++ "\n") ++
        dumpLines (front.length + 1) rest)) ∧
    ((∃ d, build (dumpCommand m ++ "\n").toList = .ok d ∧ d.mc = [m]) ↔
      Opcode.ofCode m.cmd ≠ .not ∧ Opcode.ofCode m.cmd ≠ .push) := by
  constructor
  · rw [hm]
    exact commandDump_append front m rest
  · exact reassembles_iff (build_emits hb m (by simp [hm])) hift hiff

/-- A jump back. -/
def jumping : Text := "initr 40\ninc $35\njmpi -3\n".toList

theorem dump_reassembled_jump :
    ∃ d, build (dumpCommand ⟨0, Opcode.jmp.code, 0, 0⟩ ++ "\n").toList = .ok d ∧
      d.mc = [⟨0, Opcode.jmp.code, 0, 0⟩] :=
  (dump_reassembled (ok_final (x := build jumping) (by decide +kernel))
    [⟨0, Opcode.initr.code, 40, 0⟩, ⟨1, Opcode.inc.code, 35, 0⟩] []
    (by decide +kernel) (by decide) (by decide)).2.mpr (by decide)

/-- ` not $35` is printed for `not $35, 0`, and not accepted. -/
theorem not_unreadable : ∃ c, build "initr 40\nnot $35, 0\n".toList = .ok c ∧
    ∃ m ∈ c.mc, Opcode.ofCode m.cmd ≠ .ift ∧ Opcode.ofCode m.cmd ≠ .iff ∧
      ¬ ∃ d, build (dumpCommand m ++ "\n").toList = .ok d := by
  refine ⟨final (build "initr 40\nnot $35, 0\n".toList), ok_final (by decide +kernel),
    ⟨1, Opcode.not.code, 35, 0⟩, by decide +kernel, by decide, by decide, ?_⟩
  rintro ⟨d, hd⟩
  have hnone : (build (dumpCommand ⟨1, Opcode.not.code, 35, 0⟩ ++ "\n").toList).toOption = none := by
    decide +kernel
  rw [hd] at hnone
  cases hnone

end Asm
