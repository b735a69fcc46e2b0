import Chip32.ParserSpec
import Chip32.VmCells

/-!
# Labels and the commands they stand for

A label is declared with `cmdcount`, the number of lines the lexer found, and an
operand that names it gets that number, whatever was emitted before the label.
-/
namespace Asm

open Runs Vm

/-- The operands an action takes: the position of the value, and whether the value
goes to `arg1`. -/
def operands (a : Action) (cmd : Lexcmd) : List (Nat × Bool) :=
  match a with
  | .onearg _ | .jmpi =>
    ((rvaluePos cmd (firstPos cmd)).map fun r => (r.2, false)).toList
  | .twoarg _ | .branch _ =>
    (firstPos cmd + 1, false) ::
      ((rvaluePos cmd (firstPos cmd + 2)).map fun r => (r.2, true)).toList
  | _ => []

def argOf (m : Command) (second : Bool) : Word := if second then m.arg1 else m.arg0

/-- What an action adds to the value of an operand. -/
def base (a : Action) (c : Asmchip32) (second : Bool) : Word :=
  match a, second with
  | .jmpi, false => c.mccount + 1
  | .branch _, true => c.mccount + 1
  | _, _ => 0

theorem TakesOne.operand {m : BitVec 8 → Word → Command} {c d : Asmchip32} {cmd : Lexcmd}
    (h : TakesOne m c cmd d) {mode : Option Mode} {q : Nat} {tk : Lextoken}
    (hq : rvaluePos cmd (firstPos cmd) = some (mode, q)) (htk : cmd[q]? = some tk) :
    ∃ f v, d.mc = c.mc ++ [m f v] ∧ valueOf (addLabel c cmd).declare tk = some v := by
  obtain ⟨_, mode', q', v, ⟨hq', tk', htk', hv⟩, rfl⟩ := h
  cases hq.symm.trans hq'
  cases htk.symm.trans htk'
  exact ⟨_, v, rfl, hv⟩

theorem TakesTwo.operand {m : BitVec 8 → Word → Word → Command} {c d : Asmchip32} {cmd : Lexcmd}
    (h : TakesTwo m c cmd d) :
    ∃ f v w, d.mc = c.mc ++ [m f v w] ∧
      (∀ tk, cmd[firstPos cmd + 1]? = some tk → valueOf (addLabel c cmd).declare tk = some v) ∧
      ∀ mode q tk, rvaluePos cmd (firstPos cmd + 2) = some (mode, q) → cmd[q]? = some tk →
        valueOf (addLabel c cmd).declare tk = some w := by
  obtain ⟨_, mode, t, v, mode', q', w, ⟨_, ht, hv⟩, ⟨hq', tk', htk', hw⟩, rfl⟩ := h
  refine ⟨setMode (arg0fSet 0 mode) true mode', v, w, by simp [Asmchip32.emit, addLabel],
    fun tk htk => ?_, fun mode q tk hq htk => ?_⟩
  · cases ht.symm.trans htk
    exact hv
  · cases hq.symm.trans hq'
    cases htk.symm.trans htk'
    exact hw

/-- An operand is assembled to its value, on top of the base of its action. -/
theorem operand_assembled {a : Action} {c d : Asmchip32} {cmd : Lexcmd} {q : Nat} {second : Bool}
    {tk : Lextoken} (h : a.Takes c cmd d) (hop : (q, second) ∈ operands a cmd)
    (htk : cmd[q]? = some tk) :
    ∃ m v, d.mc = c.mc ++ [m] ∧ valueOf (addLabel c cmd).declare tk = some v ∧
      argOf m second = base a c second + v := by
  have one : ∀ {x}, x ∈ ((rvaluePos cmd (firstPos cmd)).map fun r => (r.2, false)).toList →
      x = (q, second) → second = false ∧ ∃ mode, rvaluePos cmd (firstPos cmd) = some (mode, q) := by
    rintro x hx rfl
    obtain ⟨⟨mode, q'⟩, hr, he⟩ := Option.map_eq_some_iff.mp (Option.mem_toList.mp hx)
    cases he
    exact ⟨rfl, mode, hr⟩
  have two : ∀ {x}, x ∈ (firstPos cmd + 1, false) ::
      ((rvaluePos cmd (firstPos cmd + 2)).map fun r => (r.2, true)).toList → x = (q, second) →
      second = false ∧ q = firstPos cmd + 1 ∨
        second = true ∧ ∃ mode, rvaluePos cmd (firstPos cmd + 2) = some (mode, q) := by
    rintro x hx rfl
    rcases List.mem_cons.mp hx with he | hx
    · cases he
      exact .inl ⟨rfl, rfl⟩
    · obtain ⟨⟨mode, q'⟩, hr, he⟩ := Option.map_eq_some_iff.mp (Option.mem_toList.mp hx)
      cases he
      exact .inr ⟨rfl, mode, hr⟩
  cases a with
  | onearg op | jmpi =>
    obtain ⟨rfl, mode, hq⟩ := one hop rfl
    simp only [Action.Takes] at h
    obtain ⟨f, v, hd, hv⟩ := h.operand hq htk
    exact ⟨_, v, hd, hv, by simp [argOf, base]⟩
  | twoarg op | branch op =>
    simp only [Action.Takes] at h
    obtain ⟨f, v, w, hd, hv, hw⟩ := h.operand
    obtain ⟨rfl, rfl⟩ | ⟨rfl, mode, hq⟩ := two hop rfl
    · exact ⟨_, v, hd, hv tk htk, by simp [argOf, base]⟩
    · exact ⟨_, w, hd, hw mode q tk hq htk, by simp [argOf, base]⟩
  | declare | initr | noarg op => cases hop

/-- Every label is declared with `cmdcount`. -/
def LabelsAtEnd (c : Asmchip32) : Prop :=
  ∀ dec ∈ c.declare, dec.type = .label → dec.addr = BitVec.ofNat 32 c.vcmd.length

theorem labelsAtEnd_addLabel {c : Asmchip32} (h : LabelsAtEnd c) (cmd : Lexcmd) :
    LabelsAtEnd (addLabel c cmd) := by
  intro dec hdec ht
  rcases List.mem_append.mp hdec with hdec | hdec
  · exact h dec hdec ht
  · obtain ⟨l, _, rfl⟩ := List.mem_map.mp hdec
    rfl

theorem labelsAtEnd_tryLabel {c : Asmchip32} (h : LabelsAtEnd c) (cmd : Lexcmd) :
    LabelsAtEnd (tryLabel c cmd) := by
  unfold tryLabel
  split_ifs
  · exact labelsAtEnd_addLabel h cmd
  · cases cmd <;> exact h

theorem labelsAtEnd_markLabel {c : Asmchip32} (h : LabelsAtEnd c) (tk : Lextoken) :
    LabelsAtEnd (markLabel c tk) := by
  unfold markLabel
  split_ifs <;> exact h

theorem takes_labelsAtEnd {a : Action} {c d : Asmchip32} {cmd : Lexcmd} (hc : LabelsAtEnd c)
    (h : a.Takes c cmd d) : LabelsAtEnd d := by
  cases a with
  | declare =>
    have hx := takes_extends h
    obtain ⟨tk, pl, addr, dauto, n, vs, _, _, _, _, _, _, rfl⟩ := h
    intro dec hdec ht
    rcases List.mem_append.mp hdec with hdec | hdec
    · exact (hc dec hdec ht).trans (by rw [hx.vcmd])
    · cases List.mem_singleton.mp hdec
      cases ht
  | initr =>
    obtain ⟨_, _, _, _, rfl⟩ := h
    exact labelsAtEnd_addLabel hc cmd
  | noarg op =>
    cases h
    exact labelsAtEnd_tryLabel hc cmd
  | onearg op | jmpi =>
    obtain ⟨_, _, _, _, _, rfl⟩ := h
    exact labelsAtEnd_addLabel hc cmd
  | twoarg op | branch op =>
    obtain ⟨_, _, tk, _, _, _, _, _, _, rfl⟩ := h
    exact labelsAtEnd_markLabel (labelsAtEnd_addLabel hc cmd) tk

theorem run_labelsAtEnd {cmds : List Lexcmd} {c d : Asmchip32}
    (hcmds : ∀ cmd ∈ cmds, WellLexed cmd) (hc : LabelsAtEnd c)
    (h : run parseStep cmds c = .ok d) : LabelsAtEnd d := by
  apply run_invariant parseStep _ hcmds hc h
  intro c cmd d hcmd hc hd
  obtain ⟨a, _, ha⟩ := (parseStep_ok hcmd).mp hd
  exact takes_labelsAtEnd hc ha

/-- What an operand that is `name` is worth in a state: the address of the variable
of that name, and the number of lines for a label. -/
def address (c : Asmchip32) (name : List Char) : Word :=
  match declareFind c.declare name with
  | some dec => if dec.type = .label then BitVec.ofNat 32 c.vcmd.length else dec.addr
  | none => BitVec.ofNat 32 c.vcmd.length

theorem valueOf_name {c : Asmchip32} {cmd : Lexcmd} {tk : Lextoken} {v : Word}
    (hc : LabelsAtEnd c) (ht : tk.type = .name)
    (h : valueOf (addLabel c cmd).declare tk = some v) : v = address c tk.text := by
  simp only [valueOf, ht, Option.map_eq_some_iff] at h
  obtain ⟨dec, hdec, rfl⟩ := h
  simp only [addLabel, declareFind, List.find?_append] at hdec
  unfold address declareFind
  cases hf : c.declare.find? fun x => x.name = tk.text with
  | some dec' =>
    obtain rfl : dec' = dec := by simpa [hf] using hdec
    simp only
    split_ifs with hl
    · exact hc dec' (List.mem_of_find?_eq_some hf) hl
    · rfl
  | none =>
    rw [hf, Option.none_or] at hdec
    obtain ⟨l, _, rfl⟩ := List.mem_map.mp (List.mem_of_find?_eq_some hdec)
    rfl

/-- An accepted source with a label on a line that emits something, and an operand
of a later line that names it. -/
structure LabelUse (code : Text) where
  lexed : Asmchip32
  built : Asmchip32
  lexer_ok : lexer (.new code) = .ok lexed
  build_ok : build code = .ok built
  before : List Lexcmd
  target : Lexcmd
  between : List Lexcmd
  use : Lexcmd
  after : List Lexcmd
  lines : lexed.vcmd = before ++ target :: (between ++ use :: after)
  /-- The states before the labelled line, behind it, and before the use. -/
  atTarget : Asmchip32
  behind : Asmchip32
  atUse : Asmchip32
  run_before : run parseStep before lexed = .ok atTarget
  run_target : parseStep atTarget target = .ok behind
  run_between : run parseStep between behind = .ok atUse
  emits : atTarget.mc.length < behind.mc.length
  name : List Char
  labelled : ∃ tk ∈ target, tk.type = .label ∧ tk.text = name
  action : Action
  action_ok : actionOf use = some action
  /-- The operand, by its position and the argument it is assembled to. -/
  pos : Nat
  second : Bool
  operand : (pos, second) ∈ operands action use
  token : Lextoken
  token_ok : use[pos]? = some token ∧ token.type = .name ∧ token.text = name
  command : Command
  command_ok : built.mc[atUse.mc.length]? = some command

variable {code : Text}

/-- The operand is the index of the first command of the labelled line. -/
def LabelUse.Resolved (u : LabelUse code) : Prop :=
  argOf u.command u.second = BitVec.ofNat 32 u.atTarget.mc.length

instance (u : LabelUse code) : Decidable u.Resolved := inferInstanceAs (Decidable (_ = _))

/-- The number of lines of the source, or the address of a variable of that name,
counted from where the action counts, is the number of commands before the label. -/
def LabelUse.Located (u : LabelUse code) : Prop :=
  base u.action u.atUse u.second + address u.atUse u.name = BitVec.ofNat 32 u.atTarget.mc.length

instance (u : LabelUse code) : Decidable u.Located := inferInstanceAs (Decidable (_ = _))

/-- The operand is assembled to the base of its action and the address of the name. -/
theorem LabelUse.argOf_command (u : LabelUse code) :
    argOf u.command u.second = base u.action u.atUse u.second + address u.atUse u.name := by
  have hwell := lexer_wellLexed u.lexer_ok
  rw [u.lines] at hwell
  have hrun : run parseStep (u.before ++ u.target :: u.between) u.lexed = .ok u.atUse := by
    rw [run_append, u.run_before, ok_bind, run_cons, u.run_target, ok_bind, u.run_between]
  obtain ⟨htk, hname, htext⟩ := u.token_ok
  have hbuild := u.build_ok
  rw [build, u.lexer_ok, ok_bind, parse, u.lines, ← List.cons_append, ← List.append_assoc,
    run_append, hrun, ok_bind, run_cons, bind_eq_ok] at hbuild
  obtain ⟨d, hstep, hafter⟩ := hbuild
  obtain ⟨a, ha, htakes⟩ := (parseStep_ok (hwell u.use (by simp))).mp hstep
  cases ha.symm.trans u.action_ok
  obtain ⟨m, v, hmc, hv, harg⟩ := operand_assembled htakes u.operand htk
  have hm : m = u.command := by
    obtain ⟨rest, hrest⟩ := (run_extends (fun x hx => hwell x (by simp [hx])) hafter).mc
    have := u.command_ok
    rw [← hrest, hmc, List.append_assoc, List.getElem?_append_right le_rfl, Nat.sub_self] at this
    exact Option.some.inj this
  have hend : LabelsAtEnd u.atUse := by
    refine run_labelsAtEnd (fun x hx => hwell x ?_) ?_ hrun
    · simp only [List.mem_append, List.mem_cons] at hx ⊢
      rcases hx with h | h | h <;> simp [h]
    · intro dec hdec
      rw [(lexer_keeps u.lexer_ok).2.2.1] at hdec
      cases hdec
  rw [← hm, harg, valueOf_name hend hname hv, htext]

/-- A jump or a call with a literal operand goes on at that operand. -/
theorem jump_resumes {h : Host} {c d : Chip} {pcmd q : Command}
    (hop : pcmd.cmd = Opcode.jmp.code ∨ pcmd.cmd = Opcode.call.code)
    (hm : arg0fGet pcmd.flags = .literal) (he : execute h c pcmd = .ok (d, q)) :
    cell d.ram regPc = pcmd.arg0 := by
  obtain ⟨⟨e, q'⟩, hc, _⟩ := bind_eq_ok.mp he
  have hstored : ∃ f, store f regPc (pcmd.arg0 - 1) = .ok e := by
    have hc := hc
    rcases hop with hop | hop
    · rw [hop, Opcode.ofCode_code] at hc
      simp only [commands, cmdJmp, getword, hm, pure_ok, ok_bind] at hc
      obtain ⟨f, hf, hc⟩ := bind_eq_ok.mp hc
      cases hc
      exact ⟨c, hf⟩
    · rw [hop, Opcode.ofCode_code] at hc
      simp only [commands, cmdCall, getword, hm, pure_ok, ok_bind, bind_eq_ok] at hc
      obtain ⟨_, _, _, _, _, _, _, _, _, _, f, _, g, hg, hc⟩ := hc
      cases hc
      exact ⟨f, hg⟩
  obtain ⟨f, hf⟩ := hstored
  obtain ⟨hin, rfl⟩ := store_eq_ok.mp hf
  have hin' : InRam (f.ram.set regPc.toNat (pcmd.arg0 - 1)) regPc := (inRam_set _).mpr hin
  rw [execute_ok hc hin'] at he
  cases he
  rw [cell_set_self hin', cell_set_self hin]
  exact BitVec.sub_add_cancel _ _

/-- A label is resolved exactly where counting lines gives what counting commands
would, and then a jump or a call through the operand goes on at its command. -/
theorem resolved_iff_located (u : LabelUse code) :
    (u.Resolved ↔ u.Located) ∧
      ∀ (h : Host) (c d : Chip) (q : Command), u.second = false →
        u.command.cmd = Opcode.jmp.code ∨ u.command.cmd = Opcode.call.code →
        arg0fGet u.command.flags = .literal → execute h c u.command = .ok (d, q) →
        (cell d.ram regPc = BitVec.ofNat 32 u.atTarget.mc.length ↔ u.Located) := by
  have hiff : u.Resolved ↔ u.Located := by
    rw [LabelUse.Resolved, LabelUse.Located, u.argOf_command]
  refine ⟨hiff, fun h c d q hfirst hop hm he => ?_⟩
  rw [jump_resumes hop hm he, ← hiff, LabelUse.Resolved, hfirst]
  rfl

/-- `loop` is the second command of three lines. -/
def loopSource : Text := "initr 40\nloop: inc $35\njmp loop\n".toList

/-- Its lines. -/
def loopLexed : Asmchip32 := final (lexer (.new loopSource))

def loopLine (i : Nat) : Lexcmd := loopLexed.vcmd.getD i []

def loopUse : LabelUse loopSource where
  lexed := loopLexed
  built := final (build loopSource)
  lexer_ok := ok_final (by decide +kernel)
  build_ok := ok_final (by decide +kernel)
  before := [loopLine 0]
  target := loopLine 1
  between := []
  use := loopLine 2
  after := []
  lines := by decide +kernel
  atTarget := final (run parseStep [loopLine 0] loopLexed)
  behind := final (run parseStep [loopLine 0, loopLine 1] loopLexed)
  atUse := final (run parseStep [loopLine 0, loopLine 1] loopLexed)
  run_before := ok_final (by decide +kernel)
  run_target := ok_of_toOption (by decide +kernel)
  run_between := rfl
  emits := by decide +kernel
  name := "loop".toList
  labelled := by decide +kernel
  action := .onearg .jmp
  action_ok := by decide +kernel
  pos := 1
  second := false
  operand := by decide +kernel
  token := (loopLine 2).getLastD ⟨0, .name, [], []⟩
  token_ok := by decide +kernel
  command := ⟨0, Opcode.jmp.code, 3, 0⟩
  command_ok := by decide +kernel

/-- `jmp loop` leads to the third command, its own line's. -/
theorem loop_unresolved : ∃ u : LabelUse loopSource, ¬ u.Resolved := ⟨loopUse, by decide +kernel⟩

end Asm
