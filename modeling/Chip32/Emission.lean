import Chip32.ParserSpec

/-!
# What the assembler emits

An accepted line appends its commands to the program. Their codes and flags can
be read off its action and its tokens.
-/
namespace Asm

open Runs Vm

theorem arg0fGet_dest (m : Mode) : arg0fGet (arg0fSet 0 m) = m := by
  cases m <;> decide

theorem arg0fGet_one (m : Option Mode) : arg0fGet (setMode 0 false m) = m.getD .literal := by
  rcases m with _ | m
  · decide
  · exact arg0fGet_dest m

theorem arg0fGet_two (m : Mode) (m' : Option Mode) :
    arg0fGet (setMode (arg0fSet 0 m) true m') = m := by
  cases m <;> rcases m' with _ | m' <;> first | decide | (cases m' <;> decide)

theorem arg1fGet_two (m : Mode) (m' : Option Mode) :
    arg1fGet (setMode (arg0fSet 0 m) true m') = m'.getD .literal := by
  cases m <;> rcases m' with _ | m' <;> first | decide | (cases m' <;> decide)

/-- What a line of an action emits. -/
inductive Emits (cmd : Lexcmd) : Action → List Command → Prop
  | declare (addr : Word) (vs : List Word) : Emits cmd .declare (moves addr 0 vs)
  | initr (n : Word) : Emits cmd .initr [⟨0, Opcode.initr.code, n, 0⟩]
  | noarg (op : Opcode) : Emits cmd (.noarg op) [⟨0, op.code, 0, 0⟩]
  | onearg (op : Opcode) {tk : Lextoken} (h : cmd[firstPos cmd]? = some tk) (v : Word) :
      Emits cmd (.onearg op) [⟨setMode 0 false (rvalueType tk.type), op.code, v, 0⟩]
  | twoarg (op : Opcode) {m : Mode} (hm : m = .ram ∨ m = .ptr) (m' : Option Mode) (v w : Word) :
      Emits cmd (.twoarg op) [⟨setMode (arg0fSet 0 m) true m', op.code, v, w⟩]
  | jmpi (m : Option Mode) (v : Word) :
      Emits cmd .jmpi [⟨setMode 0 false m, Opcode.jmp.code, v, 0⟩]
  | branch (op : Opcode) (flags : BitVec 8) (v w : Word) :
      Emits cmd (.branch op) [⟨flags, op.code, v, w⟩]

theorem rvaluePos_mode {cmd : Lexcmd} {ic q : Nat} {m : Option Mode}
    (h : rvaluePos cmd ic = some (m, q)) : ∃ tk, cmd[ic]? = some tk ∧ rvalueType tk.type = m := by
  obtain ⟨tk, htk, h⟩ := Option.map_eq_some_iff.mp h
  refine ⟨tk, htk, ?_⟩
  cases hm : rvalueType tk.type <;> simp only [hm, Prod.mk.injEq] at h <;> exact h.1

theorem lvalueType_some {type : Tktype} {m : Mode} (h : lvalueType type = some m) :
    m = .ram ∨ m = .ptr := by
  cases type with
  | ram => exact .inl (Option.some.inj h).symm
  | ptr => exact .inr (Option.some.inj h).symm
  | _ => cases h

theorem IsLvalue.mode {d : List Declared} {cmd : Lexcmd} {ic : Nat} {m : Mode} {tk : Lextoken}
    {v : Word} (h : IsLvalue d cmd ic m tk v) : m = .ram ∨ m = .ptr := by
  obtain ⟨type, _, hm⟩ := Option.bind_eq_some_iff.mp h.1
  exact lvalueType_some hm

theorem mc_tryLabel (c : Asmchip32) (cmd : Lexcmd) : (tryLabel c cmd).mc = c.mc := by
  unfold tryLabel
  split_ifs
  · rfl
  · cases cmd <;> rfl

theorem takes_emits {a : Action} {c d : Asmchip32} {cmd : Lexcmd} (h : a.Takes c cmd d) :
    ∃ ms, d.mc = c.mc ++ ms ∧ Emits cmd a ms := by
  cases a with
  | declare =>
    obtain ⟨_, _, addr, dauto, n, vs, _, _, _, _, _, _, rfl⟩ := h
    refine ⟨moves addr 0 vs, ?_, .declare addr vs⟩
    cases dauto <;> rfl
  | initr =>
    obtain ⟨_, tk, _, _, rfl⟩ := h
    exact ⟨_, rfl, .initr _⟩
  | noarg op =>
    cases h
    exact ⟨_, by rw [Asmchip32.emit, mc_tryLabel], .noarg op⟩
  | onearg op =>
    obtain ⟨_, m, q, v, ⟨hpos, _⟩, rfl⟩ := h
    obtain ⟨tk, htk, rfl⟩ := rvaluePos_mode hpos
    exact ⟨_, rfl, .onearg op htk v⟩
  | twoarg op =>
    obtain ⟨_, m, tk, v, m', q, w, hl, _, rfl⟩ := h
    exact ⟨_, by rw [Asmchip32.emit, markLabel_mc]; rfl, .twoarg op hl.mode m' v w⟩
  | jmpi =>
    obtain ⟨_, m, q, v, _, rfl⟩ := h
    exact ⟨_, rfl, .jmpi m _⟩
  | branch op =>
    obtain ⟨_, m, tk, v, m', q, w, _, _, rfl⟩ := h
    exact ⟨_, by rw [Asmchip32.emit, markLabel_mc]; rfl, .branch op _ v _⟩

/-- The action of a line is one of the table. -/
theorem mem_actions {cmd : Lexcmd} {a : Action} (h : actionOf cmd = some a) :
    a ∈ actions.map Prod.snd := by
  obtain ⟨tk, _, h⟩ := Option.bind_eq_some_iff.mp h
  obtain ⟨x, hx, rfl⟩ := Option.map_eq_some_iff.mp h
  exact List.mem_map_of_mem (List.mem_of_find?_eq_some hx)

/-- What holds of every command that a line emits, exactly if `Q` holds of the line, holds of
a whole program exactly if `Q` holds of all lines. -/
theorem run_emitted {P : Command → Prop} {Q : Lexcmd → Prop}
    (hline : ∀ cmd a ms, actionOf cmd = some a → Emits cmd a ms → ((∀ m ∈ ms, P m) ↔ Q cmd))
    {cmds : List Lexcmd} (hcmds : ∀ cmd ∈ cmds, WellLexed cmd) {c d : Asmchip32}
    (h : run parseStep cmds c = .ok d) :
    (∀ m ∈ d.mc, P m) ↔ (∀ m ∈ c.mc, P m) ∧ ∀ cmd ∈ cmds, Q cmd := by
  induction cmds generalizing c with
  | nil =>
    cases h
    simp
  | cons cmd cmds ih =>
    obtain ⟨e, he, h⟩ := bind_eq_ok.mp h
    obtain ⟨a, ha, htakes⟩ := (parseStep_ok (hcmds cmd (by simp))).mp he
    obtain ⟨ms, hmc, hms⟩ := takes_emits htakes
    rw [ih (fun x hx => hcmds x (by simp [hx])) h, hmc, List.forall_mem_append,
      List.forall_mem_cons, hline cmd a ms ha hms, and_assoc]

/-- The same of a source. -/
theorem build_emitted {P : Command → Prop} {Q : Lexcmd → Prop}
    (hline : ∀ cmd a ms, actionOf cmd = some a → Emits cmd a ms → ((∀ m ∈ ms, P m) ↔ Q cmd))
    {code : Text} {c : Asmchip32} (h : build code = .ok c) :
    (∀ m ∈ c.mc, P m) ↔ ∀ cmd ∈ c.vcmd, Q cmd := by
  obtain ⟨lexed, hlex, hparse⟩ := bind_eq_ok.mp h
  have hcmds := lexer_wellLexed hlex
  rw [run_emitted hline hcmds hparse, (lexer_keeps hlex).1, (run_extends hcmds hparse).vcmd]
  exact and_iff_right nofun

end Asm
