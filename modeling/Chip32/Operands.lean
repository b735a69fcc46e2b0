import Chip32.Labels
import Chip32.Emission
import Chip32.VmStep

/-!
# Accepted lines and their operands

A line of an accepted source, with the state it is parsed in. The offset of a
relative jump is one of its operands.
-/
namespace Asm

open Runs Vm

/-- A line of a source that the parser comes to, and the state in front of it. -/
structure ReachedLine (code : Text) where
  lexed : Asmchip32
  lexer_ok : lexer (.new code) = .ok lexed
  before : List Lexcmd
  cmd : Lexcmd
  after : List Lexcmd
  lines : lexed.vcmd = before ++ cmd :: after
  state : Asmchip32
  run_before : run parseStep before lexed = .ok state

/-- A line of an accepted source. -/
structure AcceptedLine (code : Text) extends ReachedLine code where
  built : Asmchip32
  build_ok : build code = .ok built

theorem ReachedLine.wellLexed {code : Text} (u : ReachedLine code) :
    ∀ x ∈ u.before ++ u.cmd :: u.after, WellLexed x := by
  rw [← u.lines]
  exact lexer_wellLexed u.lexer_ok

/-- What stands between a line and a later one is run from behind the former. -/
theorem ReachedLine.between {code : Text} {u v : ReachedLine code}
    (h : u.before.length < v.before.length) {behind : Asmchip32}
    (hstep : parseStep u.state u.cmd = .ok behind) :
    ∃ between, v.before = u.before ++ u.cmd :: between ∧
      run parseStep between behind = .ok v.state := by
  have hlexed : v.lexed = u.lexed := Except.ok.inj (v.lexer_ok.symm.trans u.lexer_ok)
  have hlines : u.before ++ u.cmd :: u.after = v.before ++ v.cmd :: v.after := by
    rw [← u.lines, ← v.lines, hlexed]
  obtain ⟨rest, hbefore, hrest⟩ : ∃ rest, v.before = u.before ++ rest ∧
      u.cmd :: u.after = rest ++ v.cmd :: v.after := by
    rcases List.append_eq_append_iff.mp hlines with ⟨rest, hbefore, hrest⟩ | ⟨rest, hbefore, _⟩
    · exact ⟨rest, hbefore, hrest⟩
    · rw [hbefore, List.length_append] at h
      omega
  cases rest with
  | nil =>
    rw [hbefore, List.append_nil] at h
    exact absurd h (lt_irrefl _)
  | cons x between =>
    obtain ⟨rfl, _⟩ := List.cons.inj hrest
    have hrun := v.run_before
    rw [hbefore, hlexed, run_append, u.run_before, ok_bind, run_cons, hstep, ok_bind] at hrun
    exact ⟨between, hbefore, hrun⟩

section Lines

variable {code : Text} (u : AcceptedLine code)

/-- The line is taken, and the lines behind it are. -/
theorem AcceptedLine.takes : ∃ a d, actionOf u.cmd = some a ∧ a.Takes u.state u.cmd d ∧
    parseStep u.state u.cmd = .ok d ∧ run parseStep u.after d = .ok u.built := by
  have hbuild := u.build_ok
  rw [build, u.lexer_ok, ok_bind, parse, u.lines, run_append, u.run_before, ok_bind, run_cons,
    bind_eq_ok] at hbuild
  obtain ⟨d, hstep, hafter⟩ := hbuild
  obtain ⟨a, ha, htakes⟩ := (parseStep_ok (u.wellLexed u.cmd (by simp))).mp hstep
  exact ⟨a, d, ha, htakes, hstep, hafter⟩

/-- What the line emits stays where it is. -/
theorem AcceptedLine.emitted {d : Asmchip32} (hafter : run parseStep u.after d = .ok u.built)
    {ms : List Command} (hd : d.mc = u.state.mc ++ ms) {k : Nat} {m : Command}
    (hm : ms[k]? = some m) : u.built.mc[u.state.mc.length + k]? = some m := by
  obtain ⟨rest, hrest⟩ := (run_extends (fun x hx => u.wellLexed x (by simp [hx])) hafter).mc
  have hk : k < ms.length := (List.getElem?_eq_some_iff.mp hm).1
  rw [← hrest, hd, List.append_assoc, List.getElem?_append_right (Nat.le_add_right _ _),
    Nat.add_sub_cancel_left, List.getElem?_append_left hk, hm]

end Lines

section Machine

variable {h : Host} {c : Chip} {m : Command} {x : Word}

/-- A jump goes where its operand says, if there is such an operand. -/
theorem jmp_lands (hop : Opcode.ofCode m.cmd = .jmp) (hpc : InRam c.ram regPc) :
    (∃ d q, execute h c m = .ok (d, q) ∧ cell d.ram regPc = x) ↔
      Reaches c.ram (arg0fGet m.flags) m.arg0 ∧ operand0 h c m = x := by
  have hready : Reaches c.ram (arg0fGet m.flags) m.arg0 → Ready h c m := fun hr =>
    ⟨hpc, hr, by rw [hop]; nofun, by rw [hop]; trivial⟩
  constructor
  · rintro ⟨d, q, he, hx⟩
    obtain ⟨y, hy, _⟩ := bind_eq_ok.mp he
    rw [hop] at hy
    obtain ⟨_, hg, _⟩ := bind_eq_ok.mp hy
    have hr := reaches_of_getword hg
    cases he.symm.trans ((one_step h c m (hready hr)).2.1 hop)
    exact ⟨hr, (cell_set_self hpc).symm.trans hx⟩
  · rintro ⟨hr, rfl⟩
    exact ⟨_, _, (one_step h c m (hready hr)).2.1 hop, cell_set_self hpc⟩

/-- A conditional jump that is taken goes where its second operand says. -/
theorem branch_lands (hr : Reaches c.ram (arg0fGet m.flags) m.arg0)
    (ht : taken (.ofCode m.cmd) (operand0 h c m) = some true) (hpc : InRam c.ram regPc) :
    (∃ d q, execute h c m = .ok (d, q) ∧ cell d.ram regPc = x) ↔
      Reaches c.ram (arg1fGet m.flags) m.arg1 ∧ operand1 h c m = x := by
  obtain ⟨test, hcmd, htest, _⟩ := @commands_taken h c m _ _ _ ht
  have hready : Reaches c.ram (arg1fGet m.flags) m.arg1 → Ready h c m := by
    refine fun hr' => ⟨hpc, hr, fun _ => hr', ?_⟩
    cases hop : Opcode.ofCode m.cmd with
    | ift | iff => trivial
    | _ =>
      rw [hop] at ht
      cases ht
  constructor
  · rintro ⟨d, q, he, hx⟩
    obtain ⟨y, hy, _⟩ := bind_eq_ok.mp he
    rw [hcmd, cmdJumpIf, getword_reaches hr, ok_bind] at hy
    obtain ⟨e, hj, _⟩ := bind_eq_ok.mp hy
    have htest' : test (value h c.ram (arg0fGet m.flags) m.arg0) = true := htest
    simp only [jumpIf, htest', if_true] at hj
    obtain ⟨_, hg, _⟩ := bind_eq_ok.mp hj
    have hr' := reaches_of_getword hg
    rw [failIf_ram] at hr'
    cases he.symm.trans ((one_step h c m (hready hr')).2.2 true ht)
    exact ⟨hr', (cell_set_self hpc).symm.trans hx⟩
  · rintro ⟨hr', rfl⟩
    exact ⟨_, _, (one_step h c m (hready hr')).2.2 true ht, cell_set_self hpc⟩

end Machine

/-- Where the offset of a relative jump begins. -/
def offsetPos (a : Action) (cmd : Lexcmd) : Nat :=
  match a with
  | .jmpi => firstPos cmd
  | _ => firstPos cmd + 2

/-- A `jmpi`, `ift` or `iff`, its offset, and the command it is assembled to. -/
structure JumpLine (code : Text) extends AcceptedLine code where
  action : Action
  action_ok : actionOf cmd = some action
  relative : action = .jmpi ∨ action = .branch .ift ∨ action = .branch .iff
  mode : Option Mode
  pos : Nat
  offset : rvaluePos cmd (offsetPos action cmd) = some (mode, pos)
  token : Lextoken
  token_ok : cmd[pos]? = some token
  word : Word
  word_ok : valueOf (addLabel state cmd).declare token = some word
  command : Command
  command_ok : built.mc[state.mc.length]? = some command

section Jumps

variable {code : Text} (u : JumpLine code) (h : Host) (c : Chip)

/-- The index of the command. -/
def JumpLine.index : Word := BitVec.ofNat 32 u.state.mc.length

/-- What the offset denotes: a number or an address itself, or what the machine has
in the cell it stands for, which is 0 where there is no such cell. -/
def JumpLine.denotes : Word := value h c.ram (u.mode.getD .literal) u.word

/-- The machine takes the jump. -/
def JumpLine.Taken : Prop :=
  InRam c.ram regPc ∧ (u.action ≠ .jmpi →
    Reaches c.ram (arg0fGet u.command.flags) u.command.arg0 ∧
      taken (.ofCode u.command.cmd) (operand0 h c u.command) = some true)

/-- The next PC is as many commands past the next command as the offset denotes. -/
def JumpLine.Lands : Prop :=
  ∃ d q, execute h c u.command = .ok (d, q) ∧
    cell d.ram regPc = u.index + 1 + u.denotes h c

/-- There is a `$`, `*` or `@` in front of the offset. -/
def JumpLine.Indirect : Prop := u.mode.getD .literal ≠ .literal

instance : Decidable u.Indirect := inferInstanceAs (Decidable (_ ≠ _))

/-- What the cell behind the offset, by the number of the next command, holds is that
number past what the offset denotes. -/
def JumpLine.Coincides : Prop :=
  Reaches c.ram (u.mode.getD .literal) (u.index + 1 + u.word) ∧
    value h c.ram (u.mode.getD .literal) (u.index + 1 + u.word) = u.index + 1 + u.denotes h c

end Jumps

/-- The offset goes to the operand the machine jumps to, on top of the next command. -/
theorem JumpLine.command_eq {code : Text} (u : JumpLine code) :
    (u.action = .jmpi ∧ Opcode.ofCode u.command.cmd = .jmp ∧
      arg0fGet u.command.flags = u.mode.getD .literal ∧ u.command.arg0 = u.index + 1 + u.word) ∨
    (u.action ≠ .jmpi ∧ arg1fGet u.command.flags = u.mode.getD .literal ∧
      u.command.arg1 = u.index + 1 + u.word) := by
  obtain ⟨a, d, ha, htakes, _, hafter⟩ := u.takes
  cases ha.symm.trans u.action_ok
  have hemitted : ∀ {m : Command}, d.mc = u.state.mc ++ [m] → u.command = m := fun hd =>
    Option.some.inj (u.command_ok.symm.trans (u.emitted (k := 0) hafter hd rfl))
  -- the line has one offset, with one value
  have hsame : ∀ {m : Option Mode} {q : Nat} {v : Word},
      IsRvalue (addLabel u.state u.cmd).declare u.cmd (offsetPos u.action u.cmd) m q v →
        m = u.mode ∧ v = u.word := by
    rintro m q v ⟨hpos, tk, htk, hv⟩
    cases hpos.symm.trans u.offset
    cases htk.symm.trans u.token_ok
    exact ⟨rfl, Option.some.inj (hv.symm.trans u.word_ok)⟩
  have branch : ∀ op, u.action = .branch op → u.action ≠ .jmpi ∧
      arg1fGet u.command.flags = u.mode.getD .literal ∧ u.command.arg1 = u.index + 1 + u.word := by
    intro op hop
    rw [hop] at htakes
    obtain ⟨_, m, tk, v, m', q, w, hl, hr, rfl⟩ := htakes
    obtain ⟨rfl, rfl⟩ := hsame (by rw [hop]; exact hr)
    have hcommand := hemitted (by rw [Asmchip32.emit, markLabel_mc]; rfl)
    rw [hcommand]
    exact ⟨by rw [hop]; rintro ⟨⟩, arg1fGet_two m _, rfl⟩
  rcases u.relative with hjmpi | hop | hop
  · rw [hjmpi] at htakes
    obtain ⟨_, m, q, v, hr, rfl⟩ := htakes
    obtain ⟨rfl, rfl⟩ := hsame (by rw [hjmpi]; exact hr)
    have hcommand := hemitted rfl
    rw [hcommand]
    exact .inl ⟨hjmpi, rfl, arg0fGet_one _, rfl⟩
  · exact .inr (branch _ hop)
  · exact .inr (branch _ hop)

/-- A relative jump that is taken lands where its offset says exactly if the offset is
a number or an address, or the machine has the sum in the cell that many places behind. -/
theorem offset_honoured_iff {code : Text} (u : JumpLine code) {h : Host} {c : Chip}
    (ht : u.Taken h c) : u.Lands h c ↔ ¬ u.Indirect ∨ u.Coincides h c := by
  have hlands : u.Lands h c ↔ u.Coincides h c := by
    obtain ⟨hpc, hbranch⟩ := ht
    rcases u.command_eq with ⟨_, hop, hmode, harg⟩ | ⟨hne, hmode, harg⟩
    · rw [JumpLine.Lands, jmp_lands hop hpc, operand0, hmode, harg]
      rfl
    · obtain ⟨hr, htaken⟩ := hbranch hne
      rw [JumpLine.Lands, branch_lands hr htaken hpc, operand1, hmode, harg]
      rfl
  rw [hlands]
  refine ⟨.inr, fun hor => hor.elim (fun hdirect => ?_) id⟩
  have hliteral : u.mode.getD .literal = .literal := not_not.mp hdirect
  rw [JumpLine.Coincides, JumpLine.denotes, hliteral]
  exact ⟨trivial, rfl⟩

/-- Two relative jumps, one over a cell and one over a number. -/
def jumpsSource : Text := "initr 64\njmpi $5\niff $6, 2\n".toList

def jumpsLexed : Asmchip32 := final (lexer (.new jumpsSource))

def jumpsLine (i : Nat) : Lexcmd := jumpsLexed.vcmd.getD i []

def jumpOverCell : JumpLine jumpsSource where
  lexed := jumpsLexed
  built := final (build jumpsSource)
  lexer_ok := ok_final (by decide +kernel)
  build_ok := ok_final (by decide +kernel)
  before := [jumpsLine 0]
  cmd := jumpsLine 1
  after := [jumpsLine 2]
  lines := by decide +kernel
  state := final (run parseStep [jumpsLine 0] jumpsLexed)
  run_before := ok_final (by decide +kernel)
  action := .jmpi
  action_ok := by decide +kernel
  relative := .inl rfl
  mode := some .ram
  pos := 2
  offset := by decide +kernel
  token := (jumpsLine 1).getLastD ⟨0, .name, [], []⟩
  token_ok := by decide +kernel
  word := 5
  word_ok := by decide +kernel
  command := ⟨1, Opcode.jmp.code, 7, 0⟩
  command_ok := by decide +kernel

def jumpOverNumber : JumpLine jumpsSource where
  lexed := jumpsLexed
  built := final (build jumpsSource)
  lexer_ok := ok_final (by decide +kernel)
  build_ok := ok_final (by decide +kernel)
  before := [jumpsLine 0, jumpsLine 1]
  cmd := jumpsLine 2
  after := []
  lines := by decide +kernel
  state := final (run parseStep [jumpsLine 0, jumpsLine 1] jumpsLexed)
  run_before := ok_final (by decide +kernel)
  action := .branch .iff
  action_ok := by decide +kernel
  relative := .inr (.inr rfl)
  mode := none
  pos := 3
  offset := by decide +kernel
  token := (jumpsLine 2).getLastD ⟨0, .name, [], []⟩
  token_ok := by decide +kernel
  word := 2
  word_ok := by decide +kernel
  command := ⟨1, Opcode.iff.code, 6, 5⟩
  command_ok := by decide +kernel

/-- A machine with 3 in the cell 5 and 1 in the cell 6. -/
def jumpsChip : Chip :=
  { Chip.new [] with ram := List.replicate 5 0 ++ [3, 1] ++ List.replicate 30 0 }

theorem offset_honoured_number : jumpOverNumber.Lands emptyHost jumpsChip :=
  (offset_honoured_iff jumpOverNumber
    ⟨by decide +kernel, fun _ => ⟨by decide +kernel, by decide +kernel⟩⟩).mpr
      (.inl (by decide +kernel))

/-- `jmpi $5` goes to what the cell 7 holds. -/
theorem offset_misplaced : jumpOverCell.Taken emptyHost jumpsChip ∧
    ¬ jumpOverCell.Lands emptyHost jumpsChip := by
  have hpc : InRam jumpsChip.ram regPc := by decide
  refine ⟨⟨hpc, fun hne => absurd rfl hne⟩, ?_⟩
  rw [JumpLine.Lands, jmp_lands (by decide +kernel) hpc]
  decide +kernel

end Asm
