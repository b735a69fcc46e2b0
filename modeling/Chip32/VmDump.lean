import Chip32.Vm

/-!
# The disassembler

`chip32_command_dump`, with a table of names and numbers of arguments of its own.
-/
namespace Vm

/-- The table `dump`: name and `narg`. A code without a row of its own is a `nop` in it, too. -/
def Opcode.dump : Opcode → String × Nat
  | nop => ("nop", 0)
  | move => ("move", 2)
  | inc => ("inc", 1)
  | dec => ("dec", 1)
  | sum => ("sum", 2)
  | dif => ("dif", 2)
  | mul => ("mul", 2)
  | div => ("div", 2)
  | mod => ("mod", 2)
  | or => ("or", 2)
  | xor => ("xor", 2)
  | and => ("and", 2)
  | not => ("not", 1)
  | shl => ("shl", 2)
  | shr => ("shr", 2)
  | rol => ("rol", 2)
  | ror => ("ror", 2)
  | bor => ("bor", 2)
  | band => ("band", 2)
  | bnot => ("bnot", 2)
  | jmp => ("jmp", 1)
  | ift => ("ift", 2)
  | iff => ("iff", 2)
  | call => ("call", 1)
  | ret => ("ret", 1)
  | push => ("push", 1)
  | pop => ("pop", 1)
  | initr => ("initr", 1)
  | logi => ("logi", 1)
  | logu => ("logu", 1)
  | logc => ("logc", 1)
  | logs => ("logs", 1)
  | logln => ("logln", 0)
  | strcpy => ("strcpy", 2)

def argname : Mode → String
  | .literal => ""
  | .ram => "$"
  | .ptr => "*"
  | .data => "@"

/-- The loop over the arguments, each with its `sep` in front; two bits of the flags are
used up by each. -/
def dumpArgs : BitVec 8 → List (String × Word) → String
  | _, [] => ""
  | flags, (sep, arg) :: args =>
    sep ++ " " ++ argname (arg0fGet flags) ++ toString arg.toInt ++ dumpArgs (flags >>> 2) args

/-- What is printed of a command behind `index|`. -/
def dumpCommand (cmd : Command) : String :=
  let (name, narg) := (Opcode.ofCode cmd.cmd).dump
  " " ++ name ++ dumpArgs cmd.flags ([("", cmd.arg0), (",", cmd.arg1)].take narg)

/-- `%5lu`. -/
def padIndex (i : Nat) : String :=
  String.ofList (List.replicate (5 - (toString i).length) ' ') ++ toString i

/-- The loop over the commands, from index `i` on. -/
def dumpLines : Nat → List Command → String
  | _, [] => ""
  | i, cmd :: cmds => padIndex i ++ "|" ++ dumpCommand cmd ++ "\n" ++ dumpLines (i + 1) cmds

/-- `chip32_command_dump`. -/
def commandDump (cmds : List Command) : String :=
  "commands dump: " ++ toString cmds.length ++ "\n" ++ dumpLines 0 cmds

theorem dumpLines_append (i : Nat) (cmds rest : List Command) :
    dumpLines i (cmds ++ rest) = dumpLines i cmds ++ dumpLines (i + cmds.length) rest := by
  induction cmds generalizing i with
  | nil => simp [dumpLines]
  | cons cmd cmds ih =>
    simp only [List.cons_append, dumpLines, ih, String.append_assoc, List.length_cons]
    rw [Nat.add_right_comm, Nat.add_assoc]

/-- The line of a command. -/
theorem commandDump_append (front : List Command) (m : Command) (rest : List Command) :
    commandDump (front ++ m :: rest) =
      "commands dump: " ++ toString (front ++ m :: rest).length ++ "\n" ++ (dumpLines 0 front ++
        (padIndex front.length ++ "|" ++ (dumpCommand m ++ "\n") ++
          dumpLines (front.length + 1) rest)) := by
  have hlines : dumpLines 0 (front ++ m :: rest) = dumpLines 0 front ++
      (padIndex front.length ++ "|" ++ (dumpCommand m ++ "\n") ++
        dumpLines (front.length + 1) rest) := by
    rw [dumpLines_append, dumpLines, Nat.zero_add]
    simp only [String.append_assoc]
  exact congrArg (_ ++ ·) hlines

example : commandDump [⟨5, Opcode.move.code, 35, -1⟩] =
    "commands dump: 1\n    0| move $35, $-1\n" := by decide

end Vm
