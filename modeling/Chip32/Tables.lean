import Chip32.Hashalg
import Chip32.Parser
import Chip32.Rbhash

/-!
# The assembler with its hash tables

The assembler as `c32asm.c` allocates it, with a table of `rbhash.c` for its actions and one
for its declarations, both hashed by `hash_fasthash`. Where the parser has a list of names,
there are calls of `rbhash_find` and `rbhash_add_unique` here. The memory they get is given
beforehand: an addition does not get the memory of an earlier one.
-/
namespace Asm

open Runs Vm

/-- What `malloc` returns to a table: its first block, and for the addition to a table of `n`
entries an element and a block to grow into. -/
structure Blocks (δ : Type) where
  table : Nat → Rbhash.Element δ
  el : Nat → Rbhash.Element δ
  newtable : Nat → Nat → Rbhash.Element δ

def Blocks.alloc {δ : Type} (mem : Blocks δ) (t : Rbhash.Hash δ) : Rbhash.Alloc δ :=
  ⟨some (mem.el t.count), some (mem.newtable t.count)⟩

structure Memory where
  actions : Blocks Action
  declare : Blocks Declared

/-- The bytes of a name. -/
def key (name : List Char) : List Rbhash.Byte := name.map fun ch => BitVec.ofNat 8 ch.toNat

/-- `A32_RBH_SIZE` and `A32_RBH_MIN`. -/
def rbhSize : Nat := 4096

def rbhMin : Nat := 10

/-- `asmchip32_s` with its tables. The list of names in `asm` stands for nothing. -/
structure Tabled where
  asm : Asmchip32
  actions : Rbhash.Hash Action
  declare : Rbhash.Hash Declared

/-- Why a call does not return `0`, or does not return. -/
inductive Halt where
  | exit : Rbhash.Exit → Halt
  | fault : Fault → Halt
  | fail : Tabled → Halt

abbrev TableBuild := Except Halt

def ofRbhash {α : Type} : Except Rbhash.Exit α → TableBuild α
  | .ok a => .ok a
  | .error e => .error (.exit e)

namespace Tabled

/-- A call that looks at no table. -/
def ofAsm {α : Type} (c : Tabled) : Build α → TableBuild α
  | .ok a => .ok a
  | .error (.fault f) => .error (.fault f)
  | .error (.fail d) => .error (.fail { c with asm := d })

def withAsm (c : Tabled) (asm : Asmchip32) : Tabled := { c with asm := asm }

/-- `rbhash_find` in `declare`. -/
def declareFind (c : Tabled) (name : List Char) : Option Declared :=
  Rbhash.find c.declare (key name)

/-- `rbhash_add_unique` to `declare`, with what it returns. -/
def declareAdd (mem : Memory) (c : Tabled) (dec : Declared) : TableBuild (Int × Tabled) := do
  let (r, t) ← ofRbhash
    (Rbhash.addUnique c.declare (key dec.name) (some dec) (mem.declare.alloc c.declare))
  pure (r, { c with declare := t })

section Parser

variable (mem : Memory)

/-- `action_declare`. -/
def actionDeclare (c : Tabled) (cmd : Lexcmd) : TableBuild Tabled := do
  let tk ← c.ofAsm (tokenAt cmd 1)
  if tk.type ≠ .name then c.ofAsm (complainAt c.asm tk "invalid declare: aspected name")
  else do
    let place ← c.ofAsm (need c.asm cmd 2 "missing argument")
    let (addr, dauto) ← c.ofAsm (declareAddr c.asm tk place)
    let asm ← c.ofAsm (declareStorage c.asm cmd addr dauto)
    let (r, c) ← declareAdd mem (c.withAsm asm) ⟨.literalNum, addr, tk.text⟩
    if r ≠ 0 then
      c.ofAsm (complainAt c.asm tk
        ("invalid declare: redeclaration var name '" ++ String.ofList tk.text ++ "'"))
    else pure c

/-- `parse_label`. -/
def parseLabel (c : Tabled) (cmd : Lexcmd) : TableBuild (Int × Tabled) := do
  let tk ← c.ofAsm (tokenAt cmd 0)
  if tk.type ≠ .label then pure (0, c)
  else do
    let (r, c) ← declareAdd mem c ⟨.label, BitVec.ofNat 32 c.asm.vcmd.length, tk.text⟩
    if r ≠ 0 then
      let error := "invalid label: redeclaration name '" ++ String.ofList tk.text ++ "'"
      pure (-1, c.withAsm (c.asm.complainAt tk error))
    else pure (1, c)

/-- The second `switch` of `parse_lvalue`. -/
def lvalueArg (c : Tabled) (cmd : Lexcmd) (ic : Nat) : TableBuild (Tabled × Word) := do
  let tk ← c.ofAsm (need c.asm cmd ic "missing argument name")
  match tk.type with
  | .literalNum => pure (c, number tk.start)
  | .name =>
    match c.declareFind tk.text with
    | none => .error (.fault .nullDereference)
    | some dec =>
      let error := "variable " ++ String.ofList tk.text ++ " is label"
      pure (if dec.type = .label then c.withAsm (c.asm.complainAt tk error) else c, dec.addr)
  | _ => c.ofAsm (complainAt c.asm tk "left value required literal num or var name")

/-- `parse_lvalue`. -/
def parseLvalue (c : Tabled) (cmd : Lexcmd) (ic : Nat) (flags : BitVec 8) :
    TableBuild (Tabled × Operand) := do
  let flags ← c.ofAsm (lvalueMode c.asm cmd ic flags)
  let (c, arg) ← lvalueArg c cmd (ic + 1)
  pure (c, ⟨ic + 1, flags, arg⟩)

/-- The second `switch` of `parse_rvalue`. -/
def rvalueArg (c : Tabled) (cmd : Lexcmd) (ic : Nat) : TableBuild Word := do
  let tk ← c.ofAsm (need c.asm cmd ic "missing argument name")
  match tk.type with
  | .literalNum => pure (number tk.start)
  | .name =>
    match c.declareFind tk.text with
    | none => c.ofAsm (complainAt c.asm tk ("variable " ++ String.ofList tk.text ++ " not exsist"))
    | some dec => pure dec.addr
  | _ => c.ofAsm (complainAt c.asm tk "right value required literal num or var name")

/-- `parse_rvalue`. -/
def parseRvalue (c : Tabled) (cmd : Lexcmd) (ic : Nat) (flags : BitVec 8) (idarg : Bool) :
    TableBuild Operand := do
  let (ic, flags) ← c.ofAsm (rvalueMode c.asm cmd ic flags idarg)
  let arg ← rvalueArg c cmd ic
  pure ⟨ic, flags, arg⟩

def emit (c : Tabled) (m : Command) : Tabled := c.withAsm (c.asm.emit m)

/-- `parse_noarg`. -/
def parseNoarg (op : Opcode) (c : Tabled) (cmd : Lexcmd) : TableBuild Tabled := do
  let (_, c) ← parseLabel mem c cmd
  pure (c.emit ⟨0, op.code, 0, 0⟩)

def firstArg (c : Tabled) (cmd : Lexcmd) : TableBuild (Nat × Tabled) := do
  let (l, c) ← parseLabel mem c cmd
  pure ((l + 1).toNat, c)

def oneOperand (c : Tabled) (cmd : Lexcmd) : TableBuild (Tabled × BitVec 8 × Word) := do
  let (ic, c) ← firstArg mem c cmd
  let r ← parseRvalue c cmd ic 0 false
  pure (c, r.flags, r.arg)

def twoOperands (c : Tabled) (cmd : Lexcmd) : TableBuild (Tabled × BitVec 8 × Word × Word) := do
  let (ic, c) ← firstArg mem c cmd
  let (c, l) ← parseLvalue c cmd ic 0
  let r ← parseRvalue c cmd (l.ic + 1) l.flags true
  pure (c, r.flags, l.arg, r.arg)

/-- `parse_onearg`. -/
def parseOnearg (op : Opcode) (c : Tabled) (cmd : Lexcmd) : TableBuild Tabled := do
  let (c, flags, arg0) ← oneOperand mem c cmd
  pure (c.emit ⟨flags, op.code, arg0, 0⟩)

/-- `parse_twoarg`. -/
def parseTwoarg (op : Opcode) (c : Tabled) (cmd : Lexcmd) : TableBuild Tabled := do
  let (c, flags, arg0, arg1) ← twoOperands mem c cmd
  pure (c.emit ⟨flags, op.code, arg0, arg1⟩)

/-- `action_jmpi`. -/
def actionJmpi (c : Tabled) (cmd : Lexcmd) : TableBuild Tabled := do
  let (c, flags, arg0) ← oneOperand mem c cmd
  pure (c.emit ⟨flags, Opcode.jmp.code, c.asm.mccount + 1 + arg0, 0⟩)

/-- `action_ift` and `action_iff`. -/
def parseBranch (op : Opcode) (c : Tabled) (cmd : Lexcmd) : TableBuild Tabled := do
  let (c, flags, arg0, arg1) ← twoOperands mem c cmd
  pure (c.emit ⟨flags, op.code, arg0, c.asm.mccount + 1 + arg1⟩)

/-- `action_initr`. -/
def actionInitr (c : Tabled) (cmd : Lexcmd) : TableBuild Tabled := do
  let (ic, c) ← firstArg mem c cmd
  let tk ← c.ofAsm (need c.asm cmd ic "missing argument")
  if tk.type ≠ .literalNum then
    c.ofAsm (complainAt c.asm tk "invalid initr: aspected size of memory")
  else pure (c.emit ⟨0, Opcode.initr.code, number tk.start, 0⟩)

def call : Action → Tabled → Lexcmd → TableBuild Tabled
  | .declare => actionDeclare mem
  | .initr => actionInitr mem
  | .noarg op => parseNoarg mem op
  | .onearg op => parseOnearg mem op
  | .twoarg op => parseTwoarg mem op
  | .jmpi => actionJmpi mem
  | .branch op => parseBranch mem op

/-- One turn of the loop of `a32_parse`. -/
def parseStep (c : Tabled) (cmd : Lexcmd) : TableBuild Tabled := do
  let tk ← c.ofAsm (commandName cmd)
  match Rbhash.find c.actions (key tk.text) with
  | none => c.ofAsm (complainAt c.asm tk ("unknow command '" ++ String.ofList tk.text ++ "'"))
  | some fn => call mem fn c cmd

/-- `a32_parse`. -/
def parse (c : Tabled) : TableBuild Tabled := run (parseStep mem) c.asm.vcmd c

/-- The `declare_action` of `a32_parser_init`, whose result is not looked at. -/
def declareAction (mem : Blocks Action) (t : Rbhash.Hash Action) (x : String × Action) :
    Except Rbhash.Exit (Rbhash.Hash Action) := do
  let (_, t) ← Rbhash.add t (key x.1.toList) (some x.2) (mem.alloc t)
  pure t

/-- `chip32_compiler_new` with its `a32_parser_init`, and the pointer
`chip32_compiler_build` sets to its source. -/
def new (code : Text) : TableBuild Tabled := do
  let actions := Rbhash.new rbhSize rbhMin rbhKey Hashalg.hashFasthash false mem.actions.table
  let declare := Rbhash.new rbhSize rbhMin rbhKey Hashalg.hashFasthash true mem.declare.table
  let actions ← ofRbhash (run (declareAction mem.actions) Asm.actions actions)
  pure ⟨.new code, actions, declare⟩

/-- `chip32_compiler_build` on a new assembler. -/
def build (code : Text) : TableBuild Tabled := do
  let c ← new mem code
  let asm ← c.ofAsm (lexer c.asm)
  parse mem (c.withAsm asm)

end Parser

end Tabled

end Asm
