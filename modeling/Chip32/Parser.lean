import Chip32.Lexer

/-!
# The parser of `c32asmpars.c`

`-1` is an exception that keeps the state it leaves, except where a caller looks
at the result and goes on. Reading a token behind the last one, and following
the pointer of a failed lookup, are faults.
-/
namespace Asm

open Runs Vm

/-- A call on the assembler that may return `-1`. -/
abbrev Build := Except (Stop Asmchip32)

/-- `cmd->tokens[i]`. -/
def tokenAt (cmd : Lexcmd) (i : Nat) : Build Lextoken :=
  match cmd[i]? with
  | some tk => .ok tk
  | none => .error (.fault .uninitialised)

/-- Where an error is reported: at the start of a token. -/
def Asmchip32.complainAt (c : Asmchip32) (tk : Lextoken) (error : String) : Asmchip32 :=
  { c with line := tk.line, parse := tk.start, error := some error }

def complainAt {α : Type} (c : Asmchip32) (tk : Lextoken) (error : String) : Build α :=
  .error (.fail (c.complainAt tk error))

/-- The test `ic >= cmd->ntoken` with its jump to `ICERR`, then the token at `ic`. -/
def need (c : Asmchip32) (cmd : Lexcmd) (ic : Nat) (error : String) : Build Lextoken :=
  match cmd[ic]? with
  | some tk => .ok tk
  | none => do
    let tk ← tokenAt cmd (ic - 1)
    complainAt c tk error

def isSpace (c : Char) : Bool := c = ' ' || ('\t' ≤ c && c ≤ '\r')

def digitsValue (ds : List Char) : Nat := ds.foldl (fun n c => 10 * n + (c.toNat - 48)) 0

/-- `strtoul` in base 10. -/
def strtoul (p : Text) : BitVec 64 :=
  let p := p.dropWhile isSpace
  let digits := if deref p = '-' ∨ deref p = '+' then p.tail else p
  let n := digitsValue (digits.takeWhile isDigit)
  if 2 ^ 64 ≤ n then BitVec.allOnes 64
  else if deref p = '-' then -BitVec.ofNat 64 n else BitVec.ofNat 64 n

/-- A `strtoul` stored in a `uint32_t`. -/
def number (p : Text) : Word := (strtoul p).setWidth 32

/-- A `char` passed as a `uint32_t`. -/
def charWord (c : Char) : Word := (BitVec.ofNat 8 c.toNat).signExtend 32

def rbhKey : Nat := 64

/-- `rbhash_find` in `declare`. -/
def declareFind (d : List Declared) (name : List Char) : Option Declared :=
  d.find? fun x => x.name = name

/-- `rbhash_add_unique` to `declare`; a key may not be longer than `A32_RBH_KEY`. -/
def declareAdd (d : List Declared) (dec : Declared) : Option (List Declared) :=
  if (declareFind d dec.name).isSome ∨ rbhKey < dec.name.length then none else some (d ++ [dec])

/-- The `CHIP32_TYPE_` numbers. -/
def modeBits : Mode → BitVec 8
  | .literal => 0
  | .ram => 1
  | .ptr => 2
  | .data => 3

/-- `A32_ARG0F_SET`. -/
def arg0fSet (flags : BitVec 8) (m : Mode) : BitVec 8 := flags ||| modeBits m

/-- `A32_ARG1F_SET`. -/
def arg1fSet (flags : BitVec 8) (m : Mode) : BitVec 8 := flags ||| (modeBits m <<< 2)

/-- A command in the element `a32_parse_mc_new` returns. -/
def Asmchip32.emit (c : Asmchip32) (m : Command) : Asmchip32 := { c with mc := c.mc ++ [m] }

def Asmchip32.mccount (c : Asmchip32) : Word := BitVec.ofNat 32 c.mc.length

/-- `push_move`. -/
def pushMove (c : Asmchip32) (flags : BitVec 8) (a0 a1 : Word) : Asmchip32 :=
  c.emit ⟨flags, Opcode.move.code, a0, a1⟩

/-- The loop over the characters of a string. -/
def pushString (addr : Word) : Nat → List Char → Asmchip32 → Asmchip32
  | _, [], c => c
  | j, ch :: s, c =>
    pushString addr (j + 1) s (pushMove c (modeBits .ram) (addr + BitVec.ofNat 32 j) (charWord ch))

/-- The loop over a list of values: `size` of them, or an error. -/
def pushValues (addr : Word) (size : Int) : Nat → List Lextoken → Asmchip32 → Build Asmchip32
  | j, [], c => if size ≤ j then .ok c else .error (.fault .uninitialised)
  | j, tk :: tks, c =>
    if size ≤ j then .ok c
    else do
      let value ← match tk.type with
        | .literalNum => pure (number tk.start)
        | .literalChar => pure (charWord (deref tk.start.tail))
        | _ => complainAt c tk "cant mix different literal type"
      let c := pushMove c (modeBits .ram) (addr + BitVec.ofNat 32 j) value
      if tks = [] then complainAt c tk "missing argument" else pushValues addr size (j + 1) tks c

/-- `c->avaddr += n`, where the address is automatic. -/
def Asmchip32.advance (c : Asmchip32) (dauto : Bool) (n : BitVec 64) : Asmchip32 :=
  if dauto then { c with avaddr := c.avaddr + n } else c

/-- The initialiser that starts at token 4. -/
def initialise (c : Asmchip32) (cmd : Lexcmd) (addr : Word) (dauto : Bool) (sauto : BitVec 64)
    (tk : Lextoken) : Build Asmchip32 :=
  match tk.type with
  | .literalStr =>
    -- `strchr` looks for the quote itself and does not know escapes
    let s := tk.start.tail
    let body := s.takeWhile fun ch => ch ≠ deref tk.start && ch ≠ nul
    if deref (s.drop body.length) = nul then complainAt c tk "invalid string"
    else
      let chars := if sauto = 0 then body else s.take sauto.toInt.toNat
      let sauto := if sauto = 0 then BitVec.ofNat 64 body.length else sauto
      let c := pushString addr 0 chars c
      let c := pushMove c (modeBits .ram) (addr + sauto.setWidth 32) 0
      .ok (c.advance dauto (sauto + 1))
  | .literalNum | .literalChar => do
    let sauto := if sauto = 0 then BitVec.ofNat 64 (cmd.length - 4) else sauto
    let c ← pushValues addr sauto.toInt 0 (cmd.drop 4) c
    .ok (c.advance dauto sauto)
  | _ => complainAt c tk "invalid init value, aspected str, num or char"

/-- The size at token 3. -/
def declareSize (c : Asmchip32) (cmd : Lexcmd) (tk : Lextoken) : Build (BitVec 64) :=
  match tk.type with
  | .literalNum => do
    -- the number is read from the token after the one that was tested
    let next ← tokenAt cmd 4
    pure (strtoul next.start)
  | .auto => pure 0
  | _ => complainAt c tk "invalid declare: aspected size or ?"

/-- What follows the address: size and initialiser. -/
def declareStorage (c : Asmchip32) (cmd : Lexcmd) (addr : Word) (dauto : Bool) :
    Build Asmchip32 :=
  match cmd[3]? with
  | none => .ok (c.advance dauto 1)
  | some tk => do
    let sauto ← declareSize c cmd tk
    match cmd[4]? with
    | none =>
      if sauto = 0 then complainAt c tk "invalid declare: aspected value after auto size"
      else .ok (c.advance dauto sauto)
    | some init => initialise c cmd addr dauto sauto init

/-- The address at token 2. A number is read from the name, not from that token. -/
def declareAddr (c : Asmchip32) (tk place : Lextoken) : Build (Word × Bool) :=
  match place.type with
  | .literalNum => pure (number tk.start, false)
  | .auto => pure (c.avaddr.setWidth 32, true)
  | _ => complainAt c place "invalid declare: aspected address or ?"

/-- `action_declare`. -/
def actionDeclare (c : Asmchip32) (cmd : Lexcmd) : Build Asmchip32 := do
  let tk ← tokenAt cmd 1
  if tk.type ≠ .name then complainAt c tk "invalid declare: aspected name"
  else do
    let place ← need c cmd 2 "missing argument"
    let (addr, dauto) ← declareAddr c tk place
    let c ← declareStorage c cmd addr dauto
    match declareAdd c.declare ⟨.literalNum, addr, tk.text⟩ with
    | none =>
      complainAt c tk ("invalid declare: redeclaration var name '" ++ String.ofList tk.text ++ "'")
    | some d => .ok { c with declare := d }

/-- `parse_label`: `0` without a label, `-1` for one that cannot be added, else `1`. -/
def parseLabel (c : Asmchip32) (cmd : Lexcmd) : Build (Int × Asmchip32) := do
  let tk ← tokenAt cmd 0
  if tk.type ≠ .label then pure (0, c)
  else match declareAdd c.declare ⟨.label, BitVec.ofNat 32 c.vcmd.length, tk.text⟩ with
    | none =>
      let error := "invalid label: redeclaration name '" ++ String.ofList tk.text ++ "'"
      pure (-1, c.complainAt tk error)
    | some d => pure (1, { c with declare := d })

/-- The first `switch` of `parse_lvalue`. -/
def lvalueMode (c : Asmchip32) (cmd : Lexcmd) (ic : Nat) (flags : BitVec 8) :
    Build (BitVec 8) := do
  let tk ← need c cmd ic "missing argument name"
  match tk.type with
  | .ram => pure (arg0fSet flags .ram)
  | .ptr => pure (arg0fSet flags .ptr)
  | _ => complainAt c tk "left value required $ or *"

/-- Its second `switch`. A label is an error that does not stop it. -/
def lvalueArg (c : Asmchip32) (cmd : Lexcmd) (ic : Nat) : Build (Asmchip32 × Word) := do
  let tk ← need c cmd ic "missing argument name"
  match tk.type with
  | .literalNum => pure (c, number tk.start)
  | .name =>
    match declareFind c.declare tk.text with
    | none => .error (.fault .nullDereference)
    | some dec =>
      let error := "variable " ++ String.ofList tk.text ++ " is label"
      pure (if dec.type = .label then c.complainAt tk error else c, dec.addr)
  | _ => complainAt c tk "left value required literal num or var name"

/-- An operand: the last token it takes, the flags with its mode, its word. -/
structure Operand where
  ic : Nat
  flags : BitVec 8
  arg : Word
  deriving DecidableEq, Repr

/-- `parse_lvalue`. -/
def parseLvalue (c : Asmchip32) (cmd : Lexcmd) (ic : Nat) (flags : BitVec 8) :
    Build (Asmchip32 × Operand) := do
  let flags ← lvalueMode c cmd ic flags
  let (c, arg) ← lvalueArg c cmd (ic + 1)
  pure (c, ⟨ic + 1, flags, arg⟩)

/-- The modes `parse_rvalue` reads off a token. -/
def rvalueType : Tktype → Option Mode
  | .ram => some .ram
  | .ptr => some .ptr
  | .addr => some .literal
  | .data => some .data
  | _ => none

/-- The first `switch` of `parse_rvalue`. -/
def rvalueMode (c : Asmchip32) (cmd : Lexcmd) (ic : Nat) (flags : BitVec 8) (idarg : Bool) :
    Build (Nat × BitVec 8) := do
  let tk ← need c cmd ic "missing argument name"
  match rvalueType tk.type with
  | some m => pure (ic + 1, if idarg then arg1fSet flags m else arg0fSet flags m)
  | none =>
    if tk.type = .literalNum ∨ tk.type = .name then pure (ic, flags)
    else complainAt c tk "right value required numerical/variable type"

/-- Its second `switch`. -/
def rvalueArg (c : Asmchip32) (cmd : Lexcmd) (ic : Nat) : Build Word := do
  let tk ← need c cmd ic "missing argument name"
  match tk.type with
  | .literalNum => pure (number tk.start)
  | .name =>
    match declareFind c.declare tk.text with
    | none => complainAt c tk ("variable " ++ String.ofList tk.text ++ " not exsist")
    | some dec => pure dec.addr
  | _ => complainAt c tk "right value required literal num or var name"

/-- `parse_rvalue`. -/
def parseRvalue (c : Asmchip32) (cmd : Lexcmd) (ic : Nat) (flags : BitVec 8) (idarg : Bool) :
    Build Operand := do
  let (ic, flags) ← rvalueMode c cmd ic flags idarg
  let arg ← rvalueArg c cmd ic
  pure ⟨ic, flags, arg⟩

/-- `parse_noarg`. The result of `parse_label` is not looked at. -/
def parseNoarg (op : Opcode) (c : Asmchip32) (cmd : Lexcmd) : Build Asmchip32 := do
  let (_, c) ← parseLabel c cmd
  pure (c.emit ⟨0, op.code, 0, 0⟩)

/-- `ssize_t ic = parse_label(c, cmd); ++ic;`. -/
def firstArg (c : Asmchip32) (cmd : Lexcmd) : Build (Nat × Asmchip32) := do
  let (l, c) ← parseLabel c cmd
  pure ((l + 1).toNat, c)

/-- What `parse_onearg` and `action_jmpi` do before they emit. -/
def oneOperand (c : Asmchip32) (cmd : Lexcmd) : Build (Asmchip32 × BitVec 8 × Word) := do
  let (ic, c) ← firstArg c cmd
  let r ← parseRvalue c cmd ic 0 false
  pure (c, r.flags, r.arg)

/-- What `parse_twoarg`, `action_ift` and `action_iff` do before they emit. -/
def twoOperands (c : Asmchip32) (cmd : Lexcmd) :
    Build (Asmchip32 × BitVec 8 × Word × Word) := do
  let (ic, c) ← firstArg c cmd
  let (c, l) ← parseLvalue c cmd ic 0
  let r ← parseRvalue c cmd (l.ic + 1) l.flags true
  pure (c, r.flags, l.arg, r.arg)

/-- `parse_onearg`. -/
def parseOnearg (op : Opcode) (c : Asmchip32) (cmd : Lexcmd) : Build Asmchip32 := do
  let (c, flags, arg0) ← oneOperand c cmd
  pure (c.emit ⟨flags, op.code, arg0, 0⟩)

/-- `parse_twoarg`. -/
def parseTwoarg (op : Opcode) (c : Asmchip32) (cmd : Lexcmd) : Build Asmchip32 := do
  let (c, flags, arg0, arg1) ← twoOperands c cmd
  pure (c.emit ⟨flags, op.code, arg0, arg1⟩)

/-- `action_jmpi`; `mccount` already counts the new command. -/
def actionJmpi (c : Asmchip32) (cmd : Lexcmd) : Build Asmchip32 := do
  let (c, flags, arg0) ← oneOperand c cmd
  pure (c.emit ⟨flags, Opcode.jmp.code, c.mccount + 1 + arg0, 0⟩)

/-- `action_ift` and `action_iff`. -/
def parseBranch (op : Opcode) (c : Asmchip32) (cmd : Lexcmd) : Build Asmchip32 := do
  let (c, flags, arg0, arg1) ← twoOperands c cmd
  pure (c.emit ⟨flags, op.code, arg0, c.mccount + 1 + arg1⟩)

/-- `action_initr`. -/
def actionInitr (c : Asmchip32) (cmd : Lexcmd) : Build Asmchip32 := do
  let (ic, c) ← firstArg c cmd
  let tk ← need c cmd ic "missing argument"
  if tk.type ≠ .literalNum then complainAt c tk "invalid initr: aspected size of memory"
  else pure (c.emit ⟨0, Opcode.initr.code, number tk.start, 0⟩)

/-- An `action_f`, by the function that does its work and the code it passes on. -/
inductive Action where
  | declare
  | initr
  | noarg (op : Opcode)
  | onearg (op : Opcode)
  | twoarg (op : Opcode)
  | jmpi
  | branch (op : Opcode)
  deriving DecidableEq, Repr

def Action.call : Action → Asmchip32 → Lexcmd → Build Asmchip32
  | .declare => actionDeclare
  | .initr => actionInitr
  | .noarg op => parseNoarg op
  | .onearg op => parseOnearg op
  | .twoarg op => parseTwoarg op
  | .jmpi => actionJmpi
  | .branch op => parseBranch op

/-- The table `a32_parser_init` fills. -/
def actions : List (String × Action) :=
  [("declare", .declare), ("initr", .initr), ("nop", .noarg .nop), ("move", .twoarg .move),
   ("inc", .onearg .inc), ("dec", .onearg .dec), ("sum", .twoarg .sum), ("dif", .twoarg .dif),
   ("mul", .twoarg .mul), ("div", .twoarg .div), ("mod", .twoarg .mod), ("or", .twoarg .or),
   ("xor", .twoarg .xor), ("and", .twoarg .and), ("not", .twoarg .not), ("shl", .twoarg .shl),
   ("shr", .twoarg .shr), ("rol", .twoarg .rol), ("ror", .twoarg .ror), ("bor", .twoarg .bor),
   ("band", .twoarg .band), ("bnot", .onearg .bnot), ("jmp", .onearg .jmp), ("jmpi", .jmpi),
   ("ift", .branch .ift), ("iff", .branch .iff), ("call", .onearg .call), ("ret", .noarg .ret),
   ("push", .twoarg .push), ("pop", .onearg .pop), ("logi", .onearg .logi), ("logu", .onearg .logu),
   ("logc", .onearg .logc), ("logs", .onearg .logs), ("logln", .noarg .logln),
   ("strcpy", .twoarg .strcpy)]

/-- `rbhash_find` in `actions`. -/
def findAction (name : List Char) : Option Action :=
  (actions.find? fun x => x.1.toList = name).map Prod.snd

/-- The token `a32_parse` takes for the command name. -/
def commandName (cmd : Lexcmd) : Build Lextoken := do
  let tk ← tokenAt cmd 0
  tokenAt cmd (if tk.type = .label ∧ 0 < cmd.length then 1 else 0)

/-- One turn of the loop of `a32_parse`. -/
def parseStep (c : Asmchip32) (cmd : Lexcmd) : Build Asmchip32 := do
  let tk ← commandName cmd
  match findAction tk.text with
  | none => complainAt c tk ("unknow command '" ++ String.ofList tk.text ++ "'")
  | some fn => fn.call c cmd

/-- `a32_parse`. -/
def parse (c : Asmchip32) : Build Asmchip32 := run parseStep c.vcmd c

/-- `chip32_compiler_build` on a new assembler. -/
def build (code : Text) : Build Asmchip32 := do
  let c ← lexer (.new code)
  parse c

end Asm
