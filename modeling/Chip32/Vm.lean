import Chip32.Runs
import Mathlib.Algebra.Group.Int.Defs
import Mathlib.Algebra.Group.Nat.Defs

/-!
# The machine of `chip32.c`

Guest memory is a list of 32-bit words, empty while it is NULL; a page is a
list of commands. Words wrap around. What C leaves undefined (an access outside
RAM or outside the page, a division or a shift without a result) is a `Fault`, and so is
a handler that never returns; a machine that sets its FAIL state is not at fault.
-/
namespace Vm

abbrev Word := BitVec 32

/-- `chip32Command_s`. -/
structure Command where
  flags : BitVec 8
  cmd : BitVec 8
  arg0 : Word
  arg1 : Word
  deriving DecidableEq, Repr

inductive Fault where
  | ramBounds
  | pageBounds
  | division
  | shift
  | endless
  deriving DecidableEq, Repr

/-- The `CHIP32_TYPE_` of an operand. -/
inductive Mode where
  | literal
  | ram
  | ptr
  | data
  deriving DecidableEq, Repr

/-- The two bits of a mode. -/
def Mode.ofBits (b : Nat) : Mode :=
  match b with
  | 0 => .literal
  | 1 => .ram
  | 2 => .ptr
  | _ => .data

/-- `A32_ARG0F_GET`. -/
def arg0fGet (flags : BitVec 8) : Mode := .ofBits (flags &&& 3).toNat

/-- `A32_ARG1F_GET`. -/
def arg1fGet (flags : BitVec 8) : Mode := .ofBits ((flags >>> 2) &&& 3).toNat

/-- The `CHIP32_CMD_` codes with a handler of their own. -/
inductive Opcode where
  | nop | move | inc | dec | sum | dif | mul | div | mod | or | xor | and | not | shl | shr | rol
  | ror | bor | band | bnot | jmp | ift | iff | call | ret | push | pop | initr | logi | logu | logc
  | logs | logln | strcpy
  deriving DecidableEq, Repr

def Opcode.code : Opcode → BitVec 8
  | nop => 0x00 | move => 0x01 | inc => 0x02 | dec => 0x03 | sum => 0x04 | dif => 0x05 | mul => 0x06
  | div => 0x07 | mod => 0x08 | or => 0x09 | xor => 0x0A | and => 0x0B | not => 0x0C | shl => 0x0D
  | shr => 0x0E | rol => 0x0F | ror => 0x10 | bor => 0x11 | band => 0x12 | bnot => 0x13
  | jmp => 0x20 | ift => 0x21 | iff => 0x22 | call => 0x23 | ret => 0x24 | push => 0x25 | pop => 0x26
  | initr => 0x30 | logi => 0x40 | logu => 0x41 | logc => 0x42 | logs => 0x43 | logln => 0x44
  | strcpy => 0x50

/-- The row of the handler table; every code without a row of its own is a `nop`. -/
def Opcode.ofCode (b : BitVec 8) : Opcode :=
  match b.toNat with
  | 0x01 => move | 0x02 => inc | 0x03 => dec | 0x04 => sum | 0x05 => dif | 0x06 => mul | 0x07 => div
  | 0x08 => mod | 0x09 => or | 0x0A => xor | 0x0B => and | 0x0C => not | 0x0D => shl | 0x0E => shr
  | 0x0F => rol | 0x10 => ror | 0x11 => bor | 0x12 => band | 0x13 => bnot | 0x20 => jmp | 0x21 => ift
  | 0x22 => iff | 0x23 => call | 0x24 => ret | 0x25 => push | 0x26 => pop | 0x30 => initr
  | 0x40 => logi | 0x41 => logu | 0x42 => logc | 0x43 => logs | 0x44 => logln | 0x50 => strcpy
  | _ => nop

@[simp] theorem Opcode.ofCode_code (op : Opcode) : ofCode op.code = op := by
  cases op <;> rfl

/-- `CHIP32_STATE_END` and `CHIP32_STATE_FAIL`; `running` is the `0` of a new machine. -/
inductive State where
  | running
  | ended
  | fail
  deriving DecidableEq, Repr

/-- `chip32_s`, with what the machine has printed. -/
structure Chip where
  ram : List Word
  ramsize : Word
  data : List Command
  pagecurrent : Word
  pagesize : Word
  state : State
  stdout : String
  stderr : String
  deriving DecidableEq, Repr

/-- What C leaves open: the bytes an uninitialised command holds, and whether the left side
of the assignment in `chip32_cmd_push` is evaluated first. -/
structure Unspecified where
  tmp : Command
  stkFirst : Bool

/-- What the machine gets from outside: the loader (its return value and the
buffer it leaves), and the memory `malloc` returns for that many words. -/
structure Host extends Unspecified where
  dataLoad : Word → List Command → Int × List Command
  length_dataLoad : ∀ addr data, (dataLoad addr data).2.length = data.length
  malloc : Word → Option (Nat → Word)

def regPc : Word := 32
def regStk : Word := 33
def regFrm : Word := 34
def regLast : Word := 35

/-- A cell that exists; cell numbers are signed. -/
def InRam (ram : List Word) (r : Word) : Prop := 0 ≤ r.toInt ∧ r.toInt < ram.length

instance (ram : List Word) (r : Word) : Decidable (InRam ram r) := inferInstanceAs (Decidable (_ ∧ _))

/-- `ram[r]`. -/
def cell (ram : List Word) (r : Word) : Word := ram.getD r.toNat 0

/-- The read of `c->ram[r]`. -/
def load (c : Chip) (r : Word) : Except Fault Word :=
  if InRam c.ram r then .ok (cell c.ram r) else .error .ramBounds

/-- The write of `c->ram[r]`. -/
def store (c : Chip) (r v : Word) : Except Fault Chip :=
  if InRam c.ram r then .ok { c with ram := c.ram.set r.toNat v } else .error .ramBounds

/-- `chip32_getword`. -/
def getword (h : Host) (c : Chip) (type : Mode) (r : Word) : Except Fault (Word × Chip) :=
  match type with
  | .ram => do
    let v ← load c r
    pure (v, c)
  | .ptr => do
    let a ← load c r
    let v ← load c a
    pure (v, c)
  | .literal => pure (r, c)
  | .data =>
    let (n, tmp) := h.dataLoad r [h.tmp]
    pure ((tmp.headD h.tmp).arg0, if n ≠ 1 then { c with state := .fail } else c)

/-- `chip32_setword`. -/
def setword (c : Chip) (type : Mode) (r v : Word) : Except Fault Chip :=
  match type with
  | .ram => store c r v
  | .ptr => do
    let a ← load c r
    store c a v
  | _ => pure { c with state := .fail, stdout := c.stdout ++ "setword fail\n" }

/-- A handler may write to the command it was given a pointer to. -/
abbrev Handler := Host → Chip → Command → Except Fault (Chip × Command)

def cmdNop : Handler := fun _ c pcmd => pure (c, pcmd)

/-- `setword(a0, op getword(a0))`. -/
def cmdUnary (op : Word → Word) : Handler := fun h c pcmd => do
  let (x, c) ← getword h c (arg0fGet pcmd.flags) pcmd.arg0
  let c ← setword c (arg0fGet pcmd.flags) pcmd.arg0 (op x)
  pure (c, pcmd)

/-- `setword(a0, getword(a0) op getword(a1))`. -/
def cmdBinary (op : Word → Word → Except Fault Word) : Handler := fun h c pcmd => do
  let (x, c) ← getword h c (arg0fGet pcmd.flags) pcmd.arg0
  let (y, c) ← getword h c (arg1fGet pcmd.flags) pcmd.arg1
  let v ← op x y
  let c ← setword c (arg0fGet pcmd.flags) pcmd.arg0 v
  pure (c, pcmd)

def cmdMove : Handler := fun h c pcmd => do
  let (v, c) ← getword h c (arg1fGet pcmd.flags) pcmd.arg1
  let c ← setword c (arg0fGet pcmd.flags) pcmd.arg0 v
  pure (c, pcmd)

def cmdInc : Handler := cmdUnary fun x => x + 1
def cmdDec : Handler := cmdUnary fun x => x - 1
def cmdSum : Handler := cmdBinary fun x y => .ok (x + y)
def cmdDif : Handler := cmdBinary fun x y => .ok (x - y)
def cmdMul : Handler := cmdBinary fun x y => .ok (x * y)

/-- The quotient exists and is an `int32_t`. -/
def divides (x y : Word) : Bool := y ≠ 0 && !(x = BitVec.intMin 32 && y = -1)

def cmdDiv : Handler := cmdBinary fun x y => if divides x y then .ok (x.sdiv y) else .error .division
def cmdMod : Handler := cmdBinary fun x y => if divides x y then .ok (x.srem y) else .error .division
def cmdOr : Handler := cmdBinary fun x y => .ok (x ||| y)
def cmdXor : Handler := cmdBinary fun x y => .ok (x ^^^ y)
def cmdAnd : Handler := cmdBinary fun x y => .ok (x &&& y)
def cmdNot : Handler := cmdUnary fun x => ~~~x

def cmdShl : Handler := cmdBinary fun x y => if y.toNat < 32 then .ok (x <<< y) else .error .shift

/-- `>>` of an `int32_t` keeps the sign. -/
def cmdShr : Handler := cmdBinary fun x y =>
  if y.toNat < 32 then .ok (x.sshiftRight y.toNat) else .error .shift

/-- `(v << r) | (v >> (32 - r))`, which shifts by 32 when `r` is 0. -/
def rotated (v r : Word) : Except Fault Word :=
  if 0 < r.toNat ∧ r.toNat < 32 then .ok (v <<< r ||| v >>> (32 - r)) else .error .shift

def cmdRol : Handler := cmdBinary rotated

/-- The source rotates left here too. -/
def cmdRor : Handler := cmdBinary rotated

def ofBool (b : Bool) : Word := if b then 1 else 0

/-- The right operand of `||` and `&&`, which is not looked at once the left one has decided. -/
def rightOperand (h : Host) (c : Chip) (pcmd : Command) (decided : Option Bool) :
    Except Fault (Word × Chip) :=
  match decided with
  | some b => pure (ofBool b, c)
  | none => do
    let (y, c) ← getword h c (arg1fGet pcmd.flags) pcmd.arg1
    pure (ofBool (y ≠ 0), c)

/-- `setword(a0, getword(a0) op getword(a1))` for the operators of `rightOperand`. -/
def cmdLogical (decide : Word → Option Bool) : Handler := fun h c pcmd => do
  let (x, c) ← getword h c (arg0fGet pcmd.flags) pcmd.arg0
  let (v, c) ← rightOperand h c pcmd (decide x)
  let c ← setword c (arg0fGet pcmd.flags) pcmd.arg0 v
  pure (c, pcmd)

def cmdBor : Handler := cmdLogical fun x => if x ≠ 0 then some true else none
def cmdBand : Handler := cmdLogical fun x => if x = 0 then some false else none

def cmdBnot : Handler := cmdUnary fun x => ofBool (x = 0)

def cmdJmp : Handler := fun h c pcmd => do
  let (v, c) ← getword h c (arg0fGet pcmd.flags) pcmd.arg0
  let c ← store c regPc (v - 1)
  pure (c, pcmd)

/-- The target is read only when the jump is taken. -/
def jumpIf (h : Host) (c : Chip) (pcmd : Command) (taken : Bool) : Except Fault Chip :=
  if taken then do
    let (a, c) ← getword h c (arg1fGet pcmd.flags) pcmd.arg1
    store c regPc (a - 1)
  else pure c

def cmdJumpIf (test : Word → Bool) : Handler := fun h c pcmd => do
  let (v, c) ← getword h c (arg0fGet pcmd.flags) pcmd.arg0
  let c ← jumpIf h c pcmd (test v)
  pure (c, pcmd)

def cmdIft : Handler := cmdJumpIf fun v => v = 0
def cmdIff : Handler := cmdJumpIf fun v => v ≠ 0

/-- `c->ram[c->ram[CHIP32_REG_STK]--] = v`. -/
def pushWord (c : Chip) (v : Word) : Except Fault Chip := do
  let stk ← load c regStk
  let c ← store c regStk (stk - 1)
  store c stk v

/-- `c->ram[++c->ram[CHIP32_REG_STK]]`. -/
def popWord (c : Chip) : Except Fault (Word × Chip) := do
  let stk ← load c regStk
  let c ← store c regStk (stk + 1)
  let v ← load c (stk + 1)
  pure (v, c)

def cmdCall : Handler := fun h c pcmd => do
  let (v, c) ← getword h c (arg0fGet pcmd.flags) pcmd.arg0
  let pc ← load c regPc
  let c ← pushWord c pc
  let frm ← load c regFrm
  let c ← pushWord c frm
  let stk ← load c regStk
  let c ← store c regFrm stk
  let c ← store c regPc (v - 1)
  pure (c, pcmd)

def cmdRet : Handler := fun _ c pcmd => do
  let frm ← load c regFrm
  let c ← store c regStk frm
  let (v, c) ← popWord c
  let c ← store c regFrm v
  let (v, c) ← popWord c
  let c ← store c regPc v
  pure (c, pcmd)

/-- `c->ram[c->ram[CHIP32_REG_STK]--] = chip32_getword(...)`, whose sides C leaves in no order. -/
def cmdPush : Handler := fun h c pcmd =>
  if h.stkFirst then do
    let stk ← load c regStk
    let c ← store c regStk (stk - 1)
    let (v, c) ← getword h c (arg0fGet pcmd.flags) pcmd.arg0
    let c ← store c stk v
    pure (c, pcmd)
  else do
    let (v, c) ← getword h c (arg0fGet pcmd.flags) pcmd.arg0
    let c ← pushWord c v
    pure (c, pcmd)

def cmdPop : Handler := fun _ c pcmd => do
  let (v, c) ← popWord c
  let c ← setword c (arg0fGet pcmd.flags) pcmd.arg0 v
  pure (c, pcmd)

/-- The registers `initr` sets in its new memory. -/
def initRegisters (c : Chip) : Except Fault Chip := do
  let c ← store c regPc 1
  let c ← store c regStk (c.ramsize - 1)
  store c regFrm (c.ramsize - 1)

def cmdInitr : Handler := fun h c pcmd =>
  if c.ram ≠ [] then pure ({ c with state := .fail }, pcmd)
  else
    let c := { c with ramsize := pcmd.arg0 }
    if pcmd.arg0 = 0 then pure ({ c with state := .fail }, pcmd)
    else match h.malloc c.ramsize with
      | none => pure ({ c with state := .fail }, pcmd)
      | some words => do
        let c ← initRegisters { c with ram := (List.range c.ramsize.toNat).map words }
        pure (c, pcmd)

/-- `fprintf(stderr, ...)` of one word. -/
def cmdLog (text : Word → String) : Handler := fun h c pcmd => do
  let (v, c) ← getword h c (arg0fGet pcmd.flags) pcmd.arg0
  pure ({ c with stderr := c.stderr ++ text v }, pcmd)

/-- `%c`: the low byte of a word. -/
def charText (v : Word) : String := (Char.ofNat (v.toNat % 256)).toString

def cmdLogi : Handler := cmdLog fun v => toString v.toInt
def cmdLogu : Handler := cmdLog fun v => toString v.toNat
def cmdLogc : Handler := cmdLog charText

/-- The loop of `chip32_cmd_logs`. After `2 ^ 32` iterations it is where it began. -/
def logsLoop (h : Host) : Nat → Chip → Command → Except Fault (Chip × Command)
  | 0, _, _ => .error .endless
  | k + 1, c, pcmd => do
    let (v, c) ← getword h c (arg0fGet pcmd.flags) pcmd.arg0
    let pcmd := { pcmd with arg0 := pcmd.arg0 + 1 }
    if v = 0 then pure (c, pcmd)
    else logsLoop h k { c with stderr := c.stderr ++ charText v } pcmd

def cmdLogs : Handler := fun h c pcmd => logsLoop h (2 ^ 32) c pcmd

def cmdLogln : Handler := fun _ c pcmd => pure ({ c with stderr := c.stderr ++ "\n" }, pcmd)

/-- The loop of `chip32_cmd_strcpy`, whose `a1` is `A32_ARG0F_GET` too. -/
def strcpyLoop (h : Host) : Nat → Chip → Command → Except Fault (Chip × Command)
  | 0, _, _ => .error .endless
  | k + 1, c, pcmd => do
    let (s, c) ← getword h c (arg0fGet pcmd.flags) pcmd.arg1
    let c ← setword c (arg0fGet pcmd.flags) pcmd.arg0 s
    let pcmd := { pcmd with arg0 := pcmd.arg0 + 1, arg1 := pcmd.arg1 + 1 }
    if s = 0 then pure (c, pcmd) else strcpyLoop h k c pcmd

def cmdStrcpy : Handler := fun h c pcmd => strcpyLoop h (2 ^ 32) c pcmd

/-- The table `commands[]`. -/
def commands : Opcode → Handler
  | .nop => cmdNop | .move => cmdMove | .inc => cmdInc | .dec => cmdDec | .sum => cmdSum
  | .dif => cmdDif | .mul => cmdMul | .div => cmdDiv | .mod => cmdMod | .or => cmdOr | .xor => cmdXor
  | .and => cmdAnd | .not => cmdNot | .shl => cmdShl | .shr => cmdShr | .rol => cmdRol
  | .ror => cmdRor | .bor => cmdBor | .band => cmdBand | .bnot => cmdBnot | .jmp => cmdJmp
  | .ift => cmdIft | .iff => cmdIff | .call => cmdCall | .ret => cmdRet | .push => cmdPush
  | .pop => cmdPop | .initr => cmdInitr | .logi => cmdLogi | .logu => cmdLogu | .logc => cmdLogc
  | .logs => cmdLogs | .logln => cmdLogln | .strcpy => cmdStrcpy

/-- `chip32_new`, in a page of fresh memory. -/
def Chip.new (page : List Command) : Chip where
  ram := []
  ramsize := 0
  data := page
  pagecurrent := 0
  pagesize := BitVec.ofNat 32 page.length
  state := .running
  stdout := ""
  stderr := ""

/-- A dispatch: the handler, then `++c->ram[CHIP32_REG_PC]`. -/
def execute (h : Host) (c : Chip) (pcmd : Command) : Except Fault (Chip × Command) := do
  let (c, pcmd) ← commands (.ofCode pcmd.cmd) h c pcmd
  let pc ← load c regPc
  let c ← store c regPc (pc + 1)
  pure (c, pcmd)

/-- The machine and `ncmds`. -/
structure Loop where
  chip : Chip
  ncmds : Int
  deriving DecidableEq, Repr

def reloadText (page current size : Word) : String :=
  "vm: reload page " ++ toString page.toNat ++ " current:" ++ toString current.toNat ++
    " size:" ++ toString size.toNat ++ "\n"

/-- The reload of a page. -/
def reload (h : Host) (page : Word) (s : Loop) : Loop :=
  let (n, data) := h.dataLoad page s.chip.data
  let c := { s.chip with
    stdout := s.chip.stdout ++ reloadText page s.chip.pagecurrent s.chip.pagesize
    pagecurrent := page
    data := data
    state := if n < 0 then .fail else s.chip.state }
  ⟨c, n⟩

/-- `pc / c->pagesize`, of a sign-extended `pc`, in 32 bits. -/
def pageOf (pc pagesize : Word) : Word := (pc.signExtend 64 / pagesize.setWidth 64).setWidth 32

/-- An iteration up to the dispatch: it leaves the loop or is about to dispatch. -/
def turnPage (h : Host) (s : Loop) : Except Fault (Runs.Outcome Loop) :=
  if s.chip.state ≠ .running then pure (.stop s)
  else do
    let pc ← load s.chip regPc
    if s.chip.pagesize = 0 then .error .division
    else
      let page := pageOf pc s.chip.pagesize
      let t := if page ≠ s.chip.pagecurrent then reload h page s else s
      if t.ncmds < 0 ∧ page ≠ s.chip.pagecurrent then pure (.stop t)
      else if t.ncmds ≤ pc.toInt.tmod s.chip.pagesize.toNat then pure (.stop t)
      else pure (.next t)

/-- `commands[c->data[pc].cmd](c, &c->data[pc])` and the increment. -/
def dispatch (h : Host) (s : Loop) : Except Fault Loop := do
  let pc ← load s.chip regPc
  match s.chip.data[(pc.signExtend 64).toNat]? with
  | none => .error .pageBounds
  | some pcmd => do
    let (c, pcmd) ← execute h s.chip pcmd
    pure { s with chip := { c with data := c.data.set (pc.signExtend 64).toNat pcmd } }

/-- An iteration of the loop. -/
def turn (h : Host) (s : Loop) : Except Fault (Runs.Outcome Loop) := do
  match ← turnPage h s with
  | .stop s => pure (.stop s)
  | .next s => do
    let s ← dispatch h s
    pure (.next s)

/-- `chip32_run` before its loop; where it stops, it returns `-1`. -/
def start (h : Host) (c : Chip) : Except Fault (Runs.Outcome Loop) :=
  let (n, data) := h.dataLoad 0 c.data
  let c := { c with data := data }
  if n < 0 then
    pure (.stop ⟨{ c with state := .fail, stdout := c.stdout ++ "fail load 0\n" }, n⟩)
  else
    let c := { c with pagecurrent := 0 }
    match c.data with
    | [] => .error .pageBounds
    | pcmd :: rest =>
      if pcmd.cmd ≠ Opcode.initr.code then
        pure (.stop ⟨{ c with state := .fail, stdout := c.stdout ++ "fail initr\n" }, n⟩)
      else do
        let (c, pcmd) ← cmdInitr h c pcmd
        let s : Loop := ⟨{ c with data := pcmd :: rest }, n⟩
        if c.state = .fail then pure (.stop s) else pure (.next s)

/-- `chip32_run` with at most `k` iterations of its loop. -/
def run (h : Host) (c : Chip) (k : Nat) : Except Fault (Runs.Outcome Loop) := do
  match ← start h c with
  | .stop s => pure (.stop s)
  | .next s => Runs.iterate (turn h) k s

/-- What `chip32_run` returns. -/
def returned (s : Loop) : Int := if s.chip.state = .fail then -1 else 0

end Vm
